import StraightLine.Text.Spelled
import StraightLine.Text.Outline

/-!
# Why an operation on a grammar is refused

The causes and their texts are those of `GrammarError`.

* `GrammarError` has one constructor for each cause; each names the nonterminal at fault.
* `GrammarError.message` is the sentence shown to a user.
* `GrammarError.outline` is the form that a diagnostic shows.
-/

namespace StraightLine

open Text (Spelled Outline)

/-- The causes for which a grammar refuses an operation or is found invalid. -/
inductive GrammarError (N : Type) where
  /-- A name that is asked for or referred to has no rule. -/
  | undefinedNonterminal (id : N)
  /-- The rule of the start symbol cannot be taken away. -/
  | startSymbol (id : N)
  /-- A nonterminal cannot be merged into itself. -/
  | selfMerge (id : N)
  /-- The rule reaches itself through references, or would do so. -/
  | cycle (id : N)
  /-- Other bodies refer to the rule `count` times. -/
  | stillReferenced (id : N) (count : Nat)
  /-- The body of the rule has no symbols. -/
  | emptyRule (id : N)
  /-- A body refers to the start symbol, or would do so. -/
  | startReferenced (id : N)
  deriving DecidableEq, Repr

namespace GrammarError

variable {N : Type} [Spelled N]

/-- The sentence that tells a user of the error. -/
def message : GrammarError N → String
  | undefinedNonterminal id => "nonterminal " ++ Spelled.literal id ++ " has no rule"
  | startSymbol id => "the start symbol " ++ Spelled.literal id ++ " cannot be inlined or deleted"
  | selfMerge id => "cannot merge nonterminal " ++ Spelled.literal id ++ " into itself"
  | cycle id => "reference cycle through nonterminal " ++ Spelled.literal id
  | stillReferenced id count =>
    "nonterminal " ++ Spelled.literal id ++ " is still referenced " ++ Spelled.plain count
      ++ " time(s)"
  | emptyRule id => "rule for " ++ Spelled.literal id ++ " has an empty body"
  | startReferenced id =>
    "the start symbol " ++ Spelled.literal id ++ " is referenced by a rule body"

/-- The cause with the name it is about. -/
def outline : GrammarError N → Outline
  | undefinedNonterminal id => .applied "UndefinedNonterminal" (.leaf (Spelled.literal id))
  | startSymbol id => .applied "StartSymbol" (.leaf (Spelled.literal id))
  | selfMerge id => .applied "SelfMerge" (.leaf (Spelled.literal id))
  | cycle id => .applied "Cycle" (.leaf (Spelled.literal id))
  | stillReferenced id count =>
    .record "StillReferenced"
      [("id", .leaf (Spelled.literal id)), ("count", .leaf (Spelled.literal count))]
  | emptyRule id => .applied "EmptyRule" (.leaf (Spelled.literal id))
  | startReferenced id => .applied "StartReferenced" (.leaf (Spelled.literal id))

end GrammarError

end StraightLine
