import StraightLine.OrderedMap
import StraightLine.Grammar.Body
import StraightLine.Grammar.Error
import StraightLine.Grammar.Record
import StraightLine.Grammar.Size

/-!
# Straight-line grammars

A straight-line grammar has one rule for each nonterminal, so a nonterminal stands for at most one
word. A `Grammar` holds a start symbol, the rules in the order in which they came in, and a memo
of words that were computed before. It is the type `Grammar` with `new` (`ofStart`), its default
(`standard`), `set_start`, `len`, `is_empty`, `contains_rule`, `rule`, `add_rule`, `stats` and
`invalidate_cache` (`forget`). The operation `rule_mut` hands a body out to be changed; here
`editRule` is given the change as a function.

* `Grammar.addRule`, `Grammar.editRule` and `Grammar.setStart` build a grammar. They ask for no
  validity: a rule may refer to names without rules, or to itself.
* `Outcome` is what the operations return that can be refused or that report what they do: the
  answer, the grammar afterwards (also after a refusal), and the reports.
* Whatever changes a rule empties the memo; the start symbol has no bearing on it.
-/

namespace StraightLine

-- sums and powers are those of the core library, whatever else is in scope
attribute [scoped instance (high)] Zero.ofOfNat0 instPowNat

/-- A start symbol and one rule body for each name, with the words computed so far. -/
structure Grammar (T N : Type) where
  start : N
  rules : OrderedMap N (Body T N)
  memo : OrderedMap N (List T)

/-- The result of an operation on a grammar. -/
structure Outcome (T N α : Type) where
  answer : Except (GrammarError N) α
  grammar : Grammar T N
  records : List (Record N)

namespace Outcome

variable {T N α : Type}

/-- A refusal: nothing changes and nothing is reported. -/
def refuse (g : Grammar T N) (e : GrammarError N) : Outcome T N α := ⟨.error e, g, []⟩

end Outcome

namespace Grammar

variable {T N : Type}

/-! ## Construction -/

/-- The grammar with a start symbol and no rules. -/
def ofStart (start : N) : Grammar T N := ⟨start, .empty, .empty⟩

/-- The usual grammar without rules: its start symbol is a star. -/
def standard : Grammar T String := ofStart "*"

instance : Inhabited (Grammar T String) := ⟨standard⟩

/-- Makes another nonterminal the start symbol. -/
def setStart (g : Grammar T N) (start : N) : Grammar T N := { g with start }

/-- Forgets all computed words. -/
def forget (g : Grammar T N) : Grammar T N := { g with memo := .empty }

/-! ## Size -/

/-- How many rules there are. -/
def size (g : Grammar T N) : Nat := g.rules.size

def isEmpty (g : Grammar T N) : Bool := g.rules.size = 0

/-- The numbers of rules and of symbols. -/
def stats (g : Grammar T N) : Size :=
  ⟨g.rules.size, (g.rules.values.map Sequence.size).sum⟩

/-! ## Rules -/

variable [DecidableEq N]

/-- Whether there is a rule for `id`. -/
def contains (g : Grammar T N) (id : N) : Bool := g.rules.contains id

/-- The body of the rule for `id`. -/
def rule? (g : Grammar T N) (id : N) : Option (Body T N) := g.rules.get? id

/-- Sets the rule for `id` and returns the body that it had. A new rule comes last, a replaced one
keeps its place. -/
def addRule (g : Grammar T N) (id : N) (b : Body T N) : Option (Body T N) × Grammar T N :=
  (g.rules.get? id, { g with rules := g.rules.insert id b }.forget)

/-- Lets `f` change the body of the rule for `id`, if there is one, and returns what `f` returns. -/
def editRule {α : Type} (g : Grammar T N) (id : N) (f : Body T N → α × Body T N) :
    Option α × Grammar T N :=
  match g.rules.get? id with
  | none => (none, g.forget)
  | some b =>
    let (a, b) := f b
    (some a, { g with rules := g.rules.insert id b }.forget)

end Grammar

end StraightLine
