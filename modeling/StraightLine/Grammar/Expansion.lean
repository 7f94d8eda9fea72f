import StraightLine.Grammar.Traversal

/-!
# The word of a nonterminal

The operations are `expand`, `expand_start` and `expanded_len`.

* `Grammar.expand` computes the word that a nonterminal stands for. The work happens on a copy of
  each body, where the word of a rule takes the place of a reference to it. Every finished rule
  goes into the memo, so its word is computed once until a rule changes; a walk that fails keeps
  the rules that it finished.
* `Grammar.expandedLength` computes the length of the word alone. It uses no memo of words and
  stores none.

A name without a rule and a rule that needs its own word are errors in both.
-/

namespace StraightLine

variable {T N : Type} [DecidableEq N]

/-! ## Words -/

/-- The word of a rule: the word of each reference is spliced into a copy of the body at the
position of the reference, and what is left are terminals. -/
def wordOf : Valuation T N (Body T N) (List T) where
  enter b := b
  letter b _ _ := b
  reference b p word := (b.replaceAt p (word.map .terminal)).2
  leave b := b.toList.filterMap Symbol.terminal?
  missing id := .error (.undefinedNonterminal id)

/-- The length of the word of a rule: a terminal adds one, a reference the length of its own word.
-/
def lengthOf : Valuation T N Nat Nat where
  enter _ := 0
  letter n _ _ := n + 1
  reference n _ length := n + length
  leave n := n
  missing id := .error (.undefinedNonterminal id)

namespace Grammar

/-- The word of `id`. The grammar afterwards differs in its memo alone. -/
def expand (g : Grammar T N) (id : N) : Outcome T N (List T) :=
  let (answer, trail) := visit g.rules wordOf [] (.ofFinished g.memo) id
  ⟨answer, { g with memo := trail.finished }, trail.entered.map .expanding⟩

/-- The word of the start symbol. -/
def expandStart (g : Grammar T N) : Outcome T N (List T) := g.expand g.start

/-- The length of the word of `id`. -/
def expandedLength (g : Grammar T N) (id : N) : Except (GrammarError N) Nat :=
  (visit g.rules lengthOf [] (.ofFinished .empty) id).1

end Grammar

end StraightLine
