import StraightLine.Grammar.Basic

/-!
# Counting references

The census is `reference_counts`. The other counts are those that `delete_rule` and `replace` make
of the bodies on their way.

* `Grammar.occurrences g id` is the number of references to `id` in all bodies, the body of `id`
  included.
* `Grammar.referenceCounts` is the census of a whole grammar: one entry for each rule, each name
  that is referred to and the start symbol. The start symbol counts as two, so it never looks like
  a rule that is used once.
* `Grammar.othersReferTo` asks whether a body other than one given body refers to a name.
-/

namespace StraightLine

namespace Grammar

variable {T N : Type} [DecidableEq N]

/-- How many references to `id` there are in all bodies. -/
def occurrences (g : Grammar T N) (id : N) : Nat :=
  (g.rules.values.map fun b => Body.count b id).sum

/-- How many references to `id` there are in the bodies of the other rules. -/
def outerOccurrences (g : Grammar T N) (id : N) : Nat :=
  ((g.rules.entries.filter fun r => r.1 ≠ id).map fun r => Body.count r.2 id).sum

/-- Whether a body other than that of `skip` refers to `id`. -/
def othersReferTo (g : Grammar T N) (id skip : N) : Bool :=
  g.rules.entries.any fun r => r.1 ≠ skip && Body.refersTo r.2 id

/-- Adds one to the count of a name. -/
def tally (counts : OrderedMap N Nat) (id : N) : OrderedMap N Nat :=
  counts.insert id ((counts.get? id).getD 0 + 1)

/-- The number of references to each name, with the start symbol held at two. -/
def referenceCounts (g : Grammar T N) : OrderedMap N Nat :=
  let zeros := g.rules.map fun _ => 0
  let counted := (g.rules.values.flatMap Body.references).foldl tally zeros
  counted.insert g.start 2

end Grammar

end StraightLine
