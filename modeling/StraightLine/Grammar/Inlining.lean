import StraightLine.Grammar.Census

/-!
# Substituting, inlining and deleting rules

The operations are `substitute`, `inline` (`inlineRule`) and `delete_rule`. Each makes its tests in
the order in which they stand there.

* `Grammar.substitute` puts a list of symbols in the place of every reference to a name, in all
  bodies at once.
* `Grammar.inlineRule` removes a rule and puts its body in the place of every reference to it. The
  start symbol and a rule that refers to itself cannot be inlined.
* `Grammar.deleteRule` removes a rule that no other rule refers to.
-/

namespace StraightLine

namespace Grammar

variable {T N : Type} [DecidableEq N]

/-- Puts `xs` in the place of every reference to `id` and returns the number of places. The rule for
`id` stays. -/
def substitute (g : Grammar T N) (id : N) (xs : List (Symbol T N)) : Nat × Grammar T N :=
  let done := g.rules.map fun b => Body.substitute b id xs
  ((done.values.map Prod.fst).sum, { g with rules := done.map Prod.snd }.forget)

/-- Removes the rule for `id` from the rules and leaves everything else. -/
def dropRule (g : Grammar T N) (id : N) : Grammar T N := { g with rules := g.rules.erase id }

/-- Removes the rule for `id` and puts its body in the place of every reference to it. The answer is
the number of places. -/
def inlineRule (g : Grammar T N) (id : N) : Outcome T N Nat :=
  match g.rules.get? id with
  | none => .refuse g (.undefinedNonterminal id)
  | some b =>
    if id = g.start then .refuse g (.startSymbol id)
    else if Body.refersTo b id then .refuse g (.cycle id)
    else
      let (sites, g) := (g.dropRule id).substitute id b.toList
      ⟨.ok sites, g, [.inlined id sites]⟩

/-- A successful inlining leaves one rule less. -/
theorem size_inlineRule {g : Grammar T N} {id : N} {sites : Nat}
    (h : (g.inlineRule id).answer = .ok sites) : (g.inlineRule id).grammar.size + 1 = g.size := by
  unfold inlineRule at h ⊢
  split at h
  · cases h
  · next b hb =>
    split at h
    · cases h
    · split at h
      · cases h
      · next hs hr =>
        simp only [hs, hr, if_false, Bool.false_eq_true]
        simp only [size, substitute, dropRule, forget, OrderedMap.size_map]
        exact OrderedMap.size_erase (OrderedMap.mem_keys_of_get? hb)

/-- Removes the rule for `id` and returns its body, unless other rules refer to it. -/
def deleteRule (g : Grammar T N) (id : N) : Outcome T N (Body T N) :=
  match g.rules.get? id with
  | none => .refuse g (.undefinedNonterminal id)
  | some b =>
    if id = g.start then .refuse g (.startSymbol id)
    else if g.outerOccurrences id ≠ 0 then
      .refuse g (.stillReferenced id (g.outerOccurrences id))
    else ⟨.ok b, (g.dropRule id).forget, [.deleting id]⟩

end Grammar

end StraightLine
