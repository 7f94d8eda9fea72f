import StraightLine.Proofs.Reduction

/-!
# A reduction ends at a fixed point

The loop of a reduction looks at counts alone. It never asks which rules the start symbol reaches,
and rules that it does not reach can keep each other's counts up for a while. That all of them go
away in the end is a fact about graphs without loops (`Grammar.reaches_of_irreducible`).

* `Grammar.reduce_of_irreducible` — where nothing is reducible, to reduce is to do nothing.
* `Grammar.keys_eq_nil_of_irreducible` — without a rule for the start symbol no rule is left.
* `Grammar.reduce_fixed_point` — **what holds after every reduction**: each rule is reached, and
  each but the start symbol's is referred to twice, so a second reduction changes nothing.
-/

namespace StraightLine

variable {T N : Type} [DecidableEq N]

namespace Grammar

variable {g : Grammar T N}

/-- Where nothing is reducible, the whole outcome of a reduction: no rule is inlined, the grammar
with its memo stays as it is, and the report has the same size twice. -/
theorem reduce_of_irreducible (hac : g.productions.Acyclic) (hend : g.nextReducible = none) :
    g.reduce = ⟨.ok 0, g, [.reduced g.size g.size 0]⟩ := by
  have hall : g.inlineAll = ⟨.ok 0, g, []⟩ := inlineAll_of_none hend
  rw [reduce_of_acyclic hac (congrArg Outcome.answer hall), hall]
  rfl

/-- A start symbol without a rule reaches nothing but itself, so there is no rule to keep. -/
theorem keys_eq_nil_of_irreducible (hac : g.productions.Acyclic) (hend : g.nextReducible = none)
    (hs : g.start ∉ g.rules.keys) : g.rules.keys = [] := by
  refine List.eq_nil_iff_forall_not_mem.mpr fun x hx => ?_
  rcases (reaches_of_irreducible hac hend hx).cases_head with he | ⟨y, hy, -⟩
  · exact hs (he ▸ hx)
  · exact hs (isSome_productionsOf_iff.mp hy.isSome)

/-- **A reduction ends at a fixed point, and no dead rule is left.** On every grammar, if a
reduction answers `n`, there are `n` rules fewer. Every rule that is left is reached from the start
symbol, through rules that are left, and each but the start symbol's is referred to at least twice
in their bodies. If the start symbol has no rule, then no rule is left at all. Nothing is reducible
any more, and a second reduction answers `0` and leaves the grammar as it is. -/
theorem reduce_fixed_point (g : Grammar T N) (n : Nat) (h : g.reduce.answer = .ok n) :
    let g' : Grammar T N := g.reduce.grammar
    n + g'.size = g.size ∧ g'.start = g.start ∧
    (∀ x, g'.contains x = true → x ≠ g'.start → 2 ≤ g'.occurrences x) ∧
    (∀ x, g'.contains x = true → g'.productions.Reaches g'.start x) ∧
    (g.contains g.start = false → g'.rules.keys = []) ∧
    g'.isIrreducible = true ∧
    g'.reduce.answer = .ok 0 ∧ g'.reduce.grammar = g' := by
  intro g'
  obtain ⟨m, hm, hsize, hpart, hend⟩ := reduce_partway (acyclic_of_reduce h)
  obtain rfl : m = n := by
    rw [hm] at h
    exact Except.ok.inj h
  have hac : g'.productions.Acyclic := hpart.acyclic
  have hagain : g'.reduce = ⟨.ok 0, g', [.reduced g'.size g'.size 0]⟩ :=
    reduce_of_irreducible hac hend
  refine ⟨hsize, hpart.start, fun x hx hs => ?_, fun x hx => ?_, fun hs => ?_, ?_, ?_, ?_⟩
  · exact two_le_occurrences_of_irreducible hend (OrderedMap.contains_iff.mp hx) hs
  · exact reaches_of_irreducible hac hend (OrderedMap.contains_iff.mp hx)
  · -- no rule comes in on the way, so the start symbol has none at the end either
    refine keys_eq_nil_of_irreducible hac hend fun hkey => ?_
    rw [hpart.keys, hpart.start] at hkey
    have hold : g.contains g.start = true :=
      OrderedMap.contains_iff.mpr (List.mem_filter.mp hkey).1
    rw [hs] at hold
    cases hold
  · show g'.nextReducible.isNone = true
    rw [hend]
    rfl
  · rw [hagain]
  · rw [hagain]

/-- Beside a rule that is used once there are three that the start symbol does not reach. Two of
them are referred to twice each, but only among the three. -/
def deadPairs : Grammar Char Nat :=
  let g := ofStart 0
  let g := (g.addRule 7 (.ofList [.terminal 'x'])).2
  let g := (g.addRule 0 (.ofList [.nonterminal 1, .nonterminal 2, .nonterminal 1])).2
  let g := (g.addRule 1 (.ofList [.terminal 'a', .terminal 'b'])).2
  let g := (g.addRule 6 (.ofList [.nonterminal 7, .nonterminal 7])).2
  let g := (g.addRule 2 (.ofList [.terminal 'c'])).2
  (g.addRule 5 (.ofList [.nonterminal 6, .nonterminal 6])).2

/-- At the outset two of the dead rules are not reducible. In the end all of them are gone. -/
theorem reduce_fixed_point_deadPairs :
    deadPairs.occurrences 6 = 2 ∧ deadPairs.occurrences 7 = 2 ∧
      deadPairs.reduce.answer = .ok 4 ∧ deadPairs.reduce.grammar.size = 2 ∧
      2 ≤ deadPairs.reduce.grammar.occurrences 1 ∧
      deadPairs.reduce.grammar.reduce.grammar = deadPairs.reduce.grammar := by
  have hanswer : deadPairs.reduce.answer = .ok 4 := by cbv
  obtain ⟨hsize, -, htwo, -, -, -, -, hagain⟩ := reduce_fixed_point deadPairs 4 hanswer
  have hcount : deadPairs.size = 6 := by decide +kernel
  have hkept : deadPairs.reduce.grammar.contains 1 = true := by decide +kernel
  have hstart : 1 ≠ deadPairs.reduce.grammar.start := by decide +kernel
  exact ⟨by decide +kernel, by decide +kernel, hanswer, by omega, htwo 1 hkept hstart, hagain⟩

end Grammar

end StraightLine
