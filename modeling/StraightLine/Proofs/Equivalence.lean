import StraightLine.Proofs.History
import StraightLine.Proofs.LazyWalk
import StraightLine.Proofs.Reduction

/-!
# A reduction changes no meaning

The rules that a reduction leaves stand for the same words as before. Where a name has no word
because something below it has no rule, the fault is the same one, at the same place.

* `Grammar.Partway.unfolds` — on the way of a reduction a name that is still there, or that never
  had a rule, unfolds to the same symbols in the old rules and in the new ones.
* `Grammar.reduce_preserves` — so an expansion, the length of a word and the whole run of a lazy
  walk are what they were, since each of them is read off these symbols.
-/

namespace StraightLine

variable {T N : Type} [DecidableEq N]

namespace Grammar

variable {g₀ g : Grammar T N}

/-- The bodies of the rules that are gone are bodies of the old rules. -/
theorem extends_dissolved (g₀ g : Grammar T N) : g₀.productions.Extends (g₀.dissolved g) := by
  intro id b hb
  rw [dissolved] at hb
  split at hb
  · cases hb
  · exact hb

/-- What the new rules unfold to, the old ones do, if no rule that is gone is referred to. -/
theorem Partway.unfolds_old (h : g₀.Partway g) {vs us : List (Symbol T N)}
    (hu : g.productions.Unfolds vs us)
    (hvs : ∀ y, .nonterminal y ∈ vs → g₀.dissolved g y = none) : g₀.productions.Unfolds vs us := by
  induction hu with
  | nil => exact .nil
  | terminal _ ih => exact .terminal (ih fun y hy => hvs y (List.mem_cons_of_mem _ hy))
  | @keep y vs us hn _ ih =>
    have hrest := ih fun y hy => hvs y (List.mem_cons_of_mem _ hy)
    have hgone : y ∉ g.rules.keys :=
      OrderedMap.get?_eq_none_iff.mp (productionsOf_eq_none_iff.mp hn)
    have hold : g₀.dissolved g y = none := hvs y List.mem_cons_self
    rw [dissolved, if_neg hgone] at hold
    exact .keep hold hrest
  | @replace y b v vs us hb _ _ ihb ih =>
    have hrest := ih fun y hy => hvs y (List.mem_cons_of_mem _ hy)
    -- the new body is an unfolding of the old one, so both unfold to the same symbols
    obtain ⟨ss, hss, hstage⟩ := h.bodies y b hb
    have hv : g₀.productions.Unfolds b v := ihb fun z hz => hstage.stuck hz
    have hold := (Productions.Unfolds.iff_of_extends (extends_dissolved g₀ g) hstage v).mpr hv
    exact .replace hss hold hrest

/-- **A name that is not gone unfolds to the same symbols as before.** -/
theorem Partway.unfolds (h : g₀.Partway g) {x : N} (hx : g₀.dissolved g x = none) :
    ∃ us, g₀.productions.Unfolds [.nonterminal x] us ∧
      g.productions.Unfolds [.nonterminal x] us := by
  obtain ⟨us, hus⟩ := exists_unfolds h.acyclic [.nonterminal x]
  refine ⟨us, h.unfolds_old hus fun y hy => ?_, hus⟩
  obtain rfl : y = x := by simpa using hy
  exact hx

/-- Neither the start symbol nor a rule that is left is gone. -/
theorem Partway.dissolved_eq_none (h : g₀.Partway g) {x : N}
    (hx : x = g₀.start ∨ x ∈ g.rules.keys) : g₀.dissolved g x = none := by
  rw [dissolved]
  split
  · rfl
  · next hgone =>
    rcases hx with hs | hkey
    · -- the start symbol survives, so it had no rule
      rw [productionsOf_eq_none_iff, OrderedMap.get?_eq_none_iff]
      intro hold
      exact h.gone x hold hgone (.inl hs)
    · exact absurd hkey hgone

/-- **A reduction changes no meaning.** On every grammar with a history that a reduction accepts,
also on one with names that have no rule, with empty bodies or without a rule for the start symbol:
the start symbol and every rule that is left expand as they did, to the same word or with the same
fault, and to the same length; and the calls on a fresh walk find what they found, gaps included.
Each of these calls ends. -/
theorem reduce_preserves (start : N) (calls : List (Operation T N)) (n : Nat)
    (h : (run start calls).reduce.answer = .ok n) :
    let g : Grammar T N := run start calls
    let g' := g.reduce.grammar
    (∀ x, x = g.start ∨ g'.contains x = true →
      (g'.expand x).answer = (g.expand x).answer ∧ g'.expandedLength x = g.expandedLength x) ∧
    ∀ k, g'.walk.calls k = g.walk.calls k ∧
      g.walk.Gives (g.walk.calls k) ∧ g'.walk.Gives (g'.walk.calls k) := by
  intro g g'
  have hac : g.productions.Acyclic := acyclic_of_reduce h
  obtain ⟨-, -, -, hpart, -⟩ := reduce_partway hac
  have hsettled : g.Settled := settled_run start calls
  have hsettled' : g'.Settled := (keeps_reduce g).settled hsettled
  have hunfolds : ∀ x, x = g.start ∨ g'.contains x = true → ∃ us,
      g.productions.Unfolds [.nonterminal x] us ∧ g'.productions.Unfolds [.nonterminal x] us := by
    intro x hx
    apply hpart.unfolds
    apply hpart.dissolved_eq_none
    rwa [contains, OrderedMap.contains_iff] at hx
  constructor
  · intro x hx
    obtain ⟨us, hold, hnew⟩ := hunfolds x hx
    rw [expand_of_unfolds hsettled hold, expand_of_unfolds hsettled' hnew,
      expandedLength_of_unfolds hold, expandedLength_of_unfolds hnew]
    exact ⟨rfl, rfl⟩
  · intro k
    obtain ⟨us, hold, hnew⟩ := hunfolds g.start (.inl rfl)
    have hstart : g'.start = g.start := hpart.start
    rw [← hstart] at hnew
    obtain ⟨hcalls, hgives⟩ := calls_walk hold k
    obtain ⟨hcalls', hgives'⟩ := calls_walk hnew k
    exact ⟨hcalls'.trans hcalls.symm, hgives, hgives'⟩

/-- A grammar whose word has three gaps, where the name `9` has no rule. -/
def threeGaps : List (Operation Char Nat) :=
  [.addRule 0 (.ofList [.nonterminal 1, .terminal 'b', .nonterminal 2, .nonterminal 1]),
    .addRule 1 (.ofList [.terminal 'a', .nonterminal 9]),
    .addRule 2 (.ofList [.nonterminal 9, .terminal 'c'])]

/-- The second of its rules is inlined, and the gaps stay where they were. -/
theorem reduce_preserves_threeGaps :
    (run 0 threeGaps).reduce.answer = .ok 1 ∧
      (run 0 threeGaps).reduce.grammar.walk.calls 9 =
        [some 'a', none, some 'b', none, some 'c', some 'a', none, none, none] := by
  have hreduce : (run 0 threeGaps).reduce.answer = .ok 1 := by cbv
  refine ⟨hreduce, ?_⟩
  rw [((reduce_preserves 0 threeGaps 1 hreduce).2 9).1]
  decide +kernel

end Grammar

end StraightLine
