import StraightLine.Grammar.Merge
import StraightLine.Proofs.Reduction

/-!
# A refused operation changes nothing

Each operation on the rules tests all its conditions before it changes anything. For a reduction
this needs a proof: it is a loop of inlinings, and each of them can be refused for itself.

* `Outcome.AllOrNothing` — the operation is done or nothing is: after a refusal the grammar is the
  one before, and nothing is reported.
* `Grammar.Passes` — one pass of the loop of a reduction. `Grammar.passes_inlineAll` — the loop is
  made of passes, and `Grammar.Partway.passes` — what the invariant says of every grammar on the
  way.
* `Grammar.refusals` — **all or nothing** for every operation, and when a reduction is refused: only
  for a loop, and never in the middle.
-/

namespace StraightLine

open Relation (ReflTransGen)

variable {T N α : Type}

/-- The operation is done or nothing is: if the answer is an error, the grammar is the one before,
with its memo, and nothing is reported. -/
def Outcome.AllOrNothing (o : Outcome T N α) (g : Grammar T N) : Prop :=
  ∀ e, o.answer = .error e → o.grammar = g ∧ o.records = []

theorem Outcome.allOrNothing_refuse (g : Grammar T N) (e : GrammarError N) :
    (Outcome.refuse g e : Outcome T N α).AllOrNothing g := by
  intro e' _
  exact ⟨rfl, rfl⟩

/-- An operation that is done has nothing to undo. -/
theorem Outcome.allOrNothing_of_ok {o : Outcome T N α} {g : Grammar T N} {a : α}
    (h : o.answer = .ok a) : o.AllOrNothing g := by
  intro e he
  rw [h] at he
  cases he

namespace Grammar

variable [DecidableEq N]

/-! ## One rule at a time -/

theorem allOrNothing_deleteRule (g : Grammar T N) (id : N) : (g.deleteRule id).AllOrNothing g := by
  unfold deleteRule
  split
  · exact Outcome.allOrNothing_refuse g _
  · split
    · exact Outcome.allOrNothing_refuse g _
    · split
      · exact Outcome.allOrNothing_refuse g _
      · exact Outcome.allOrNothing_of_ok rfl

theorem allOrNothing_inlineRule (g : Grammar T N) (id : N) : (g.inlineRule id).AllOrNothing g := by
  unfold inlineRule
  split
  · exact Outcome.allOrNothing_refuse g _
  · split
    · exact Outcome.allOrNothing_refuse g _
    · split
      · exact Outcome.allOrNothing_refuse g _
      · exact Outcome.allOrNothing_of_ok rfl

theorem allOrNothing_merge (g : Grammar T N) (source dest : N) :
    (g.merge source dest).AllOrNothing g := by
  unfold merge
  split
  · exact Outcome.allOrNothing_refuse g _
  · split
    · exact Outcome.allOrNothing_refuse g _
    · exact Outcome.allOrNothing_refuse g _
    · split
      · exact Outcome.allOrNothing_refuse g _
      · split
        · exact Outcome.allOrNothing_refuse g _
        · exact Outcome.allOrNothing_of_ok rfl

/-! ## The loop of a reduction -/

/-- One pass of the loop: the first reducible rule is inlined, and the grammar is what the inlining
leaves, also if that was refused. -/
def Passes (g g' : Grammar T N) : Prop :=
  ∃ id, g.nextReducible = some id ∧ g' = (g.inlineRule id).grammar

/-- The loop is made of passes. -/
theorem passes_inlineAll (g : Grammar T N) : ReflTransGen Passes g g.inlineAll.grammar := by
  fun_induction inlineAll g with
  | case1 g _ => exact .refl
  | case2 g id hid step e _ => exact .single ⟨id, hid, rfl⟩
  | case3 g id hid step sites _ rest ih => exact .head ⟨id, hid, rfl⟩ ih

variable {g₀ g : Grammar T N}

/-- **Every grammar on the way is one of the reduction's.** -/
theorem Partway.passes {g' : Grammar T N} (h : g₀.Partway g) (hp : ReflTransGen Passes g g') :
    g₀.Partway g' := by
  induction hp with
  | refl => exact h
  | tail _ hpass ih =>
    obtain ⟨id, hid, rfl⟩ := hpass
    exact (ih.inlineRule hid).2

/-- The rule that is picked on the way can be inlined. -/
theorem Partway.victim (h : g₀.Partway g) {id : N} (hid : g.nextReducible = some id) :
    g.contains id = true ∧ id ≠ g.start ∧ ¬ g.productions.Refers id id ∧
      ∃ sites, (g.inlineRule id).answer = .ok sites := by
  obtain ⟨⟨b, hb⟩, hs, -⟩ := nextReducible_eq_some hid
  exact ⟨OrderedMap.contains_iff.mpr (OrderedMap.mem_keys_of_get? hb), hs,
    h.acyclic.not_refers_self id, (h.inlineRule hid).1⟩

/-- A reduction without loops is done by passes of its loop alone. -/
theorem passes_reduce (hac : g.productions.Acyclic) : ReflTransGen Passes g g.reduce.grammar := by
  obtain ⟨n, hn, -⟩ := (Partway.refl hac).inlineAll
  rw [reduce_of_acyclic hac hn]
  exact passes_inlineAll g

/-- A reduction that is refused found a loop at the outset. -/
theorem reduce_eq_error {e : GrammarError N} (h : g.reduce.answer = .error e) :
    g.reduce = .refuse g e ∧ ∃ c, e = .cycle c ∧ g.productions.Loops c := by
  cases hcheck : g.checkAcyclic with
  | error e' =>
    have hreduce : g.reduce = .refuse g e' := by
      rw [reduce, hcheck]
    rw [hreduce] at h
    cases h
    exact ⟨hreduce, checkAcyclic_error hcheck⟩
  | ok value =>
    obtain ⟨n, hn, -⟩ := reduce_partway ((checkAcyclic_eq_ok_iff g).mp hcheck)
    rw [hn] at h
    cases h

/-- **All or nothing.** On every grammar, whatever its rules, start symbol and memo are: if a
deletion, an inlining, a merge or a reduction is refused, the grammar is the one before, and nothing
is reported. A reduction is refused exactly if a rule reaches itself, and the error names such a
rule. Otherwise it is done by passes of its loop, and no pass on the way is refused: every rule that
is picked is there, is not the start symbol's and does not refer to itself. -/
theorem refusals (g : Grammar T N) :
    (∀ id, (g.deleteRule id).AllOrNothing g) ∧
    (∀ id, (g.inlineRule id).AllOrNothing g) ∧
    (∀ source dest, (g.merge source dest).AllOrNothing g) ∧
    g.reduce.AllOrNothing g ∧
    ((∃ e, g.reduce.answer = .error e) ↔ ∃ x, g.productions.Loops x) ∧
    (∀ e, g.reduce.answer = .error e → ∃ c, e = .cycle c ∧ g.productions.Loops c) ∧
    (g.productions.Acyclic →
      (∃ n, g.reduce.answer = .ok n) ∧ ReflTransGen Passes g g.reduce.grammar ∧
      ∀ g', ReflTransGen Passes g g' → ∀ id, g'.nextReducible = some id →
        g'.contains id = true ∧ id ≠ g'.start ∧ ¬ g'.productions.Refers id id ∧
          ∃ sites, (g'.inlineRule id).answer = .ok sites) := by
  refine ⟨g.allOrNothing_deleteRule, g.allOrNothing_inlineRule, g.allOrNothing_merge, ?_, ?_,
    fun e he => (reduce_eq_error he).2, fun hac => ⟨?_, passes_reduce hac, fun g' hp id hid => ?_⟩⟩
  · intro e he
    rw [(reduce_eq_error he).1]
    exact ⟨rfl, rfl⟩
  · constructor
    · rintro ⟨e, he⟩
      obtain ⟨-, c, -, hloop⟩ := reduce_eq_error he
      exact ⟨c, hloop⟩
    · rintro ⟨x, hx⟩
      cases hanswer : g.reduce.answer with
      | error e => exact ⟨e, rfl⟩
      | ok n => exact absurd hx (acyclic_of_reduce hanswer x)
  · obtain ⟨n, hn, -⟩ := reduce_partway hac
    exact ⟨n, hn⟩
  · exact ((Partway.refl hac).passes hp).victim hid

/-- A rule that could be inlined stands before one that reaches itself. -/
def victimBeforeLoop : Grammar Char Nat :=
  let g := ofStart 0
  let g := (g.addRule 1 (.ofList [.terminal 'a'])).2
  let g := (g.addRule 0 (.ofList [.nonterminal 1, .nonterminal 2])).2
  (g.addRule 2 (.ofList [.terminal 'b', .nonterminal 2])).2

/-- The first rule is not inlined: the loop of the other one is found before. Without the loop it
is. -/
theorem refusals_victimBeforeLoop :
    let mended := (victimBeforeLoop.addRule 2 (.ofList [.terminal 'b'])).2
    victimBeforeLoop.nextReducible = some 1 ∧
      victimBeforeLoop.reduce.answer = .error (.cycle 2) ∧
      victimBeforeLoop.reduce.grammar = victimBeforeLoop ∧
      mended.nextReducible = some 1 ∧ ∃ sites, (mended.inlineRule 1).answer = .ok sites := by
  intro mended
  have hanswer : victimBeforeLoop.reduce.answer = .error (.cycle 2) := by cbv
  have hac : mended.productions.Acyclic := (checkAcyclic_eq_ok_iff mended).mp (by cbv)
  have hnext : mended.nextReducible = some 1 := by decide +kernel
  obtain ⟨-, -, -, hreduce, -⟩ := refusals victimBeforeLoop
  obtain ⟨-, -, -, -, -, -, hdone⟩ := refusals mended
  obtain ⟨-, -, -, hvictim⟩ := (hdone hac).2.2 mended .refl 1 hnext
  exact ⟨by decide +kernel, hanswer, (hreduce _ hanswer).1, hnext, hvictim⟩

end Grammar

end StraightLine
