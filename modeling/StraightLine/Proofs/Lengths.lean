import StraightLine.Proofs.History

/-!
# The length of a word, without the word

An expansion and the computation of a length are two walks with different tables: the one starts
with the memo that earlier calls have left, the other with nothing. They agree all the same, on
every grammar with a history.

* `checkedAdd` — addition of numbers of 64 bits, which fails if the sum is none, and `fitted`, the
  number of 64 bits for a natural one; `bind_checkedAdd_fitted` ties the two together.
* `Grammar.checkedLength` — the length of a word with every sum taken in 64 bits.
  `checkedLengthOf_measures` says that no sum on the way fails unless the length itself does not
  fit: what has failed once stays so.
* `Grammar.length_agreement` — **length and expansion agree**, on words and on errors, and the
  numbers of 64 bits change nothing where the length fits.
-/

namespace StraightLine

variable {T N : Type}

/-! ## Numbers of 64 bits -/

/-- The sum, if it is a number of 64 bits. -/
def checkedAdd (m n : UInt64) : Option UInt64 :=
  if m.toNat + n.toNat < UInt64.size then some (m + n) else none

/-- The same number in 64 bits, if it is one. -/
def fitted (n : Nat) : Option UInt64 := if n < UInt64.size then some (.ofNat n) else none

theorem fitted_eq_some_iff {n : Nat} {m : UInt64} : fitted n = some m ↔ n = m.toNat := by
  unfold fitted
  split
  · next h => rw [Option.some.injEq, ← UInt64.toNat_inj, UInt64.toNat_ofNat_of_lt' h]
  · next h =>
    refine ⟨nofun, fun hm => ?_⟩
    exact absurd (hm ▸ m.toNat_lt_size) h

theorem fitted_eq_none_iff {n : Nat} : fitted n = none ↔ UInt64.size ≤ n := by
  unfold fitted
  split <;> simp_all

/-- A sum fits exactly if nothing failed before and the last addition does not fail. -/
theorem bind_checkedAdd_fitted (m n : Nat) :
    ((fitted m).bind fun a => (fitted n).bind (checkedAdd a)) = fitted (m + n) := by
  cases hm : fitted m with
  | none =>
    rw [fitted_eq_none_iff] at hm
    exact (fitted_eq_none_iff.mpr (Nat.le_add_right_of_le hm)).symm
  | some a =>
    cases hn : fitted n with
    | none =>
      rw [fitted_eq_none_iff] at hn
      exact (fitted_eq_none_iff.mpr (Nat.le_add_left_of_le hn)).symm
    | some b =>
      rw [fitted_eq_some_iff] at hm hn
      subst hm hn
      show checkedAdd a b = fitted (a.toNat + b.toNat)
      unfold checkedAdd fitted
      rw [UInt64.ofNat_add, UInt64.ofNat_toNat, UInt64.ofNat_toNat]

/-! ## Lengths in 64 bits -/

/-- The length of the word of a rule, added up in numbers of 64 bits. It is lost when a sum does not
fit. -/
def checkedLengthOf : Valuation T N (Option UInt64) (Option UInt64) where
  enter _ := some 0
  letter n _ _ := n.bind fun n => checkedAdd n 1
  reference n _ length := n.bind fun n => length.bind (checkedAdd n)
  leave n := n
  missing id := .error (.undefinedNonterminal id)

theorem checkedLengthOf_measures :
    (checkedLengthOf (T := T) (N := N)).Measures (fun w => fitted w.length)
      fun n w _ => n = fitted w.length where
  enter _ := rfl
  letter := by
    rintro _ w p t rest rfl
    rw [List.length_append]
    exact bind_checkedAdd_fitted w.length 1
  reference := by
    rintro _ w p id u rest rfl
    rw [List.length_append]
    exact bind_checkedAdd_fitted w.length u.length
  leave _ _ h := h
  missing _ := rfl

namespace Grammar

variable [DecidableEq N]

/-- The length of the word of `id` in 64 bits, or nothing if a sum on the way does not fit. -/
def checkedLength (g : Grammar T N) (id : N) : Except (GrammarError N) (Option UInt64) :=
  (visit g.rules checkedLengthOf [] (.ofFinished .empty) id).1

/-! ## The agreement -/

/-- **Length and expansion agree.** On every grammar with a history, whatever is in its memo, the
length of a name is `n` exactly if the name expands to a word of `n` letters, and it is an error
exactly if the expansion is the same error. With the sums in 64 bits the same holds, and a sum fails
exactly if the name expands to a word whose length does not fit. -/
theorem length_agreement (start : N) (calls : List (Operation T N)) (id : N) :
    let g : Grammar T N := run start calls
    (∀ n, g.expandedLength id = .ok n ↔
      ∃ w, (g.expand id).answer = .ok w ∧ w.length = n) ∧
    (∀ e, g.expandedLength id = .error e ↔ (g.expand id).answer = .error e) ∧
    (∀ n, g.checkedLength id = .ok (some n) ↔
      ∃ w, (g.expand id).answer = .ok w ∧ w.length = n.toNat) ∧
    (∀ e, g.checkedLength id = .error e ↔ (g.expand id).answer = .error e) ∧
    (g.checkedLength id = .ok none ↔
      ∃ w, (g.expand id).answer = .ok w ∧ UInt64.size ≤ w.length) := by
  intro g
  have hexpand : (g.expand id).answer = evaluate g.rules [] id :=
    expand_answer (settled_run start calls) id
  have hlength : g.expandedLength id = (evaluate g.rules [] id).map List.length :=
    expandedLength_eq g id
  have hchecked : g.checkedLength id =
      (evaluate g.rules [] id).map fun w => fitted w.length :=
    visit_answer checkedLengthOf_measures g id
  rw [hexpand, hlength, hchecked]
  cases evaluate g.rules [] id with
  | error e => simp [Except.map]
  | ok w => simp [Except.map, fitted_eq_some_iff, fitted_eq_none_iff]

end Grammar

end StraightLine
