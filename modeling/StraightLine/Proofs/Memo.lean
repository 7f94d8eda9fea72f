import StraightLine.Grammar.Merge
import StraightLine.Grammar.Reduction
import StraightLine.Proofs.Visit

/-!
# The memo of a grammar

The memo holds words of rules that were expanded before. It is right as long as the rules are the
ones it was filled for, so whatever changes a rule empties it.

* `Grammar.Settled` — the memo is coherent with the rules.
* `Grammar.expand_answer`, `Grammar.settled_expand` — with such a memo an expansion answers as the
  evaluation without a memo does, also when it fails, and leaves such a memo behind.
* `Grammar.expandedLength_eq` — the length is that of the evaluated word, with the same errors.
* `Grammar.expand_of_unfolds`, `Grammar.expandedLength_of_unfolds` — both depend on nothing but
  the unfolding of the name, if it has one.
* `Grammar.Keeps` — an operation either empties the memo or changes neither memo nor rules. Each
  operation on the rules is of this kind (`keeps_substitute`, `keeps_merge`, …), refused or not,
  so it leaves a coherent memo coherent (`Keeps.settled`).
-/

namespace StraightLine

variable {T N : Type}

namespace Grammar

/-- From `g` to `g'` the memo was emptied, or nothing happened to rules and memo. -/
def Keeps (g g' : Grammar T N) : Prop :=
  g'.memo = .empty ∨ (g'.rules = g.rules ∧ g'.memo = g.memo)

theorem Keeps.refl (g : Grammar T N) : g.Keeps g := .inr ⟨rfl, rfl⟩

theorem Keeps.trans {g g' g'' : Grammar T N} (h : g.Keeps g') (h' : g'.Keeps g'') :
    g.Keeps g'' := by
  rcases h' with h' | ⟨hr, hm⟩
  · exact .inl h'
  · unfold Keeps
    rwa [hr, hm]

variable [DecidableEq N]

/-- Every memorised word is the one that its rule derives now, and whatever the rule refers to is
memorised too. -/
def Settled (g : Grammar T N) : Prop := Coherent g.productions (fun w => w) g.memo

/-! ## Expansion -/

theorem expand_visited {g : Grammar T N} (hg : g.Settled) (id : N) :
    Visited g.productions (fun w => w) (evaluate g.rules [] id) id g.memo
      ((g.expand id).answer, (visit g.rules wordOf [] (.ofFinished g.memo) id).2) := by
  have hmemo : Coherent g.productions (fun w => w) (Trail.ofFinished g.memo).finished := hg
  exact visit_visited wordOf_measures (.nil id) hmemo

/-- **Expanding is evaluating**, whatever was expanded before. -/
theorem expand_answer {g : Grammar T N} (hg : g.Settled) (id : N) :
    (g.expand id).answer = evaluate g.rules [] id := by
  have h : (g.expand id).answer = (evaluate g.rules [] id).map fun w => w :=
    (expand_visited hg id).answer
  rw [h]
  cases evaluate g.rules [] id <;> rfl

/-- **An expansion finds the derived words**, and no others. -/
theorem expand_eq_ok_iff {g : Grammar T N} (hg : g.Settled) {id : N} {w : List T} :
    (g.expand id).answer = .ok w ↔ g.productions.Derives id w := by
  rw [expand_answer hg]
  exact evaluate_eq_ok_iff (.nil id)

/-- An expansion leaves a coherent memo behind, also when it fails. -/
theorem settled_expand {g : Grammar T N} (hg : g.Settled) (id : N) :
    (g.expand id).grammar.Settled :=
  (expand_visited hg id).extended.coherent

/-- Whatever measures words measures the evaluated one, if it starts without finished rules. -/
theorem visit_answer {σ β : Type} {v : Valuation T N σ β} {measure : List T → β}
    {Holds : σ → List T → List (Position × Symbol T N) → Prop} (hv : v.Measures measure Holds)
    (g : Grammar T N) (id : N) :
    (visit g.rules v [] (.ofFinished .empty) id).1 = (evaluate g.rules [] id).map measure := by
  have hmemo : Coherent g.productions measure (Trail.ofFinished .empty).finished := .empty
  exact (visit_visited hv (.nil id) hmemo).answer

/-- The length of a word is computed without the memo, and with the same errors. -/
theorem expandedLength_eq (g : Grammar T N) (id : N) :
    g.expandedLength id = (evaluate g.rules [] id).map List.length :=
  visit_answer lengthOf_measures g id

theorem expandedLength_eq_ok_iff {g : Grammar T N} {id : N} {n : Nat} :
    g.expandedLength id = .ok n ↔ ∃ w, g.productions.Derives id w ∧ w.length = n := by
  have hderives : ∀ w, evaluate g.rules [] id = .ok w ↔ g.productions.Derives id w :=
    fun w => evaluate_eq_ok_iff (.nil id)
  rw [expandedLength_eq]
  simp only [← hderives]
  cases evaluate g.rules [] id with
  | error e => simp [Except.map]
  | ok w => simp [Except.map]

/-- Where a name can be unfolded, the result of an expansion is read off the symbols. -/
theorem expand_of_unfolds {g : Grammar T N} (hg : g.Settled) {id : N} {us : List (Symbol T N)}
    (hu : g.productions.Unfolds [.nonterminal id] us) : (g.expand id).answer = readWord us := by
  rw [expand_answer hg]
  exact evaluate_of_unfolds hu (.nil id)

theorem expandedLength_of_unfolds {g : Grammar T N} {id : N} {us : List (Symbol T N)}
    (hu : g.productions.Unfolds [.nonterminal id] us) :
    g.expandedLength id = (readWord us).map List.length := by
  rw [expandedLength_eq, evaluate_of_unfolds hu (.nil id)]

/-! ## What the other operations do to the memo -/

/-- What holds of the memo still holds afterwards. -/
theorem Keeps.settled {g g' : Grammar T N} (h : g.Keeps g') (hg : g.Settled) : g'.Settled := by
  unfold Settled productions at hg ⊢
  rcases h with h | ⟨hr, hm⟩
  · rw [h]
    exact .empty
  · rwa [hr, hm]

theorem keeps_addRule (g : Grammar T N) (id : N) (b : Body T N) : g.Keeps (g.addRule id b).2 :=
  .inl rfl

theorem keeps_editRule {α : Type} (g : Grammar T N) (id : N) (f : Body T N → α × Body T N) :
    g.Keeps (g.editRule id f).2 := by
  unfold editRule
  split
  · exact .inl rfl
  · exact .inl rfl

omit [DecidableEq N] in
theorem keeps_setStart (g : Grammar T N) (start : N) : g.Keeps (g.setStart start) := .refl g

theorem keeps_substitute (g : Grammar T N) (id : N) (xs : List (Symbol T N)) :
    g.Keeps (g.substitute id xs).2 := .inl rfl

theorem keeps_inlineRule (g : Grammar T N) (id : N) : g.Keeps (g.inlineRule id).grammar := by
  unfold inlineRule
  split
  · exact .refl g
  · split
    · exact .refl g
    · split
      · exact .refl g
      · exact .inl rfl

theorem keeps_deleteRule (g : Grammar T N) (id : N) : g.Keeps (g.deleteRule id).grammar := by
  unfold deleteRule
  split
  · exact .refl g
  · split
    · exact .refl g
    · split
      · exact .refl g
      · exact .inl rfl

theorem keeps_merge (g : Grammar T N) (source dest : N) :
    g.Keeps (g.merge source dest).grammar := by
  unfold merge
  split
  · exact .refl g
  · split
    · exact .refl g
    · exact .refl g
    · split
      · exact .refl g
      · split
        · exact .refl g
        · left
          show (if g.start = source then _ else _ : Grammar T N).memo = .empty
          split <;> rfl

/-- The loop of a reduction is made of inlinings. -/
theorem keeps_inlineAll (g : Grammar T N) : g.Keeps g.inlineAll.grammar := by
  fun_induction inlineAll g with
  | case1 g _ => exact .refl g
  | case2 g id _ step e _ => exact keeps_inlineRule g id
  | case3 g id _ step sites _ rest ih => exact (keeps_inlineRule g id).trans ih

theorem keeps_reduce (g : Grammar T N) : g.Keeps g.reduce.grammar := by
  unfold reduce
  split
  · exact .refl g
  · simp only
    split
    · exact keeps_inlineAll g
    · exact keeps_inlineAll g

end Grammar

end StraightLine
