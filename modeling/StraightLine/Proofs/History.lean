import StraightLine.Proofs.Memo

/-!
# Grammars with a history

A grammar is built and changed by calls of operations, in any order, and a call may be refused or
fail in the middle. An `Operation` is one such call with its arguments, and `Grammar.run` is the
grammar after a list of them.

* `Grammar.settled_run` — the memo is coherent after every run: one step keeps it so
  (`Grammar.settled_after`), and a grammar begins with an empty one.
* `Grammar.expand_run` — **an expansion returns the derived word**, and if there is none it names
  the cause: a name without a rule, or a loop, within reach. No symbol is lost in it and nothing
  but the memo changes.
* `Grammar.memo_run` — **the memo is invisible**: it holds derived words only, it is closed under
  references, and an expansion gives word or error exactly as the evaluation without a memo does.
-/

namespace StraightLine

variable {T N : Type}

/-- A call of an operation that can change a grammar. -/
inductive Operation (T N : Type) where
  | addRule (id : N) (b : Body T N)
  /-- The body of a rule is handed out and comes back as `edit` leaves it. -/
  | editRule (id : N) (edit : Body T N → Body T N)
  | deleteRule (id : N)
  | setStart (start : N)
  | substitute (id : N) (xs : List (Symbol T N))
  | inlineRule (id : N)
  | merge (source dest : N)
  | reduce
  | expand (id : N)
  | expandStart

namespace Grammar

variable [DecidableEq N]

/-- The grammar after a call, whether it succeeded or not. -/
def after (g : Grammar T N) : Operation T N → Grammar T N
  | .addRule id b => (g.addRule id b).2
  | .editRule id edit => (g.editRule id fun b => ((), edit b)).2
  | .deleteRule id => (g.deleteRule id).grammar
  | .setStart start => g.setStart start
  | .substitute id xs => (g.substitute id xs).2
  | .inlineRule id => (g.inlineRule id).grammar
  | .merge source dest => (g.merge source dest).grammar
  | .reduce => g.reduce.grammar
  | .expand id => (g.expand id).grammar
  | .expandStart => g.expandStart.grammar

/-- The grammar that a list of calls makes of the one without rules. -/
def run (start : N) (calls : List (Operation T N)) : Grammar T N :=
  calls.foldl after (ofStart start)

/-! ## The memo along a run -/

theorem settled_ofStart (start : N) : (ofStart start : Grammar T N).Settled := Coherent.empty

/-- One call keeps the memo coherent. -/
theorem settled_after {g : Grammar T N} (hg : g.Settled) (call : Operation T N) :
    (g.after call).Settled := by
  cases call with
  | addRule id b => exact (keeps_addRule g id b).settled hg
  | editRule id edit => exact (keeps_editRule g id _).settled hg
  | deleteRule id => exact (keeps_deleteRule g id).settled hg
  | setStart start => exact (keeps_setStart g start).settled hg
  | substitute id xs => exact (keeps_substitute g id xs).settled hg
  | inlineRule id => exact (keeps_inlineRule g id).settled hg
  | merge source dest => exact (keeps_merge g source dest).settled hg
  | reduce => exact (keeps_reduce g).settled hg
  | expand id => exact settled_expand hg id
  | expandStart => exact settled_expand hg g.start

/-- **Every grammar with a history has a coherent memo.** -/
theorem settled_run (start : N) (calls : List (Operation T N)) : (run start calls).Settled := by
  have key : ∀ (calls : List (Operation T N)) (g : Grammar T N), g.Settled →
      (calls.foldl after g).Settled := by
    intro calls
    induction calls with
    | nil => intro g hg; exact hg
    | cons call calls ih => intro g hg; exact ih _ (settled_after hg call)
  exact key calls _ (settled_ofStart start)

/-! ## What an expansion returns -/

/-- **An expansion returns the derived word, or a cause for there being none.** On every grammar
with a history, the answer is a word exactly if the name derives that word. If it derives none, the
answer names a reachable name without a rule or a reachable one that loops. When the letters of a
body are collected, nothing else is in it, and the call changes neither the start symbol nor the
rules. -/
theorem expand_run (start : N) (calls : List (Operation T N)) (id : N) :
    let g : Grammar T N := run start calls
    (∀ w, (g.expand id).answer = .ok w ↔ g.productions.Derives id w) ∧
    ((¬ ∃ w, g.productions.Derives id w) →
      (∃ m, (g.expand id).answer = .error (.undefinedNonterminal m) ∧
        g.contains m = false ∧ g.productions.Reaches id m) ∨
      (∃ c, (g.expand id).answer = .error (.cycle c) ∧
        g.productions.Reaches id c ∧ g.productions.Loops c)) ∧
    (∀ path trail trail' b b',
      wordOf.walk (visit g.rules wordOf path) (wordOf.enter b) trail b.entries = (.ok b', trail') →
      b'.toList = (wordOf.leave b').map .terminal) ∧
    (g.expand id).grammar.start = g.start ∧ (g.expand id).grammar.rules = g.rules := by
  intro g
  have hanswer : (g.expand id).answer = evaluate g.rules [] id :=
    expand_answer (settled_run start calls) id
  refine ⟨fun w => ?_, fun hno => ?_, fun path trail trail' b b' h => ?_, rfl, rfl⟩
  · rw [hanswer]
    exact evaluate_eq_ok_iff (.nil id)
  · rw [hanswer]
    cases he : evaluate g.rules [] id with
    | ok w => exact absurd ⟨w, evaluate_sound he⟩ hno
    | error e =>
      rcases evaluate_error (.nil id) he with ⟨m, rfl, hm, hreach⟩ | ⟨c, rfl, hreach, hloop⟩
      · refine .inl ⟨m, rfl, ?_, hreach⟩
        rw [contains, OrderedMap.contains, productionsOf_eq_none_iff.mp hm]
        rfl
      · exact .inr ⟨c, rfl, hreach, hloop⟩
  · exact toList_of_walk_wordOf (by rw [h])

/-- **The memo is invisible.** On every grammar with a history, each memorised word is derived by a
rule that is there, the memorised names are closed under references, and an expansion has the very
answer, word or error, of the evaluation that remembers nothing. -/
theorem memo_run (start : N) (calls : List (Operation T N)) :
    let g : Grammar T N := run start calls
    (∀ x w, g.memo.get? x = some w → g.contains x = true ∧ g.productions.Derives x w) ∧
    (∀ x y, g.memo.contains x = true → g.productions.Refers x y → g.memo.contains y = true) ∧
    (∀ id, (g.expand id).answer = evaluate g.rules [] id) := by
  intro g
  have hg : g.Settled := settled_run start calls
  refine ⟨fun x w hx => ?_, fun x y hx hxy => ?_, expand_answer hg⟩
  · obtain ⟨w', hw, rfl⟩ := hg.sound x w hx
    exact ⟨OrderedMap.contains_iff.mpr (isSome_productionsOf_iff.mp hw.isSome), hw⟩
  · rw [OrderedMap.contains_iff] at hx ⊢
    exact hg.closed x y hx hxy

end Grammar

end StraightLine
