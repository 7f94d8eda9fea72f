import StraightLine.Proofs.Inlining
import StraightLine.Proofs.Lengths

/-!
# An expansion is local

What a name stands for depends on the rules that it reaches. Two grammars with those rules in common
may differ in everything else: the start symbol, the other rules, the order of the rules, what was
expanded before, and the positions inside the bodies.

* `Productions.AgreeFrom` — two grammars have the same bodies, as lists, for all that a name
  reaches. This does not depend on in which of the two it is reached (`AgreeFrom.symm`).
* `Grammar.evaluate_congr` — then the evaluation without a memo is the same in both, error and all.
* `Operation.Spares` — a call that sets, edits or deletes a rule that a name does not reach, changes
  the start symbol or expands something. `Grammar.agreeFrom_after` — one such call leaves the rules
  that the name reaches alone, so any number of them does.
* `Grammar.expansion_local` — **expansions and lengths are local**, on grammars with whatever
  histories.
-/

namespace StraightLine

variable {T N : Type}

namespace Productions

/-- The names that `id` reaches have the same bodies in `P` and in `Q`, or no rule in both. -/
def AgreeFrom (P Q : Productions T N) (id : N) : Prop := ∀ x, P.Reaches id x → P x = Q x

variable {P Q R : Productions T N} {id : N}

theorem AgreeFrom.refl (P : Productions T N) (id : N) : P.AgreeFrom P id := fun _ _ => rfl

theorem AgreeFrom.of_refers (h : P.AgreeFrom Q id) {x : N} (hx : P.Refers id x) :
    P.AgreeFrom Q x := fun y hxy => h y (.head hx hxy)

/-- Where two grammars agree, the same names are reached in both. -/
theorem AgreeFrom.reaches (h : P.AgreeFrom Q id) {x : N} (hx : Q.Reaches id x) :
    P.Reaches id x := by
  induction hx with
  | refl => exact .refl id
  | @tail y z _ hyz ih =>
    obtain ⟨ss, hss, hz⟩ := hyz
    exact ih.tail ⟨ss, (h y ih).trans hss, hz⟩

theorem AgreeFrom.symm (h : P.AgreeFrom Q id) : Q.AgreeFrom P id :=
  fun x hx => (h x (h.reaches hx)).symm

theorem AgreeFrom.trans (h : P.AgreeFrom Q id) (h' : ∀ x, P.Reaches id x → Q x = R x) :
    P.AgreeFrom R id := fun x hx => (h x hx).trans (h' x hx)

end Productions

open Productions

/-! ## The evaluation -/

/-- The words of the references that there are decide. -/
theorem joinWords_congr {word word' : N → Except (GrammarError N) (List T)}
    {ss : List (Symbol T N)} (h : ∀ y, .nonterminal y ∈ ss → word y = word' y) :
    joinWords word ss = joinWords word' ss := by
  induction ss with
  | nil => rfl
  | cons s ss ih =>
    have ih' := ih fun y hy => h y (List.mem_cons_of_mem _ hy)
    cases s with
    | terminal t => rw [joinWords, joinWords, ih']
    | nonterminal y => rw [joinWords, joinWords, ih', h y List.mem_cons_self]

variable [DecidableEq N]

/-- **The evaluation reads nothing but the rules that are reached**, on every path. -/
theorem Grammar.evaluate_congr {rules rules' : OrderedMap N (Body T N)} {path : List N} {id : N}
    (h : (productionsOf rules).AgreeFrom (productionsOf rules') id) :
    evaluate rules path id = evaluate rules' path id := by
  induction path using path_induction rules generalizing id with
  | step path ih =>
    have hsame := h id (.refl id)
    cases hP : productionsOf rules id with
    | none => rw [evaluate_undefined hP, evaluate_undefined (hsame.symm.trans hP)]
    | some ss =>
      have hP' := hsame.symm.trans hP
      by_cases hp : id ∈ path
      · rw [evaluate_onPath hP hp, evaluate_onPath hP' hp]
      · rw [evaluate_enter hP hp, evaluate_enter hP' hp]
        refine joinWords_congr fun y hy => ?_
        exact ih id (mem_keys_of_productionsOf hP) hp (h.of_refers ⟨ss, hP, hy⟩)

/-! ## Calls elsewhere -/

/-- The call leaves the rules that `id` reaches alone: it sets, edits or deletes another one, makes
another name the start symbol, or expands a name. -/
def Operation.Spares (P : Productions T N) (id : N) : Operation T N → Prop
  | .addRule x _ | .editRule x _ | .deleteRule x => ¬ P.Reaches id x
  | .setStart _ | .expand _ | .expandStart => True
  | .substitute _ _ | .inlineRule _ | .merge _ _ | .reduce => False

namespace Grammar

/-- A rule is what it was, if another one was edited. -/
theorem productions_editRule_of_ne {α : Type} (g : Grammar T N) {x y : N} (hy : y ≠ x)
    (f : Body T N → α × Body T N) : (g.editRule x f).2.productions y = g.productions y := by
  unfold editRule
  split
  · rfl
  · show ((g.rules.insert x _).get? y).map Sequence.toList = _
    rw [OrderedMap.get?_insert, if_neg hy]
    rfl

/-- A rule is what it was, if another one was deleted or its deletion was refused. -/
theorem productions_deleteRule_of_ne (g : Grammar T N) {x y : N} (hy : y ≠ x) :
    (g.deleteRule x).grammar.productions y = g.productions y := by
  unfold deleteRule
  split
  · rfl
  · split
    · rfl
    · split
      · rfl
      · show (g.dropRule x).productions y = _
        rw [productions_dropRule, if_neg hy]

/-- **A call elsewhere changes no rule that is reached.** -/
theorem agreeFrom_after {P : Productions T N} {id : N} {g : Grammar T N}
    (hg : P.AgreeFrom g.productions id) {call : Operation T N} (hcall : call.Spares P id) :
    P.AgreeFrom (g.after call).productions id := by
  refine hg.trans fun y hy => ?_
  have hne : ∀ x, ¬ P.Reaches id x → y ≠ x := by
    rintro x hx rfl
    exact hx hy
  cases call with
  | addRule x b =>
    show _ = ((g.rules.insert x b).get? y).map Sequence.toList
    rw [OrderedMap.get?_insert, if_neg (hne x hcall)]
    rfl
  | editRule x edit => exact (productions_editRule_of_ne g (hne x hcall) _).symm
  | deleteRule x => exact (productions_deleteRule_of_ne g (hne x hcall)).symm
  | setStart start => rfl
  | expand x => rfl
  | expandStart => rfl
  | substitute x xs => exact hcall.elim
  | inlineRule x => exact hcall.elim
  | merge source dest => exact hcall.elim
  | reduce => exact hcall.elim

theorem agreeFrom_foldl_after {P : Productions T N} {id : N} {calls : List (Operation T N)}
    {g : Grammar T N} (hg : P.AgreeFrom g.productions id)
    (hcalls : ∀ call ∈ calls, call.Spares P id) :
    P.AgreeFrom (calls.foldl after g).productions id := by
  induction calls generalizing g with
  | nil => exact hg
  | cons call calls ih =>
    rw [List.forall_mem_cons] at hcalls
    exact ih (agreeFrom_after hg hcalls.1) hcalls.2

/-! ## Locality -/

/-- Two grammars give the same answers for `id`, be they words, lengths or errors. -/
structure AnswersAlike (g g' : Grammar T N) (id : N) : Prop where
  word : (g.expand id).answer = (g'.expand id).answer
  length : g.expandedLength id = g'.expandedLength id
  /-- The sums are taken in 64 bits. -/
  checkedLength : g.checkedLength id = g'.checkedLength id

/-- Grammars with right memos answer alike where they agree. -/
theorem answersAlike {g g' : Grammar T N} (hg : g.Settled) (hg' : g'.Settled) {id : N}
    (h : g.productions.AgreeFrom g'.productions id) : g.AnswersAlike g' id := by
  have heval : evaluate g.rules [] id = evaluate g'.rules [] id := evaluate_congr h
  constructor
  · rw [expand_answer hg, expand_answer hg', heval]
  · rw [expandedLength_eq, expandedLength_eq, heval]
  · rw [checkedLength, checkedLength, visit_answer checkedLengthOf_measures,
      visit_answer checkedLengthOf_measures, heval]

/-- **Expansions and lengths are local.** Take two grammars with histories in which every name that
`id` reaches has the same body as a list, or no rule. Whatever their start symbols, their other
rules, the orders of their rules, their memos and the positions in their bodies are, `id` has the
same answers in both: the same word and length, or the same error. In particular no calls that set,
edit or delete rules that `id` does not reach, or that change the start symbol or expand anything,
change these answers. -/
theorem expansion_local (start : N) (calls : List (Operation T N)) (id : N) :
    let g : Grammar T N := run start calls
    (∀ start' calls', (∀ x, g.productions.Reaches id x →
        g.productions x = (run start' calls').productions x) →
      g.AnswersAlike (run start' calls') id) ∧
    ∀ more : List (Operation T N), (∀ call ∈ more, call.Spares g.productions id) →
      g.AnswersAlike (more.foldl after g) id := by
  intro g
  have hg : g.Settled := settled_run start calls
  refine ⟨fun start' calls' h => answersAlike hg (settled_run start' calls') h,
    fun more hmore => ?_⟩
  have hrun : more.foldl after g = run start (calls ++ more) := by
    rw [run, List.foldl_append]
    rfl
  refine answersAlike hg ?_ (agreeFrom_foldl_after (.refl _ id) hmore)
  rw [hrun]
  exact settled_run start (calls ++ more)

/-- The rule for `0` was expanded in vain, which left the word of `1` in the memo. -/
def failedBefore : List (Operation Char Nat) :=
  [.addRule 0 (.ofList [.nonterminal 1, .nonterminal 9]),
    .addRule 1 (.ofList [.terminal 'a']),
    .expand 0]

/-- The same two rules in another order, one of them with its symbol in a slot that was used before,
beside a rule that loops. -/
def editedBesideLoop : List (Operation Char Nat) :=
  [.addRule 7 (.ofList [.nonterminal 7, .nonterminal 0]),
    .addRule 1 (.ofList [.terminal 'x']),
    .editRule 1 (fun b => (b.remove ⟨0, 1⟩).2.pushBack (.terminal 'a')),
    .addRule 0 (.ofList [.nonterminal 1, .nonterminal 9]),
    .expandStart]

/-- The two grammars have different memos and different positions, and the same fault. -/
theorem expansion_local_editedBesideLoop :
    let g := run 0 failedBefore
    let g' := run 7 editedBesideLoop
    g.memo.keys = [1] ∧ g'.memo.keys = [] ∧
      (g.rule? 1).map Sequence.positions = some [⟨0, 1⟩] ∧
      (g'.rule? 1).map Sequence.positions = some [⟨0, 2⟩] ∧
      (g'.expand 0).answer = .error (.undefinedNonterminal 9) ∧ g.AnswersAlike g' 0 := by
  intro g g'
  have h0 : g.productions 0 = some [.nonterminal 1, .nonterminal 9] := by decide +kernel
  have h1 : g.productions 1 = some [.terminal 'a'] := by decide +kernel
  have h9 : g.productions 9 = none := by decide +kernel
  have hreach : ∀ x, g.productions.Reaches 0 x → x ∈ [0, 1, 9] := by
    intro x hx
    induction hx with
    | refl => decide
    | @tail y z _ hyz ih =>
      obtain ⟨ss, hss, hz⟩ := hyz
      simp only [List.mem_cons, List.not_mem_nil, or_false] at ih
      rcases ih with rfl | rfl | rfl
      · rw [h0] at hss
        cases hss
        simpa using Or.inr hz
      · rw [h1] at hss
        cases hss
        simp at hz
      · rw [h9] at hss
        cases hss
  have hagree : ∀ x, g.productions.Reaches 0 x → g.productions x = g'.productions x := by
    have hsame : ∀ x ∈ [0, 1, 9], g.productions x = g'.productions x := by decide +kernel
    exact fun x hx => hsame x (hreach x hx)
  have halike := (expansion_local 0 failedBefore 0).1 7 editedBesideLoop hagree
  refine ⟨by decide +kernel, by decide +kernel, by decide +kernel, by decide +kernel, ?_, halike⟩
  rw [← halike.word]
  cbv

end Grammar

end StraightLine
