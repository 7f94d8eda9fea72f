import StraightLine.Proofs.Validity

/-!
# Which merges are accepted

`Grammar.merge` gives its verdict before it changes anything, from a search and from a look at the
references to one of the two rules. This file compares the verdict with the merge on paper,
`Grammar.pureMerge`, which asks no questions and may well have loops.

* `Grammar.productions_pureMerge`, `Grammar.contents_merge` — an accepted merge is the one on paper.
* `Grammar.Valid.merge_cases` — on a valid grammar there are three cases: the merge on paper has a
  loop, or else its start symbol is referred to, or else it is accepted.
* `Grammar.merge_verdict` — so on a valid grammar a merge is accepted exactly if the merge on paper
  is valid, and a refusal names its fault.
* `Grammar.merge_loop_test` — on every grammar, valid or not, a merge is refused for a cycle exactly
  if the merge on paper puts `dest` in a loop, and an accepted one closes no loop.
-/

namespace StraightLine

variable {T N : Type} [DecidableEq N]

namespace Grammar

/-! ## The merge on paper -/

/-- The symbols that the body `ss` of `x` becomes when `source`, whose body is `xs`, is merged into
`dest`: in the body of `dest` every reference to `source` is replaced by `xs`, and every reference
that is left to `source` goes to `dest`. -/
def mergedBody (source dest : N) (xs : List (Symbol T N)) (x : N) (ss : List (Symbol T N)) :
    List (Symbol T N) :=
  spliced source [.nonterminal dest] (if x = dest then spliced source xs ss else ss)

/-- The merge on paper: the rule for `source` is gone, every other body is what it becomes, and
`dest` is the start symbol if `source` was. -/
def pureMerge (g : Grammar T N) (source dest : N) : Grammar T N where
  start := if g.start = source then dest else g.start
  rules :=
    { entries := (g.rules.erase source).entries.map fun r =>
        (r.1, .ofList (mergedBody source dest ((g.productions source).getD []) r.1 r.2.toList))
      nodup := by
        rw [List.map_map]
        exact (g.rules.erase source).nodup }
  memo := .empty

variable {g : Grammar T N} {source dest : N}

theorem keys_pureMerge :
    (g.pureMerge source dest).rules.keys = g.rules.keys.filter fun x => x ≠ source := by
  rw [← OrderedMap.keys_erase]
  simp only [OrderedMap.keys, pureMerge, List.map_map]
  rfl

/-- On paper every body is rewritten at once, whatever position its symbols have. -/
theorem productions_pureMerge :
    (g.pureMerge source dest).productions = g.productions.merged source dest := by
  have hentry : ∀ x ss, (g.pureMerge source dest).productions x = some ss ↔
      ∃ b, (g.rules.erase source).get? x = some b ∧
        mergedBody source dest ((g.productions source).getD []) x b.toList = ss := by
    intro x ss
    rw [productionsOf_eq_some_iff]
    simp only [OrderedMap.get?_eq_some_iff, pureMerge, List.mem_map, Prod.mk.injEq]
    constructor
    · rintro ⟨c, ⟨⟨y, b⟩, hb, rfl, rfl⟩, rfl⟩
      exact ⟨b, hb, (Sequence.toList_ofList _).symm⟩
    · rintro ⟨b, hb, rfl⟩
      exact ⟨_, ⟨(x, b), hb, rfl, rfl⟩, Sequence.toList_ofList _⟩
  funext x
  apply Option.ext
  intro ss
  rw [hentry, OrderedMap.get?_erase, Productions.merged, Productions.inlined]
  split
  · simp
  · rw [Productions.copied]
    unfold mergedBody
    cases hb : g.rules.get? x with
    | none =>
      have hnone : g.productions x = none := productionsOf_eq_none_iff.mpr hb
      simp [hnone]
    | some b =>
      have hsome : g.productions x = some b.toList := productionsOf_of_get? hb
      by_cases hx : x = dest
      · subst hx
        simp [hsome]
      · simp [hsome, hx]

/-- **An accepted merge is the merge on paper.** -/
theorem contents_merge (h : (g.merge source dest).answer = .ok ()) :
    (g.merge source dest).grammar.start = (g.pureMerge source dest).start ∧
      (g.merge source dest).grammar.contents = (g.pureMerge source dest).contents := by
  have hm := merged_merge h
  refine ⟨hm.start, ?_⟩
  rw [contents_eq, contents_eq, hm.keys, hm.productions, keys_pureMerge, productions_pureMerge]

/-! ## The verdict -/

/-- **The three cases of a merge** of two rules of a valid grammar. -/
theorem Valid.merge_cases (hv : g.Valid) (hne : source ≠ dest) (hs : g.contains source = true)
    (hd : g.contains dest = true) :
    let m := g.pureMerge source dest
    (m.productions.Loops dest ∧ (g.merge source dest).answer = .error (.cycle dest)) ∨
      (m.productions.Acyclic ∧ (∃ x, m.productions.Refers x m.start) ∧
        (g.merge source dest).answer = .error (.startReferenced dest)) ∨
      (m.Valid ∧ (g.merge source dest).answer = .ok ()) := by
  intro m
  have hstart : m.start = Productions.redirect source dest g.start := rfl
  have hrules : m.productions = g.productions.merged source dest := productions_pureMerge
  rw [contains_iff_isSome] at hs hd
  obtain ⟨a, ha⟩ := Option.isSome_iff_exists.mp (OrderedMap.contains_iff.mpr
    (isSome_productionsOf_iff.mp hs))
  obtain ⟨b, hb⟩ := Option.isSome_iff_exists.mp (OrderedMap.contains_iff.mpr
    (isSome_productionsOf_iff.mp hd))
  have hanswer := merge_answer hne ha hb
  rw [hrules, hstart]
  by_cases hloop : (g.productions.merged source dest).Loops dest
  · rw [if_pos ((mergeWouldCycle_iff hne).mpr hloop)] at hanswer
    exact .inl ⟨hloop, hanswer⟩
  · rw [if_neg fun h => hloop ((mergeWouldCycle_iff hne).mp h)] at hanswer
    by_cases hreach : g.mergeReachesStart source dest = true
    · rw [if_pos hreach] at hanswer
      have hself := hv.acyclic.not_refers_self source
      exact .inr (.inl ⟨Productions.acyclic_merged hv.acyclic hloop,
        exists_refers_of_mergeReachesStart hne hself hreach, hanswer⟩)
    · rw [if_neg hreach] at hanswer
      have hfree : ∀ x, ¬ (g.productions.merged source dest).Refers x
          (Productions.redirect source dest g.start) :=
        fun x hx => hreach (mergeReachesStart_of_refers hv.unreferenced hloop hx)
      refine .inr (.inr ⟨?_, hanswer⟩)
      rw [Grammar.Valid, hrules, hstart]
      exact Productions.Valid.merged hv hne hs hd hloop hfree

/-- An accepted merge lets no body refer to the start symbol, if none did. -/
theorem not_refers_start_merge (hfree : ∀ x, ¬ g.productions.Refers x g.start)
    (h : (g.merge source dest).answer = .ok ()) (x : N) :
    ¬ (g.merge source dest).grammar.productions.Refers x (g.merge source dest).grammar.start := by
  obtain ⟨-, -, -, hloop, hreach⟩ := merge_eq_ok h
  have hm := merged_merge h
  rw [hm.start, hm.productions]
  intro hx
  rw [mergeReachesStart_of_refers hfree hloop hx] at hreach
  cases hreach

/-- **A merge is accepted exactly if the merge on paper is valid.** For two different rules of a
valid grammar: if the merge is accepted, the rules are those of the merge on paper, and those that
are left stand in their old order; it is refused for a cycle exactly if the merge on paper has a
loop, and for the start symbol exactly if it has none and a body refers to its start symbol. On
every grammar, valid or not, where no body refers to the start symbol, none does after an accepted
merge. -/
theorem merge_verdict (g : Grammar T N) (source dest : N) :
    (g.validate = .ok () → source ≠ dest → g.contains source = true → g.contains dest = true →
      let m := g.pureMerge source dest
      ((g.merge source dest).answer = .ok () ↔ m.validate = .ok ()) ∧
      ((g.merge source dest).answer = .ok () →
        (g.merge source dest).grammar.start = m.start ∧
        (g.merge source dest).grammar.contents = m.contents ∧
        (g.merge source dest).grammar.rules.keys = g.rules.keys.filter fun x => x ≠ source) ∧
      ((g.merge source dest).answer = .error (.cycle dest) ↔ ∃ x, m.productions.Loops x) ∧
      ((g.merge source dest).answer = .error (.startReferenced dest) ↔
        m.productions.Acyclic ∧ ∃ x, m.productions.Refers x m.start)) ∧
    ((∀ x, ¬ g.productions.Refers x g.start) → (g.merge source dest).answer = .ok () →
      ∀ x, ¬ (g.merge source dest).grammar.productions.Refers x
        (g.merge source dest).grammar.start) := by
  refine ⟨fun hvalid hne hs hd => ?_, not_refers_start_merge⟩
  intro m
  have hcases := (validate_eq_ok_iff.mp hvalid).merge_cases hne hs hd
  have hkept : (g.merge source dest).answer = .ok () →
      (g.merge source dest).grammar.start = m.start ∧
      (g.merge source dest).grammar.contents = m.contents ∧
      (g.merge source dest).grammar.rules.keys = g.rules.keys.filter fun x => x ≠ source := by
    intro hok
    exact ⟨(contents_merge hok).1, (contents_merge hok).2, (merged_merge hok).keys⟩
  refine ⟨?_, hkept, ?_⟩
  · rw [validate_eq_ok_iff]
    rcases hcases with ⟨hloop, ha⟩ | ⟨-, ⟨x, hx⟩, ha⟩ | ⟨hv, ha⟩
    · rw [ha]
      exact ⟨nofun, fun hv => absurd hloop (hv.acyclic dest)⟩
    · rw [ha]
      exact ⟨nofun, fun hv => absurd hx (hv.unreferenced x)⟩
    · exact ⟨fun _ => hv, fun _ => ha⟩
  · rcases hcases with ⟨hloop, ha⟩ | ⟨hac, hx, ha⟩ | ⟨hv, ha⟩
    · rw [ha]
      exact ⟨⟨fun _ => ⟨dest, hloop⟩, fun _ => rfl⟩,
        ⟨nofun, fun h => absurd hloop (h.1 dest)⟩⟩
    · rw [ha]
      exact ⟨⟨nofun, fun ⟨x, hx⟩ => absurd hx (hac x)⟩, ⟨fun _ => ⟨hac, hx⟩, fun _ => rfl⟩⟩
    · rw [ha]
      exact ⟨⟨nofun, fun ⟨x, hx⟩ => absurd hx (hv.acyclic x)⟩,
        ⟨nofun, fun ⟨_, x, hx⟩ => absurd hx (hv.unreferenced x)⟩⟩

/-- The start symbol and the rule `2`, which it does not reach, both refer to `1`. -/
def unreachedUser : Grammar Char Nat :=
  let g := ofStart 0
  let g := (g.addRule 0 (.ofList [.nonterminal 1, .terminal 'a', .nonterminal 1])).2
  let g := (g.addRule 1 (.ofList [.terminal 'd'])).2
  (g.addRule 2 (.ofList [.nonterminal 1, .terminal 'c'])).2

/-- Here `1` can be merged into `2`, but not into the start symbol: that would close no loop, and
`2` would refer to it. -/
theorem merge_verdict_unreachedUser :
    (unreachedUser.merge 1 2).answer = .ok () ∧ (unreachedUser.pureMerge 1 2).validate = .ok () ∧
      (∀ x, ¬ (unreachedUser.merge 1 2).grammar.productions.Refers x
        (unreachedUser.merge 1 2).grammar.start) ∧
      (unreachedUser.pureMerge 1 0).productions.Acyclic ∧
      ∃ x, (unreachedUser.pureMerge 1 0).productions.Refers x 0 := by
  have hvalid : unreachedUser.validate = .ok () := by cbv
  have hok : (unreachedUser.merge 1 2).answer = .ok () := by cbv
  have hrefused : (unreachedUser.merge 1 0).answer = .error (.startReferenced 0) := by cbv
  have hfree := (validate_eq_ok_iff.mp hvalid).unreferenced
  have haccepted := (merge_verdict unreachedUser 1 2).1 hvalid (by decide) rfl rfl
  have hother := (merge_verdict unreachedUser 1 0).1 hvalid (by decide) rfl rfl
  exact ⟨hok, haccepted.1.mp hok, (merge_verdict unreachedUser 1 2).2 hfree hok,
    hother.2.2.2.mp hrefused⟩

/-! ## Loops -/

/-- **The search for a loop is exact**, on every grammar, also on one that has loops already or
refers to names without rules. For two different rules it finds something exactly if `dest` reaches
itself in the merge on paper, and exactly then the merge is refused for a cycle. After an accepted
merge `dest` is in no loop, and every loop that there is was there before; so a grammar without loops
has none afterwards, and it is refused no merge for a cycle if the merge on paper has none. -/
theorem merge_loop_test (g : Grammar T N) (source dest : N) (hne : source ≠ dest)
    (hs : g.contains source = true) (hd : g.contains dest = true) :
    let m := g.pureMerge source dest
    let g' := (g.merge source dest).grammar
    (g.mergeWouldCycle source dest = true ↔ m.productions.Loops dest) ∧
    ((g.merge source dest).answer = .error (.cycle dest) ↔ m.productions.Loops dest) ∧
    ((g.merge source dest).answer = .ok () →
      ¬ g'.productions.Loops dest ∧ ∀ x, g'.productions.Loops x → g.productions.Loops x) ∧
    (g.productions.Acyclic →
      ((g.merge source dest).answer = .ok () → g'.productions.Acyclic) ∧
      (m.productions.Acyclic → ∀ c, (g.merge source dest).answer ≠ .error (.cycle c))) := by
  intro m g'
  obtain ⟨a, ha⟩ := Option.isSome_iff_exists.mp hs
  obtain ⟨b, hb⟩ := Option.isSome_iff_exists.mp hd
  have hanswer := merge_answer hne ha hb
  have htest : g.mergeWouldCycle source dest = true ↔ m.productions.Loops dest := by
    rw [mergeWouldCycle_iff hne, productions_pureMerge]
  have hrefused : ∀ c, (g.merge source dest).answer = .error (.cycle c) →
      c = dest ∧ m.productions.Loops dest := by
    intro c hc
    rw [hanswer] at hc
    split at hc
    · next hcycle =>
      cases hc
      exact ⟨rfl, htest.mp hcycle⟩
    · split at hc <;> cases hc
  have haccepted : (g.merge source dest).answer = .ok () →
      ¬ g'.productions.Loops dest ∧ ∀ x, g'.productions.Loops x → g.productions.Loops x := by
    intro hok
    obtain ⟨-, -, -, hloop, -⟩ := merge_eq_ok hok
    rw [(merged_merge hok).productions]
    exact ⟨hloop, fun x => Productions.loops_of_merged hloop⟩
  refine ⟨htest, ⟨fun h => (hrefused dest h).2, fun h => ?_⟩, haccepted, fun hac => ⟨?_, ?_⟩⟩
  · rw [hanswer, if_pos (htest.mpr h)]
  · intro hok x hx
    exact hac x ((haccepted hok).2 x hx)
  · intro hm c hc
    exact hm dest (hrefused c hc).2

/-- The rule for `3` refers to itself, and there is none for `9`. -/
def besideSelfReference : Grammar Char Nat :=
  let g := ofStart 0
  let g := (g.addRule 0 (.ofList [.nonterminal 1, .nonterminal 2])).2
  let g := (g.addRule 1 (.ofList [.terminal 'a', .nonterminal 9])).2
  let g := (g.addRule 2 (.ofList [.nonterminal 1, .nonterminal 3])).2
  (g.addRule 3 (.ofList [.nonterminal 3, .terminal 'b'])).2

/-- Here `1` can be merged into `2` without a loop through `2`, while `3` brings its own reference to
itself with it. -/
theorem merge_loop_test_besideSelfReference :
    (besideSelfReference.merge 1 2).answer = .ok () ∧
      ¬ (besideSelfReference.merge 1 2).grammar.productions.Loops 2 ∧
      (besideSelfReference.merge 3 2).answer = .error (.cycle 2) ∧
      (besideSelfReference.pureMerge 3 2).productions.Loops 2 := by
  have hok : (besideSelfReference.merge 1 2).answer = .ok () := by cbv
  have hrefused : (besideSelfReference.merge 3 2).answer = .error (.cycle 2) := by cbv
  have haccepted := merge_loop_test besideSelfReference 1 2 (by decide) rfl rfl
  have hother := merge_loop_test besideSelfReference 3 2 (by decide) rfl rfl
  exact ⟨hok, (haccepted.2.2.1 hok).1, hrefused, hother.2.1.mp hrefused⟩

end Grammar

end StraightLine
