import StraightLine.Proofs.Inlining
import StraightLine.Proofs.MergeSearch

/-!
# What merging a rule into another does

A merge copies the body of `source` into that of `dest`, drops the rule for `source` and lets every
reference that is left go to `dest`. On all rules at once this is `Productions.merged`.

* `Productions.refers_merged` — the references afterwards are those after the copy, with `dest` in
  the place of `source`.
* `Productions.loops_merged_iff` — `dest` comes to reach itself exactly if something that it then
  refers to reached one of the two before, and `Productions.loops_of_merged` — no other loop is
  closed.
* `Grammar.mergeWouldCycle_iff` — the search before a merge decides this.
* `Grammar.merge_answer` — the verdict, and `Grammar.merge_eq_ok` — all that an accepted merge tells;
  `Grammar.Merged` — the rules that are there afterwards.
* `Grammar.mergeReachesStart_of_refers`, `Grammar.exists_refers_of_mergeReachesStart` — the other
  test decides whether the start symbol would be referred to.
-/

namespace StraightLine

open Relation (ReflTransGen TransGen)

variable {T N : Type} [DecidableEq N]

namespace Productions

/-- The rules with a copy of the body of `source` in the place of every reference to it in the body
of `dest`. -/
def copied (P : Productions T N) (source dest : N) : Productions T N :=
  fun x => if x = dest then (P x).map (spliced source ((P source).getD [])) else P x

/-- The rules after `source` is merged into `dest`: once the copy is made, `source` goes away, and
every reference that is left to it goes to `dest`. -/
def merged (P : Productions T N) (source dest : N) : Productions T N :=
  (P.copied source dest).inlined source [.nonterminal dest]

/-- Where a reference to `z` goes after the merge. -/
def redirect (source dest z : N) : N := if z = source then dest else z

variable {P : Productions T N} {source dest x y z : N}

@[simp] theorem redirect_source : redirect source dest source = dest := if_pos rfl

theorem redirect_of_ne (h : z ≠ source) : redirect source dest z = z := if_neg h

theorem redirect_of_target (h : z = source ∨ z = dest) : redirect source dest z = dest := by
  unfold redirect
  split
  · rfl
  · next hne => exact h.resolve_left hne

/-- What is left of a rule body has its references redirected. -/
theorem spliced_redirect (ss : List (Symbol T N)) :
    spliced source [.nonterminal dest] (.nonterminal y :: ss) =
      .nonterminal (redirect source dest y) :: spliced source [.nonterminal dest] ss := by
  by_cases hy : y = source
  · subst hy
    rw [spliced_self, redirect_source]
    rfl
  · rw [spliced_of_ne hy, redirect_of_ne hy]

theorem spliced_redirect_eq_nil {ss : List (Symbol T N)}
    (h : spliced source [.nonterminal dest] ss = []) : ss = [] := by
  cases ss with
  | nil => rfl
  | cons s us => exact absurd h (spliced_ne_nil (List.cons_ne_nil _ _) (List.cons_ne_nil _ _))

/-- A letter at the head of what is left was one before. -/
theorem spliced_redirect_eq_terminal_cons {ss rs : List (Symbol T N)} {t : T}
    (h : spliced source [.nonterminal dest] ss = .terminal t :: rs) :
    ∃ us, ss = .terminal t :: us ∧ spliced source [.nonterminal dest] us = rs := by
  cases ss with
  | nil => cases h
  | cons s us =>
    cases s with
    | terminal u =>
      rw [spliced_terminal] at h
      cases h
      exact ⟨us, rfl, rfl⟩
    | nonterminal y =>
      rw [spliced_redirect] at h
      cases h

/-- A reference at the head of what is left is one that was there before, redirected. -/
theorem spliced_redirect_eq_nonterminal_cons {ss rs : List (Symbol T N)}
    (h : spliced source [.nonterminal dest] ss = .nonterminal z :: rs) :
    ∃ y us, ss = .nonterminal y :: us ∧ redirect source dest y = z ∧
      spliced source [.nonterminal dest] us = rs := by
  cases ss with
  | nil => cases h
  | cons s us =>
    cases s with
    | terminal t => cases h
    | nonterminal y =>
      rw [spliced_redirect] at h
      cases h
      exact ⟨y, us, rfl, rfl, rfl⟩

/-- A merge makes one name of two, and no others. -/
theorem redirect_eq_iff :
    redirect source dest y = redirect source dest z ↔
      y = z ∨ ((y = source ∨ y = dest) ∧ (z = source ∨ z = dest)) := by
  constructor
  · intro h
    unfold redirect at h
    split at h
    · next hy =>
      split at h
      · next hz => exact .inl (hy.trans hz.symm)
      · exact .inr ⟨.inl hy, .inr h.symm⟩
    · split at h
      · next hz => exact .inr ⟨.inr h, .inl hz⟩
      · exact .inl h
  · rintro (rfl | ⟨hy, hz⟩)
    · rfl
    · rw [redirect_of_target hy, redirect_of_target hz]

/-! ## The references afterwards -/

theorem refers_copied_of_ne (hx : x ≠ dest) : (P.copied source dest).Refers x y ↔ P.Refers x y := by
  unfold Refers copied
  rw [if_neg hx]

theorem refers_copied_dest :
    (P.copied source dest).Refers dest y ↔
      (y ≠ source ∧ P.Refers dest y) ∨ (P.Refers dest source ∧ P.Refers source y) := by
  have hsource : Symbol.nonterminal y ∈ (P source).getD [] ↔ P.Refers source y := by
    unfold Refers
    cases P source <;> simp
  unfold copied
  rw [← hsource]
  unfold Refers
  cases hdest : P dest with
  | none => simp [hdest]
  | some ss => simp [hdest, mem_spliced]

/-- **The references after a merge**: those after the copy, redirected. -/
theorem refers_merged :
    (P.merged source dest).Refers x y ↔
      x ≠ source ∧ ∃ z, (P.copied source dest).Refers x z ∧ y = redirect source dest z := by
  have hinlined : (P.merged source dest).Refers x y ↔ x ≠ source ∧
      ((y ≠ source ∧ (P.copied source dest).Refers x y) ∨
        ((P.copied source dest).Refers x source ∧ y = dest)) := by
    unfold merged Refers inlined
    by_cases hx : x = source
    · simp [hx]
    · cases P.copied source dest x with
      | none => simp [hx]
      | some ss => simp [hx, mem_spliced]
  rw [hinlined]
  refine and_congr_right fun _ => ⟨?_, ?_⟩
  · rintro (⟨hne, hxy⟩ | ⟨hxs, rfl⟩)
    · exact ⟨y, hxy, (redirect_of_ne hne).symm⟩
    · exact ⟨source, hxs, redirect_source.symm⟩
  · rintro ⟨z, hxz, rfl⟩
    by_cases hz : z = source
    · subst hz
      exact .inr ⟨hxz, redirect_source⟩
    · rw [redirect_of_ne hz]
      exact .inl ⟨hz, hxz⟩

/-- The rules that are neither of the two. -/
theorem refers_merged_of_ne (hs : x ≠ source) (hd : x ≠ dest) :
    (P.merged source dest).Refers x y ↔ ∃ z, P.Refers x z ∧ y = redirect source dest z := by
  rw [refers_merged, and_iff_right hs]
  simp only [refers_copied_of_ne hd]

theorem refers_merged_dest (hne : source ≠ dest) :
    (P.merged source dest).Refers dest y ↔
      ∃ z, (P.copied source dest).Refers dest z ∧ y = redirect source dest z := by
  rw [refers_merged, and_iff_right hne.symm]

/-! ## Loops -/

/-- What reached one of the two reaches `dest` afterwards, and nothing else does. -/
theorem reaches_merged_dest_iff :
    (P.merged source dest).Reaches (redirect source dest z) dest ↔
      P.Reaches z source ∨ P.Reaches z dest := by
  constructor
  · intro h
    generalize hu : redirect source dest z = u at h
    induction h using ReflTransGen.head_induction_on generalizing z with
    | refl =>
      by_cases hz : z = source
      · exact .inl (hz ▸ .refl _)
      · rw [redirect_of_ne hz] at hu
        exact .inr (hu ▸ .refl _)
    | @head u v huv _ ih =>
      by_cases hz : z = source
      · exact .inl (hz ▸ .refl _)
      · rw [redirect_of_ne hz] at hu
        subst hu
        by_cases hd : z = dest
        · exact .inr (hd ▸ .refl _)
        · obtain ⟨w, hzw, rfl⟩ := (refers_merged_of_ne hz hd).mp huv
          exact (ih rfl).imp (.head hzw) (.head hzw)
  · have key : ∀ e, e = source ∨ e = dest → P.Reaches z e →
        (P.merged source dest).Reaches (redirect source dest z) dest := by
      intro e he h
      induction h using ReflTransGen.head_induction_on with
      | refl =>
        rw [redirect_of_target he]
        exact .refl dest
      | @head z w hzw _ ih =>
        by_cases hz : z = source ∨ z = dest
        · rw [redirect_of_target hz]
          exact .refl dest
        · rw [not_or] at hz
          rw [redirect_of_ne hz.1]
          exact .head ((refers_merged_of_ne hz.1 hz.2).mpr ⟨w, hzw, rfl⟩) ih
    rintro (h | h)
    · exact key source (.inl rfl) h
    · exact key dest (.inr rfl) h

/-- **A merge lets `dest` reach itself** exactly if one of the names that it refers to after the
copy reached one of the two. -/
theorem loops_merged_iff (hne : source ≠ dest) :
    (P.merged source dest).Loops dest ↔
      ∃ z, (P.copied source dest).Refers dest z ∧ (P.Reaches z source ∨ P.Reaches z dest) := by
  rw [Loops, TransGen.head'_iff]
  constructor
  · rintro ⟨y, hy, hreach⟩
    obtain ⟨z, hz, rfl⟩ := (refers_merged_dest hne).mp hy
    exact ⟨z, hz, reaches_merged_dest_iff.mp hreach⟩
  · rintro ⟨z, hz, hreach⟩
    exact ⟨_, (refers_merged_dest hne).mpr ⟨z, hz, rfl⟩, reaches_merged_dest_iff.mpr hreach⟩

/-- A path after the merge is a path before it, unless it goes through `dest`. -/
theorem transGen_of_merged (h : TransGen (P.merged source dest).Refers x y) :
    TransGen P.Refers x y ∨
      ((P.merged source dest).Reaches x dest ∧ (P.merged source dest).Reaches dest y) := by
  have hstep : ∀ {u v}, (P.merged source dest).Refers u v → u ≠ dest → v ≠ dest → P.Refers u v := by
    intro u v huv hu hv
    obtain ⟨hus, z, hz, rfl⟩ := refers_merged.mp huv
    rw [refers_copied_of_ne hu] at hz
    have hzs : z ≠ source := fun he => hv (redirect_of_target (.inl he))
    rwa [redirect_of_ne hzs]
  induction h with
  | @single y hxy =>
    by_cases hx : x = dest
    · subst hx
      exact .inr ⟨.refl x, .head hxy (.refl y)⟩
    · by_cases hy : y = dest
      · subst hy
        exact .inr ⟨.head hxy (.refl y), .refl y⟩
      · exact .inl (.single (hstep hxy hx hy))
  | @tail v y hxv hvy ih =>
    rcases ih with hold | ⟨hxd, hdv⟩
    · by_cases hv : v = dest
      · subst hv
        exact .inr ⟨hxv.to_reflTransGen, .head hvy (.refl y)⟩
      · by_cases hy : y = dest
        · subst hy
          exact .inr ⟨hxv.to_reflTransGen.tail hvy, .refl y⟩
        · exact .inl (hold.tail (hstep hvy hv hy))
    · exact .inr ⟨hxd, hdv.tail hvy⟩

/-- **No loop is closed but one through `dest`.** -/
theorem loops_of_merged (h : ¬ (P.merged source dest).Loops dest)
    (hx : (P.merged source dest).Loops x) : P.Loops x := by
  rcases transGen_of_merged hx with hold | ⟨hxd, hdx⟩
  · exact hold
  · exact absurd ((TransGen.trans_right hdx hx).trans_left hxd) h

theorem acyclic_merged (hP : P.Acyclic) (h : ¬ (P.merged source dest).Loops dest) :
    (P.merged source dest).Acyclic := fun x hx => hP x (loops_of_merged h hx)

end Productions

/-! ## The merge of a grammar -/

namespace Grammar

variable {g : Grammar T N} {source dest : N} {a b : Body T N}

/-- The seeds of the search are what `dest` refers to after the copy. -/
theorem mem_mergeSeeds_iff {z : N} :
    z ∈ mergeSeeds g.rules source dest ↔ (g.productions.copied source dest).Refers dest z := by
  rw [mem_mergeSeeds, Productions.refers_copied_dest]

/-- **The search decides whether `dest` would reach itself**, on every grammar. -/
theorem mergeWouldCycle_iff (hne : source ≠ dest) :
    g.mergeWouldCycle source dest = true ↔ (g.productions.merged source dest).Loops dest := by
  rw [mergeWouldCycle, searchFrom_eq_true_iff, Productions.loops_merged_iff hne]
  simp only [List.mem_reverse, mem_mergeSeeds_iff]

/-- The verdict on a merge of two rules. -/
theorem merge_answer (hne : source ≠ dest) (ha : g.rules.get? source = some a)
    (hb : g.rules.get? dest = some b) :
    (g.merge source dest).answer =
      if g.mergeWouldCycle source dest then .error (.cycle dest)
      else if g.mergeReachesStart source dest then .error (.startReferenced dest)
      else .ok () := by
  rw [merge, if_neg hne]
  simp only [ha, hb]
  split
  · rfl
  · split
    · rfl
    · rfl

/-- All that is known when a merge is accepted. -/
theorem merge_eq_ok (h : (g.merge source dest).answer = .ok ()) :
    source ≠ dest ∧ (∃ a, g.rules.get? source = some a) ∧ (∃ b, g.rules.get? dest = some b) ∧
      ¬ (g.productions.merged source dest).Loops dest ∧
      g.mergeReachesStart source dest = false := by
  by_cases hne : source = dest
  · rw [merge, if_pos hne] at h
    cases h
  · cases ha : g.rules.get? source with
    | none =>
      simp only [merge, if_neg hne, ha] at h
      cases h
    | some a =>
      cases hb : g.rules.get? dest with
      | none =>
        simp only [merge, if_neg hne, ha, hb] at h
        cases h
      | some b =>
        rw [merge_answer hne ha hb] at h
        split at h
        · cases h
        · next hcycle =>
          split at h
          · cases h
          · next hstart =>
            rw [mergeWouldCycle_iff hne] at hcycle
            exact ⟨hne, ⟨a, rfl⟩, ⟨b, rfl⟩, hcycle, Bool.eq_false_iff.mpr hstart⟩

/-- What the rules are after a merge. -/
structure Merged (g : Grammar T N) (source dest : N) (g' : Grammar T N) : Prop where
  start : g'.start = Productions.redirect source dest g.start
  keys : g'.rules.keys = g.rules.keys.filter fun x => x ≠ source
  productions : g'.productions = g.productions.merged source dest

theorem productions_copyInto (ha : g.rules.get? source = some a) (hb : g.rules.get? dest = some b) :
    (g.copyInto source dest a b).1.productions = g.productions.copied source dest := by
  have hsource : (g.productions source).getD [] = a.toList := by
    rw [productions, productionsOf_of_get? ha]
    rfl
  have hdest : g.productions dest = some b.toList := productionsOf_of_get? hb
  funext x
  unfold copyInto
  split
  · show ((g.rules.insert dest _).get? x).map Sequence.toList = _
    rw [OrderedMap.get?_insert, Productions.copied, hsource]
    split
    · next hx =>
      rw [hx, hdest]
      exact congrArg some (Body.toList_substitute b source a.toList)
    · rfl
  · next hrefs =>
    have hmem : Symbol.nonterminal source ∉ b.toList := by
      rw [← Body.mem_references, ← Body.refersTo_iff]
      exact hrefs
    rw [Productions.copied, hsource]
    split
    · next hx =>
      rw [hx, hdest]
      exact congrArg some (spliced_of_not_mem hmem).symm
    · rfl

theorem keys_copyInto (hb : g.rules.get? dest = some b) :
    (g.copyInto source dest a b).1.rules.keys = g.rules.keys := by
  unfold copyInto
  split
  · show (g.rules.insert dest _).keys = _
    rw [OrderedMap.keys_insert, if_pos (OrderedMap.mem_keys_of_get? hb)]
  · rfl

/-- **What an accepted merge leaves.** -/
theorem merged_merge (h : (g.merge source dest).answer = .ok ()) :
    g.Merged source dest (g.merge source dest).grammar := by
  obtain ⟨hne, ⟨a, ha⟩, ⟨b, hb⟩, hloop, hstart⟩ := merge_eq_ok h
  have hcycle : ¬ g.mergeWouldCycle source dest = true := by rwa [mergeWouldCycle_iff hne]
  have hgrammar : (g.merge source dest).grammar =
      let done := (((g.copyInto source dest a b).1.dropRule source).substitute source
        [.nonterminal dest]).2
      if g.start = source then done.setStart dest else done := by
    rw [merge, if_neg hne]
    simp only [ha, hb, hcycle, hstart, if_false, Bool.false_eq_true]
  have hold : (((g.copyInto source dest a b).1.dropRule source).substitute source
      [.nonterminal dest]).2.start = g.start := by
    show (g.copyInto source dest a b).1.start = g.start
    unfold copyInto
    split <;> rfl
  have hkeys := keys_substitute_dropRule (g.copyInto source dest a b).1 source [.nonterminal dest]
  have hrules :=
    productions_substitute_dropRule (g.copyInto source dest a b).1 source [.nonterminal dest]
  rw [keys_copyInto hb] at hkeys
  rw [productions_copyInto ha hb] at hrules
  rw [hgrammar]
  refine ⟨?_, ?_, ?_⟩
  · show (if g.start = source then _ else _ : Grammar T N).start = _
    unfold Productions.redirect
    split
    · rfl
    · exact hold
  · show (if g.start = source then _ else _ : Grammar T N).rules.keys = _
    split <;> exact hkeys
  · show productionsOf (if g.start = source then _ else _ : Grammar T N).rules = _
    split <;> exact hrules

/-! ## References to the start symbol -/

theorem othersReferTo_iff {id skip : N} :
    g.othersReferTo id skip = true ↔ ∃ x, x ≠ skip ∧ g.productions.Refers x id := by
  rw [othersReferTo, List.any_eq_true]
  constructor
  · rintro ⟨⟨x, c⟩, hr, htest⟩
    rw [Bool.and_eq_true, decide_eq_true_eq, Body.refersTo_iff] at htest
    exact ⟨x, htest.1, refers_of_mem_references (OrderedMap.get?_eq_some_iff.mpr hr) htest.2⟩
  · rintro ⟨x, hx, hxid⟩
    obtain ⟨c, hc, hid⟩ := refers_productionsOf_iff.mp hxid
    refine ⟨(x, c), OrderedMap.get?_eq_some_iff.mp hc, ?_⟩
    rw [Bool.and_eq_true, decide_eq_true_eq, Body.refersTo_iff]
    exact ⟨hx, hid⟩

/-- The merged rule does not refer to the start symbol, if no rule did. -/
theorem not_refers_redirect_start (hfree : ∀ x, ¬ g.productions.Refers x g.start)
    (hloop : ¬ (g.productions.merged source dest).Loops dest) :
    ¬ (g.productions.merged source dest).Refers dest
      (Productions.redirect source dest g.start) := by
  intro h
  obtain ⟨-, z, hz, he⟩ := Productions.refers_merged.mp h
  rcases Productions.redirect_eq_iff.mp he with rfl | ⟨hstart, -⟩
  · rcases Productions.refers_copied_dest.mp hz with ⟨-, hold⟩ | ⟨-, hold⟩
    · exact hfree _ hold
    · exact hfree _ hold
  · rw [Productions.redirect_of_target hstart] at h
    exact hloop (.single h)

/-- If the start symbol would be referred to, where it was not before, the test finds out. -/
theorem mergeReachesStart_of_refers (hfree : ∀ x, ¬ g.productions.Refers x g.start)
    (hloop : ¬ (g.productions.merged source dest).Loops dest) {x : N}
    (h : (g.productions.merged source dest).Refers x
      (Productions.redirect source dest g.start)) :
    g.mergeReachesStart source dest = true := by
  have hx : x ≠ dest := fun he => not_refers_redirect_start hfree hloop (he ▸ h)
  obtain ⟨hxs, z, hz, he⟩ := Productions.refers_merged.mp h
  rw [Productions.refers_copied_of_ne hx] at hz
  have hzstart : g.start ≠ z := fun hzs => hfree x (hzs ▸ hz)
  -- so the start symbol and `z` are the two rules that are merged
  obtain ⟨hstart, hztwo⟩ := (Productions.redirect_eq_iff.mp he).resolve_left hzstart
  unfold mergeReachesStart
  rcases hstart with hs | hd
  · have hzd : z = dest := hztwo.resolve_left fun hzs => hzstart (hs.trans hzs.symm)
    have hne : dest ≠ g.start := fun hds => hzstart (hds.symm.trans hzd.symm)
    rw [if_neg hne, if_pos hs.symm, othersReferTo_iff]
    exact ⟨x, hxs, hzd ▸ hz⟩
  · have hzs : z = source := hztwo.resolve_right fun hzd => hzstart (hd.trans hzd.symm)
    rw [if_pos hd.symm, othersReferTo_iff]
    exact ⟨x, hx, hzs ▸ hz⟩

/-- If the test refuses a merge, the start symbol would be referred to. -/
theorem exists_refers_of_mergeReachesStart (hne : source ≠ dest)
    (hself : ¬ g.productions.Refers source source)
    (h : g.mergeReachesStart source dest = true) :
    ∃ x, (g.productions.merged source dest).Refers x
      (Productions.redirect source dest g.start) := by
  unfold mergeReachesStart at h
  split at h
  · next hd =>
    obtain ⟨x, hx, hxs⟩ := othersReferTo_iff.mp h
    have hsx : x ≠ source := fun he => hself (by rwa [he] at hxs)
    rw [Productions.redirect_of_target (.inr hd.symm)]
    exact ⟨x, (Productions.refers_merged_of_ne hsx hx).mpr
      ⟨source, hxs, Productions.redirect_source.symm⟩⟩
  · split at h
    · next hs =>
      obtain ⟨x, hx, hxd⟩ := othersReferTo_iff.mp h
      rw [Productions.redirect_of_target (.inl hs.symm)]
      have hredirect : dest = Productions.redirect source dest dest :=
        (Productions.redirect_of_ne hne.symm).symm
      by_cases hxdest : x = dest
      · subst hxdest
        exact ⟨x, (Productions.refers_merged_dest hne).mpr
          ⟨x, Productions.refers_copied_dest.mpr (.inl ⟨hne.symm, hxd⟩), hredirect⟩⟩
      · exact ⟨x, (Productions.refers_merged_of_ne hx hxdest).mpr ⟨dest, hxd, hredirect⟩⟩
    · cases h

end Grammar

end StraightLine
