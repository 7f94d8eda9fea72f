import StraightLine.Proofs.InlineMeaning
import StraightLine.Proofs.Merging

/-!
# What a merge does to the words

After `source` is merged into `dest`, the two have one rule, which stands for the word of `dest`.
Every other rule is to be read with that word for both.

* `Productions.YieldsGiven`, `Productions.DerivesGiven` — the words of a grammar in which some names
  are given words, whatever their rules are.
* `Productions.derives_merged_dest` — the word of `dest` is the old one: nothing that the merged
  rule reaches is one of the two, and all of it is as it was.
* `Productions.Yields.given_of_merged`, `Productions.YieldsGiven.merged` — redirected symbols yield
  what the old ones yield when both names are given the word of `dest`.
* `Grammar.merge_meaning` — the words after an accepted merge, on every grammar. If the two stood
  for the same word, no word changes.
-/

namespace StraightLine

variable {T N : Type}

namespace Productions

/-! ## Given words -/

/-- `w` is the concatenation of the letters in `ss` and of the words of the references, where every
name that is `given` contributes one of the `words`, and any other what its rule yields. -/
inductive YieldsGiven (P : Productions T N) (given : N → Prop) (words : List T → Prop) :
    List (Symbol T N) → List T → Prop
  | nil : YieldsGiven P given words [] []
  | terminal {t ss w} : YieldsGiven P given words ss w →
      YieldsGiven P given words (.terminal t :: ss) (t :: w)
  | given {id u ss w} : given id → words u → YieldsGiven P given words ss w →
      YieldsGiven P given words (.nonterminal id :: ss) (u ++ w)
  | reference {id b u ss w} : ¬ given id → P id = some b → YieldsGiven P given words b u →
      YieldsGiven P given words ss w → YieldsGiven P given words (.nonterminal id :: ss) (u ++ w)

/-- `id` has a rule, and its body yields `w` with the given words. -/
def DerivesGiven (P : Productions T N) (given : N → Prop) (words : List T → Prop) (id : N)
    (w : List T) : Prop :=
  ∃ b, P id = some b ∧ YieldsGiven P given words b w

variable {P : Productions T N} {given : N → Prop} {words : List T → Prop}

/-- If the given names derive just the given words, giving them makes no difference. -/
theorem yieldsGiven_iff_yields [DecidablePred given]
    (hgiven : ∀ id, given id → ∀ u, words u ↔ P.Derives id u) {ss : List (Symbol T N)}
    {w : List T} : P.YieldsGiven given words ss w ↔ P.Yields ss w := by
  constructor
  · intro h
    induction h with
    | nil => exact .nil
    | terminal _ ih => exact .terminal ih
    | given hid hu _ ih =>
      obtain ⟨b, hb, hyields⟩ := (hgiven _ hid _).mp hu
      exact .reference hb hyields ih
    | reference _ hb _ _ ihb ih => exact .reference hb ihb ih
  · intro h
    induction h with
    | nil => exact .nil
    | terminal _ ih => exact .terminal ih
    | @reference id b u ss w hb hbody _ ihb ih =>
      by_cases hid : given id
      · exact .given hid ((hgiven id hid u).mpr ⟨b, hb, hbody⟩) ih
      · exact .reference hid hb ihb ih

theorem derivesGiven_iff_derives [DecidablePred given]
    (hgiven : ∀ id, given id → ∀ u, words u ↔ P.Derives id u) {x : N} {w : List T} :
    P.DerivesGiven given words x w ↔ P.Derives x w :=
  exists_congr fun _ => and_congr_right fun _ => yieldsGiven_iff_yields hgiven

/-! ## The words of a merge -/

variable [DecidableEq N] {source dest x : N} {xs : List (Symbol T N)}

theorem merged_of_ne (hs : x ≠ source) (hd : x ≠ dest) :
    P.merged source dest x = (P x).map (spliced source [.nonterminal dest]) := by
  rw [merged, inlined, if_neg hs, copied, if_neg hd]

/-- What reaches neither of the two is as it was. -/
theorem merged_eq (h : ¬ (P.Reaches x source ∨ P.Reaches x dest)) :
    P.merged source dest x = P x := by
  rw [not_or] at h
  have hs : x ≠ source := fun he => h.1 (he ▸ .refl _)
  have hd : x ≠ dest := fun he => h.2 (he ▸ .refl _)
  rw [merged_of_ne hs hd]
  cases hx : P x with
  | none => rfl
  | some ss =>
    refine congrArg some (spliced_of_not_mem fun hmem => h.1 ?_)
    exact .single ⟨ss, hx, hmem⟩

/-- The references that reach neither of the two yield what they did. -/
theorem yields_merged_of_not_reaches {ss : List (Symbol T N)}
    (hss : ∀ y, .nonterminal y ∈ ss → ¬ (P.Reaches y source ∨ P.Reaches y dest)) (w : List T) :
    (P.merged source dest).Yields ss w ↔ P.Yields ss w := by
  refine (Yields.congr (fun x hx => (merged_eq hx).symm) (fun x y hx hxy hy => hx ?_) hss w).symm
  exact hy.imp (.head hxy) (.head hxy)

/-- **The word of `dest` is the old one**, if the merge lets it not reach itself. -/
theorem derives_merged_dest (hne : source ≠ dest) (hsource : (P source).isSome)
    (hdest : (P dest).isSome) (hloop : ¬ (P.merged source dest).Loops dest) (w : List T) :
    (P.merged source dest).Derives dest w ↔ P.Derives dest w := by
  obtain ⟨xs, hxs⟩ := Option.isSome_iff_exists.mp hsource
  obtain ⟨ys, hys⟩ := Option.isSome_iff_exists.mp hdest
  have hcopied : P.copied source dest dest = some (spliced source xs ys) := by
    rw [copied, if_pos rfl, hys, hxs]
    rfl
  -- a reference in the merged body that reached one of the two would close a loop
  have hbelow : ∀ z, .nonterminal z ∈ spliced source xs ys →
      ¬ (P.Reaches z source ∨ P.Reaches z dest) := by
    intro z hz hreach
    exact hloop ((loops_merged_iff hne).mpr ⟨z, ⟨_, hcopied, hz⟩, hreach⟩)
  have hbody : P.merged source dest dest = some (spliced source xs ys) := by
    rw [merged, inlined, if_neg hne.symm, hcopied]
    exact congrArg some (spliced_of_not_mem fun hmem => hbelow source hmem (.inl (.refl _)))
  have hyields : (P.merged source dest).Yields (spliced source xs ys) w ↔ P.Yields ys w := by
    rw [yields_merged_of_not_reaches hbelow, Yields.spliced_iff hxs]
  unfold Derives
  simp only [hbody, hys, Option.some.injEq, exists_eq_left', hyields]

/-- What redirected symbols yield, the old ones do with the word of `dest` for both names. -/
theorem Yields.given_of_merged
    (hword : ∀ w, (P.merged source dest).Derives dest w → P.Derives dest w)
    {ss rs : List (Symbol T N)} {w : List T} (h : (P.merged source dest).Yields rs w)
    (hrs : spliced source [.nonterminal dest] ss = rs) :
    P.YieldsGiven (fun y => y = source ∨ y = dest) (P.Derives dest) ss w := by
  induction h generalizing ss with
  | nil =>
    obtain rfl := spliced_redirect_eq_nil hrs
    exact .nil
  | terminal _ ih =>
    obtain ⟨us, rfl, hus⟩ := spliced_redirect_eq_terminal_cons hrs
    exact .terminal (ih hus)
  | @reference id b u _ w hb hbody _ ihb ih =>
    obtain ⟨y, us, rfl, rfl, hus⟩ := spliced_redirect_eq_nonterminal_cons hrs
    by_cases hy : y = source ∨ y = dest
    · rw [redirect_of_target hy] at hb
      exact .given hy (hword u ⟨b, hb, hbody⟩) (ih hus)
    · have hnot := not_or.mp hy
      rw [redirect_of_ne hnot.1, merged_of_ne hnot.1 hnot.2] at hb
      obtain ⟨c, hc, hcb⟩ := Option.map_eq_some_iff.mp hb
      exact .reference hy hc (ihb hcb) (ih hus)

/-- What symbols yield with the word of `dest` for both names, the redirected ones do. -/
theorem YieldsGiven.merged
    (hword : ∀ w, P.Derives dest w → (P.merged source dest).Derives dest w)
    {ss : List (Symbol T N)} {w : List T}
    (h : P.YieldsGiven (fun y => y = source ∨ y = dest) (P.Derives dest) ss w) :
    (P.merged source dest).Yields (spliced source [.nonterminal dest] ss) w := by
  induction h with
  | nil => exact .nil
  | terminal _ ih => exact .terminal ih
  | given hid hu _ ih =>
    obtain ⟨b, hb, hbody⟩ := hword _ hu
    rw [spliced_redirect, redirect_of_target hid]
    exact .reference hb hbody ih
  | reference hid hb _ _ ihb ih =>
    have hnot := not_or.mp hid
    rw [spliced_redirect, redirect_of_ne hnot.1]
    refine .reference ?_ ihb ih
    rw [merged_of_ne hnot.1 hnot.2, hb]
    rfl

/-- **The words of the rules that are neither of the two.** -/
theorem derives_merged_iff
    (hword : ∀ w, (P.merged source dest).Derives dest w ↔ P.Derives dest w)
    (hs : x ≠ source) (hd : x ≠ dest) (w : List T) :
    (P.merged source dest).Derives x w ↔
      P.DerivesGiven (fun y => y = source ∨ y = dest) (P.Derives dest) x w := by
  unfold DerivesGiven
  rw [Derives, merged_of_ne hs hd]
  constructor
  · rintro ⟨b, hb, hw⟩
    obtain ⟨ss, hss, rfl⟩ := Option.map_eq_some_iff.mp hb
    exact ⟨ss, hss, hw.given_of_merged (fun u => (hword u).mp) rfl⟩
  · rintro ⟨ss, hss, hw⟩
    exact ⟨_, Option.map_eq_some_iff.mpr ⟨ss, hss, rfl⟩, hw.merged fun u => (hword u).mpr⟩

/-- If the two stood for the same word, no word changes. -/
theorem derives_merged_of_same
    (hword : ∀ w, (P.merged source dest).Derives dest w ↔ P.Derives dest w)
    (hsame : ∀ u, P.Derives source u ↔ P.Derives dest u) (hs : x ≠ source) (w : List T) :
    (P.merged source dest).Derives x w ↔ P.Derives x w := by
  by_cases hd : x = dest
  · rw [hd]
    exact hword w
  · rw [derives_merged_iff hword hs hd]
    refine derivesGiven_iff_derives fun y hy u => ?_
    rcases hy with rfl | rfl
    · exact (hsame u).symm
    · exact Iff.rfl

/-- No body refers to `source` any more. -/
theorem not_refers_merged_source (hne : source ≠ dest) :
    ¬ (P.merged source dest).Refers x source := by
  intro hx
  obtain ⟨-, z, -, he⟩ := refers_merged.mp hx
  by_cases hz : z = source
  · rw [hz, redirect_source] at he
    exact hne he
  · rw [redirect_of_ne hz] at he
    exact hz he.symm

end Productions

/-! ## The merge of a grammar -/

namespace Grammar

variable [DecidableEq N]

/-- **What an accepted merge does to the words**, on every grammar. No body refers to `source` any
more, and it has no rule. `dest` derives what it derived before. Any other name that is left derives
what its old rule yields when both names are given the word of `dest`. So if the two derived the
same word, every name that is left derives what it did, and the start symbol, which is now `dest` if
it was `source`, derives what the old one did. -/
theorem merge_meaning (g : Grammar T N) (source dest : N)
    (h : (g.merge source dest).answer = .ok ()) :
    let g' := (g.merge source dest).grammar
    (∀ x, ¬ g'.productions.Refers x source) ∧
    g'.contains source = false ∧
    (∀ w, g'.productions.Derives dest w ↔ g.productions.Derives dest w) ∧
    (∀ x, x ≠ source → x ≠ dest → ∀ w, g'.productions.Derives x w ↔
      g.productions.DerivesGiven (fun y => y = source ∨ y = dest)
        (g.productions.Derives dest) x w) ∧
    g'.start = (if g.start = source then dest else g.start) ∧
    ((∃ u, g.productions.Derives source u ∧ g.productions.Derives dest u) →
      (∀ x, x ≠ source → ∀ w, g'.productions.Derives x w ↔ g.productions.Derives x w) ∧
      ∀ w, g'.productions.Derives g'.start w ↔ g.productions.Derives g.start w) := by
  intro g'
  obtain ⟨hne, ⟨a, ha⟩, ⟨b, hb⟩, hloop, -⟩ := merge_eq_ok h
  have hm : g.Merged source dest g' := merged_merge h
  have hsource := isSome_productionsOf_iff.mpr (OrderedMap.mem_keys_of_get? ha)
  have hdest := isSome_productionsOf_iff.mpr (OrderedMap.mem_keys_of_get? hb)
  have hword := Productions.derives_merged_dest hne hsource hdest hloop
  have hgone : source ∉ g'.rules.keys := by
    rw [hm.keys, List.mem_filter]
    simp
  rw [hm.productions, hm.start]
  refine ⟨fun x => Productions.not_refers_merged_source hne, ?_, hword,
    fun x hs hd => Productions.derives_merged_iff hword hs hd, rfl, ?_⟩
  · rw [← Bool.not_eq_true, contains, OrderedMap.contains_iff]
    exact hgone
  · rintro ⟨u, hu⟩
    have hsame := Productions.derives_iff_of_common hu.1 hu.2
    refine ⟨fun x hs => Productions.derives_merged_of_same hword hsame hs, fun w => ?_⟩
    by_cases hs : g.start = source
    · rw [hs, Productions.redirect_source, hword, hsame]
    · rw [Productions.redirect_of_ne hs]
      exact Productions.derives_merged_of_same hword hsame hs w

/-- The rule `2` refers to `1`, and `3` to both; `5` stands for the same word as `1`. The start
symbol refers to a name without a rule, and `4` to itself. -/
def besideLoop : Grammar Char Nat :=
  let g := ofStart 0
  let g := (g.addRule 0 (.ofList [.nonterminal 3, .nonterminal 9])).2
  let g := (g.addRule 1 (.ofList [.terminal 'd'])).2
  let g := (g.addRule 2 (.ofList [.nonterminal 1, .terminal 'c'])).2
  let g := (g.addRule 3 (.ofList [.nonterminal 1, .terminal 'x', .nonterminal 2])).2
  let g := (g.addRule 4 (.ofList [.nonterminal 4])).2
  (g.addRule 5 (.ofList [.terminal 'd'])).2

/-- The word of `3` is `dxdc`. When `1` is merged into `2`, it changes: the two words are different.
When `1` is merged into `5`, it stays. -/
theorem merge_meaning_besideLoop :
    ((besideLoop.merge 1 2).answer = .ok () ∧
      (besideLoop.merge 1 2).grammar.productions.Derives 2 ['d', 'c'] ∧
      (besideLoop.merge 1 2).grammar.productions.Derives 3 ['d', 'c', 'x', 'd', 'c']) ∧
    (besideLoop.merge 1 5).answer = .ok () ∧
      (besideLoop.merge 1 5).grammar.productions.Derives 3 ['d', 'x', 'd', 'c'] := by
  have hchanging : (besideLoop.merge 1 2).answer = .ok () := by cbv
  have hkeeping : (besideLoop.merge 1 5).answer = .ok () := by cbv
  have hone : besideLoop.productions 1 = some [.terminal 'd'] := by decide +kernel
  have htwo : besideLoop.productions 2 = some [.nonterminal 1, .terminal 'c'] := by decide +kernel
  have hthree : besideLoop.productions 3 =
      some [.nonterminal 1, .terminal 'x', .nonterminal 2] := by decide +kernel
  have hfive : besideLoop.productions 5 = some [.terminal 'd'] := by decide +kernel
  have hd : besideLoop.productions.Derives 1 ['d'] := ⟨_, hone, .terminal .nil⟩
  have hdc : besideLoop.productions.Derives 2 ['d', 'c'] :=
    ⟨_, htwo, .reference hone (.terminal .nil) (.terminal .nil)⟩
  obtain ⟨-, -, hdest, hother, -⟩ := merge_meaning besideLoop 1 2 hchanging
  obtain ⟨-, -, -, -, -, hsame⟩ := merge_meaning besideLoop 1 5 hkeeping
  refine ⟨⟨hchanging, (hdest _).mpr hdc, ?_⟩, hkeeping, ?_⟩
  · rw [hother 3 (by decide) (by decide)]
    exact ⟨_, hthree, .given (.inl rfl) hdc (.terminal (.given (.inr rfl) hdc .nil))⟩
  · rw [(hsame ⟨['d'], hd, _, hfive, .terminal .nil⟩).1 3 (by decide)]
    refine ⟨_, hthree, .reference hone (.terminal .nil) (.terminal ?_)⟩
    exact .reference htwo (.reference hone (.terminal .nil) (.terminal .nil)) .nil

end Grammar

end StraightLine
