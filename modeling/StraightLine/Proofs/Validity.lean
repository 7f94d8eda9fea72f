import StraightLine.Proofs.Acyclicity
import StraightLine.Proofs.Memo
import StraightLine.Proofs.Merging

/-!
# Valid grammars

A grammar is valid if its start symbol has a rule, no body is empty, every reference goes to a rule
that is not the start symbol's, and no rule reaches itself.

* `Grammar.Valid` — these conditions, and `Grammar.validate_eq_ok_iff` — `Grammar.validate` decides
  them.
* `Productions.Valid.inlined`, `Productions.Valid.merged` — what inlining a rule and merging two
  rules keep of them. A merge closes no loop and leaves the start symbol unreferenced only if it is
  tested first, so these two are hypotheses there.
* `Grammar.Valid.exists_word` — every rule of a valid grammar has a word, which is not empty, since
  unfolding leaves something of every body (`Productions.Valid.unfolds_ne_nil`).
-/

namespace StraightLine

variable {T N : Type}

namespace Productions

/-- The start symbol has a rule, no body is empty, every reference goes to a rule, none of them to
the start symbol's, and no rule reaches itself. -/
structure Valid (P : Productions T N) (start : N) : Prop where
  start_defined : (P start).isSome
  nonempty : ∀ x ss, P x = some ss → ss ≠ []
  defined : ∀ x y, P.Refers x y → (P y).isSome
  unreferenced : ∀ x, ¬ P.Refers x start
  acyclic : P.Acyclic

end Productions

variable [DecidableEq N]

/-- The start symbol and the bodies of the rules are valid. -/
def Grammar.Valid (g : Grammar T N) : Prop := g.productions.Valid g.start

/-! ## The check -/

namespace Grammar

variable {g : Grammar T N}

theorem checkReferences_eq_ok_iff {ids : List N} :
    g.checkReferences ids = .ok () ↔ ∀ id ∈ ids, id ≠ g.start ∧ g.contains id = true := by
  induction ids with
  | nil => simp [checkReferences]
  | cons id ids ih =>
    rw [checkReferences, List.forall_mem_cons]
    split
    · next hs => simp [hs]
    · next hs =>
      split
      · next hc =>
        have hundefined : g.contains id = false := by simpa using hc
        simp [hundefined]
      · next hc =>
        have hdefined : g.contains id = true := by simpa using hc
        rw [ih]
        exact (and_iff_right ⟨hs, hdefined⟩).symm

theorem checkRules_eq_ok_iff {rules : List (N × Body T N)} :
    g.checkRules rules = .ok () ↔ ∀ r ∈ rules,
      r.2.toList ≠ [] ∧ ∀ id ∈ Body.references r.2, id ≠ g.start ∧ g.contains id = true := by
  induction rules with
  | nil => simp [checkRules]
  | cons r rules ih =>
    obtain ⟨id, b⟩ := r
    rw [checkRules, List.forall_mem_cons]
    split
    · next hb => simp [b.isEmpty_iff.mp hb]
    · next hb =>
      rw [b.isEmpty_iff] at hb
      split
      · next e he =>
        have hrefs : ¬ ∀ id ∈ Body.references b, id ≠ g.start ∧ g.contains id = true := by
          rw [← checkReferences_eq_ok_iff, he]
          exact nofun
        exact ⟨nofun, fun h => absurd h.1.2 hrefs⟩
      · next hok =>
        rw [ih]
        have hrefs := checkReferences_eq_ok_iff.mp hok
        exact ⟨fun h => ⟨⟨hb, hrefs⟩, h⟩, fun h => h.2⟩

/-- What the check of all rules says of the bodies as lists. -/
theorem checkRules_entries_eq_ok_iff :
    g.checkRules g.rules.entries = .ok () ↔
      (∀ x ss, g.productions x = some ss → ss ≠ []) ∧
        ∀ x y, g.productions.Refers x y → y ≠ g.start ∧ g.contains y = true := by
  rw [checkRules_eq_ok_iff]
  constructor
  · intro h
    constructor
    · intro x ss hx
      obtain ⟨b, hb, rfl⟩ := productionsOf_eq_some_iff.mp hx
      exact (h (x, b) (OrderedMap.get?_eq_some_iff.mp hb)).1
    · intro x y hxy
      obtain ⟨b, hb, hy⟩ := refers_productionsOf_iff.mp hxy
      exact (h (x, b) (OrderedMap.get?_eq_some_iff.mp hb)).2 y hy
  · rintro ⟨hbodies, hrefs⟩ ⟨x, b⟩ hr
    have hb : g.rules.get? x = some b := OrderedMap.get?_eq_some_iff.mpr hr
    exact ⟨hbodies x _ (productionsOf_of_get? hb),
      fun y hy => hrefs x y (refers_of_mem_references hb hy)⟩

/-- **The check accepts exactly the valid grammars.** -/
theorem validate_eq_ok_iff : g.validate = .ok () ↔ g.Valid := by
  have hrules := checkRules_entries_eq_ok_iff (g := g)
  have hacyclic := checkAcyclic_eq_ok_iff g
  have hstart := contains_iff_isSome (g := g) (x := g.start)
  constructor
  · intro h
    unfold validate at h
    split at h
    · cases h
    · next hs =>
      split at h
      · cases h
      · next hok =>
        obtain ⟨hbodies, hrefs⟩ := hrules.mp hok
        have hdefined : g.contains g.start = true := by simpa using hs
        exact ⟨hstart.mp hdefined, hbodies,
          fun x y hxy => contains_iff_isSome.mp (hrefs x y hxy).2,
          fun x hx => (hrefs x _ hx).1 rfl, hacyclic.mp h⟩
  · intro h
    have hok : g.checkRules g.rules.entries = .ok () :=
      hrules.mpr ⟨h.nonempty, fun x y hxy =>
        ⟨fun he => h.unreferenced x (he ▸ hxy), contains_iff_isSome.mpr (h.defined x y hxy)⟩⟩
    rw [validate, hstart.mpr h.start_defined, hok]
    exact hacyclic.mpr h.acyclic

end Grammar

/-! ## What rewriting keeps -/

namespace Productions.Valid

variable {P : Productions T N} {start id source dest : N} {xs : List (Symbol T N)}

/-- **Inlining a rule keeps a grammar valid**, unless it is the start symbol's. -/
theorem inlined (hv : P.Valid start) (hid : P id = some xs) (hs : id ≠ start) :
    (P.inlined id xs).Valid start where
  start_defined := by
    rw [Productions.inlined, if_neg hs.symm, Option.isSome_map]
    exact hv.start_defined
  nonempty := by
    intro x us hx
    rw [Productions.inlined] at hx
    split at hx
    · cases hx
    · obtain ⟨ss, hss, rfl⟩ := Option.map_eq_some_iff.mp hx
      exact spliced_ne_nil (hv.nonempty id xs hid) (hv.nonempty x ss hss)
  defined := by
    intro x y hxy
    have hy : y ≠ id ∧ (P y).isSome := by
      rcases (refers_inlined hid).mp hxy with ⟨-, ⟨hne, hold⟩ | ⟨-, hold⟩⟩
      · exact ⟨hne, hv.defined x y hold⟩
      · exact ⟨fun he => hv.acyclic.not_refers_self id (by rwa [he] at hold), hv.defined id y hold⟩
    rw [Productions.inlined, if_neg hy.1, Option.isSome_map]
    exact hy.2
  unreferenced := by
    intro x hx
    rcases (refers_inlined hid).mp hx with ⟨-, ⟨-, hold⟩ | ⟨-, hold⟩⟩
    · exact hv.unreferenced x hold
    · exact hv.unreferenced id hold
  acyclic := acyclic_inlined hv.acyclic hid

theorem isSome_merged {x : N} (hx : x ≠ source) :
    (P.merged source dest x).isSome = (P x).isSome := by
  rw [Productions.merged, Productions.inlined, if_neg hx, Option.isSome_map, copied]
  split
  · rw [Option.isSome_map]
  · rfl

/-- **Merging two rules keeps a grammar valid** if it closes no loop through `dest` and leaves the
new start symbol unreferenced. -/
theorem merged (hv : P.Valid start) (hne : source ≠ dest) (hsource : (P source).isSome)
    (hdest : (P dest).isSome) (hloop : ¬ (P.merged source dest).Loops dest)
    (hfree : ∀ x, ¬ (P.merged source dest).Refers x (redirect source dest start)) :
    (P.merged source dest).Valid (redirect source dest start) where
  start_defined := by
    by_cases hs : start = source
    · rw [hs, redirect_source, isSome_merged hne.symm]
      exact hdest
    · rw [redirect_of_ne hs, isSome_merged hs]
      exact hv.start_defined
  nonempty := by
    obtain ⟨xs, hxs⟩ := Option.isSome_iff_exists.mp hsource
    have hcopied : ∀ x ss, P.copied source dest x = some ss → ss ≠ [] := by
      intro x ss hx
      rw [copied] at hx
      split at hx
      · obtain ⟨vs, hvs, rfl⟩ := Option.map_eq_some_iff.mp hx
        rw [hxs]
        exact spliced_ne_nil (hv.nonempty source xs hxs) (hv.nonempty x vs hvs)
      · exact hv.nonempty x ss hx
    intro x us hx
    rw [Productions.merged, Productions.inlined] at hx
    split at hx
    · cases hx
    · obtain ⟨ss, hss, rfl⟩ := Option.map_eq_some_iff.mp hx
      exact spliced_ne_nil (List.cons_ne_nil _ _) (hcopied x ss hss)
  defined := by
    intro x y hxy
    obtain ⟨hx, z, hz, rfl⟩ := refers_merged.mp hxy
    by_cases hzs : z = source
    · rw [hzs, redirect_source, isSome_merged hne.symm]
      exact hdest
    · rw [redirect_of_ne hzs, isSome_merged hzs]
      by_cases hxd : x = dest
      · subst hxd
        rcases refers_copied_dest.mp hz with ⟨-, hold⟩ | ⟨-, hold⟩
        · exact hv.defined _ _ hold
        · exact hv.defined _ _ hold
      · exact hv.defined _ _ ((refers_copied_of_ne hxd).mp hz)
  unreferenced := hfree
  acyclic := acyclic_merged hv.acyclic hloop

/-! ## Words -/

omit [DecidableEq N] in
/-- Unfolding leaves something of everything. -/
theorem unfolds_ne_nil (hv : P.Valid start) {ss us : List (Symbol T N)} (h : P.Unfolds ss us)
    (hss : ss ≠ []) : us ≠ [] := by
  induction h with
  | nil => exact absurd rfl hss
  | terminal _ _ => exact List.cons_ne_nil _ _
  | keep _ _ _ => exact List.cons_ne_nil _ _
  | @replace id b v ss us hb _ _ ihb _ =>
    have hbody : v ≠ [] := ihb (hv.nonempty id b hb)
    simp [hbody]

end Productions.Valid

/-- **Every rule of a valid grammar has a word**, which is not empty. -/
theorem Grammar.Valid.exists_word {g : Grammar T N} (hv : g.Valid) {x : N}
    (hx : g.contains x = true) : ∃ w, w ≠ [] ∧ g.productions.Derives x w := by
  obtain ⟨w, hw⟩ := exists_derives hv.acyclic hv.defined (contains_iff_isSome.mp hx)
  refine ⟨w, ?_, hw⟩
  rintro rfl
  have hunfolds := Productions.derives_iff_unfolds.mp hw
  exact Productions.Valid.unfolds_ne_nil hv hunfolds (List.cons_ne_nil _ _) rfl

end StraightLine
