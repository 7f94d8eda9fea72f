import StraightLine.Proofs.Unfolds

/-!
# The word that a nonterminal derives

`Productions.Derives P id w` is the meaning of a rule: `w` is the concatenation, along the body of
the rule, of the letters and of the words that the references derive. Derivations are finite, so a
name that loops, or that reaches one without a rule, derives nothing.

* `derives_iff_unfolds` — a name derives a word exactly if it unfolds to letters alone.
* `Derives.unique` — it derives at most one, so two names that share a word share all
  (`derives_iff_of_common`).
* `Yields.append_iff` — a word is yielded piece by piece.
* `Yields.congr` — it depends on nothing but the rules that can be reached.
* `Derives.not_loops` — nothing that a deriving name reaches is in a loop, and `exists_derives` —
  without loops every rule has a word, if every reference goes to a rule.
-/

namespace StraightLine

variable {T N : Type}

namespace Productions

/-- `w` is the concatenation, from left to right, of the letters in `ss` and of words that the
references in `ss` derive. -/
inductive Yields (P : Productions T N) : List (Symbol T N) → List T → Prop
  | nil : Yields P [] []
  | terminal {t ss w} : Yields P ss w → Yields P (.terminal t :: ss) (t :: w)
  | reference {id b u ss w} : P id = some b → Yields P b u → Yields P ss w →
      Yields P (.nonterminal id :: ss) (u ++ w)

/-- `id` has a rule, and its body yields `w`. -/
def Derives (P : Productions T N) (id : N) (w : List T) : Prop :=
  ∃ b, P id = some b ∧ Yields P b w

variable {P Q : Productions T N}

theorem Derives.isSome {id : N} {w : List T} (h : P.Derives id w) : (P id).isSome := by
  obtain ⟨b, hb, -⟩ := h
  rw [hb]
  rfl

theorem Yields.unfolds {ss : List (Symbol T N)} {w : List T} (h : Yields P ss w) :
    Unfolds P ss (w.map .terminal) := by
  induction h with
  | nil => exact .nil
  | terminal _ ih => exact .terminal ih
  | reference hb _ _ ihb ih =>
    rw [List.map_append]
    exact .replace hb ihb ih

theorem Unfolds.yields {ss us : List (Symbol T N)} (h : Unfolds P ss us) {w : List T}
    (hw : us = w.map .terminal) : Yields P ss w := by
  induction h generalizing w with
  | nil =>
    obtain rfl := List.map_eq_nil_iff.mp hw.symm
    exact .nil
  | terminal _ ih =>
    obtain ⟨t, w, rfl, ht, hrest⟩ := List.map_eq_cons_iff.mp hw.symm
    cases ht
    exact .terminal (ih hrest.symm)
  | keep _ _ _ =>
    obtain ⟨t, _, -, ht, -⟩ := List.map_eq_cons_iff.mp hw.symm
    cases ht
  | replace hb _ _ ihb ih =>
    obtain ⟨u, w, rfl, hu, hrest⟩ := List.map_eq_append_iff.mp hw.symm
    exact .reference hb (ihb hu.symm) (ih hrest.symm)

/-- **Deriving a word is unfolding to letters.** -/
theorem derives_iff_unfolds {id : N} {w : List T} :
    P.Derives id w ↔ P.Unfolds [.nonterminal id] (w.map .terminal) := by
  constructor
  · rintro ⟨b, hb, h⟩
    exact .reference hb h.unfolds
  · intro h
    cases hP : P id with
    | none =>
      -- the reference itself would be left, and it is no letter
      have := h.unique (.keep hP .nil)
      cases w with
      | nil => cases this
      | cons t w => cases this
    | some b => exact ⟨b, hP, (h.of_reference hP).yields rfl⟩

/-- A name derives at most one word. -/
theorem Derives.unique {id : N} {w w' : List T} (h : P.Derives id w) (h' : P.Derives id w') :
    w = w' := by
  have hu := (derives_iff_unfolds.mp h).unique (derives_iff_unfolds.mp h')
  exact List.map_inj_right (fun _ _ ht => Symbol.terminal.inj ht) |>.mp hu

/-- Two names that derive one and the same word derive no other, so they derive the same words. -/
theorem derives_iff_of_common {a b : N} {u : List T} (ha : P.Derives a u) (hb : P.Derives b u)
    (w : List T) : P.Derives a w ↔ P.Derives b w := by
  constructor
  · intro h
    rwa [← ha.unique h]
  · intro h
    rwa [← hb.unique h]

/-- Whatever a deriving name reaches is in no loop. -/
theorem Derives.not_loops {id x : N} {w : List T} (h : P.Derives id w) (hx : P.Reaches id x) :
    ¬ P.Loops x :=
  (derives_iff_unfolds.mp h).not_loops List.mem_cons_self hx

/-- **Where every reference goes to a rule, unfolding leaves letters alone.** -/
theorem Unfolds.exists_letters (hdef : ∀ x y, P.Refers x y → (P y).isSome)
    {ss us : List (Symbol T N)} (h : P.Unfolds ss us)
    (hss : ∀ y, .nonterminal y ∈ ss → (P y).isSome) : ∃ w : List T, us = w.map .terminal := by
  induction h with
  | nil => exact ⟨[], rfl⟩
  | @terminal t ss us _ ih =>
    obtain ⟨w, rfl⟩ := ih fun y hy => hss y (List.mem_cons_of_mem _ hy)
    exact ⟨t :: w, rfl⟩
  | @keep id ss us hn _ _ =>
    have hid := hss id List.mem_cons_self
    rw [hn] at hid
    cases hid
  | @replace id b v ss us hb _ _ ihb ih =>
    obtain ⟨u, rfl⟩ := ihb fun y hy => hdef id y ⟨b, hb, hy⟩
    obtain ⟨w, rfl⟩ := ih fun y hy => hss y (List.mem_cons_of_mem _ hy)
    exact ⟨u ++ w, by rw [List.map_append]⟩

/-! ## Words piece by piece -/

theorem Yields.append {ss ss' : List (Symbol T N)} {u w : List T} (h : Yields P ss u)
    (h' : Yields P ss' w) : Yields P (ss ++ ss') (u ++ w) := by
  induction h with
  | nil => exact h'
  | terminal _ ih => exact .terminal ih
  | reference hb hv _ _ ih =>
    rw [List.append_assoc]
    exact .reference hb hv ih

/-- Letters yield themselves. -/
theorem Yields.terminals {ss : List (Symbol T N)} {u : List T} (h : Yields P ss u) (w : List T) :
    Yields P (w.map .terminal ++ ss) (w ++ u) := by
  induction w with
  | nil => exact h
  | cons t w ih => exact .terminal ih

theorem Yields.append_iff {ss ss' : List (Symbol T N)} {w : List T} :
    Yields P (ss ++ ss') w ↔ ∃ u v, w = u ++ v ∧ Yields P ss u ∧ Yields P ss' v := by
  constructor
  · intro h
    induction ss generalizing w with
    | nil => exact ⟨[], w, rfl, .nil, h⟩
    | cons s ss ih =>
      cases h with
      | terminal h =>
        obtain ⟨u, v, rfl, hu, hv⟩ := ih h
        exact ⟨_, v, rfl, .terminal hu, hv⟩
      | @reference _ _ v _ _ hb hbody h =>
        obtain ⟨u, v', rfl, hu, hv⟩ := ih h
        exact ⟨v ++ u, v', (List.append_assoc ..).symm, .reference hb hbody hu, hv⟩
  · rintro ⟨u, v, rfl, hu, hv⟩
    exact hu.append hv

/-- A reference yields what its rule derives. -/
theorem Yields.cons_iff {id : N} {ss : List (Symbol T N)} {w : List T} :
    Yields P (.nonterminal id :: ss) w ↔ ∃ u v, w = u ++ v ∧ P.Derives id u ∧ Yields P ss v := by
  constructor
  · intro h
    cases h with
    | reference hb hu hv => exact ⟨_, _, rfl, ⟨_, hb, hu⟩, hv⟩
  · rintro ⟨u, v, rfl, ⟨b, hb, hu⟩, hv⟩
    exact .reference hb hu hv

/-- What holds of the references of `ss`, passes on to references, and says that both have the
same body, carries words over. -/
theorem Yields.of_agree {S : N → Prop} (hagree : ∀ x, S x → P x = Q x)
    (hclosed : ∀ x y, S x → P.Refers x y → S y) {ss : List (Symbol T N)} {w : List T}
    (h : Yields P ss w) (hss : ∀ y, .nonterminal y ∈ ss → S y) : Yields Q ss w := by
  induction h with
  | nil => exact .nil
  | terminal _ ih => exact .terminal (ih fun y hy => hss y (List.mem_cons_of_mem _ hy))
  | @reference id b u ss w hb _ _ ihb ih =>
    have hid : S id := hss id List.mem_cons_self
    refine .reference (hagree id hid ▸ hb) (ihb fun y hy => ?_)
      (ih fun y hy => hss y (List.mem_cons_of_mem _ hy))
    exact hclosed id y hid ⟨b, hb, hy⟩

/-- **Words depend on nothing but the rules that can be reached.** -/
theorem Yields.congr {S : N → Prop} (hagree : ∀ x, S x → P x = Q x)
    (hclosed : ∀ x y, S x → P.Refers x y → S y) {ss : List (Symbol T N)}
    (hss : ∀ y, .nonterminal y ∈ ss → S y) (w : List T) : Yields P ss w ↔ Yields Q ss w := by
  refine ⟨fun h => h.of_agree hagree hclosed hss, fun h => ?_⟩
  refine h.of_agree (fun x hx => (hagree x hx).symm) (fun x y hx hxy => hclosed x y hx ?_) hss
  unfold Refers at hxy ⊢
  rwa [hagree x hx]

end Productions

/-! ## The words of a grammar -/

/-- **Without loops every rule has a word**, if every reference goes to a rule. -/
theorem exists_derives [DecidableEq N] {rules : OrderedMap N (Body T N)}
    (hac : (productionsOf rules).Acyclic)
    (hdef : ∀ x y, (productionsOf rules).Refers x y → (productionsOf rules y).isSome) {x : N}
    (hx : (productionsOf rules x).isSome) : ∃ w, (productionsOf rules).Derives x w := by
  obtain ⟨us, hus⟩ := exists_unfolds hac [.nonterminal x]
  have hdefined : ∀ y, .nonterminal y ∈ [(.nonterminal x : Symbol T N)] →
      (productionsOf rules y).isSome := by
    intro y hy
    obtain rfl : y = x := by simpa using hy
    exact hx
  obtain ⟨w, rfl⟩ := hus.exists_letters hdef hdefined
  exact ⟨w, Productions.derives_iff_unfolds.mpr hus⟩

end StraightLine
