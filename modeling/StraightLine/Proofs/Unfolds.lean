import StraightLine.Proofs.Productions

/-!
# Replacing references by bodies

`Unfolds P ss us` says that the symbols `ss` become `us` when every reference to a name that has a
body in `P` is replaced by this body, and the references in it again, until none is left. A
reference to a name without a body stays.

* `Unfolds.unique` — there is at most one result, and `exists_unfolds_of_clear` — where no loop is
  within reach there is one. `Unfolds.not_loops` is the converse: nothing that is replaced loops.
* `Unfolds.stuck` — what is left refers to names without bodies.
* `Unfolds.iff_of_extends` — **unfolding in two stages**: after the names of `P` were replaced, to
  replace all names of a larger `Q` gives what `Q` gives at once. Everything about rewriting a
  grammar step by step comes from it.
-/

namespace StraightLine

open Relation (ReflTransGen TransGen)

variable {T N : Type}

namespace Productions

/-- The references of `ss` to names with a body are replaced by the bodies, over and over. -/
inductive Unfolds (P : Productions T N) : List (Symbol T N) → List (Symbol T N) → Prop
  | nil : Unfolds P [] []
  | terminal {t ss us} : Unfolds P ss us → Unfolds P (.terminal t :: ss) (.terminal t :: us)
  /-- There is nothing to put in the place of the reference. -/
  | keep {id ss us} : P id = none → Unfolds P ss us →
      Unfolds P (.nonterminal id :: ss) (.nonterminal id :: us)
  /-- The body is unfolded too. -/
  | replace {id b v ss us} : P id = some b → Unfolds P b v → Unfolds P ss us →
      Unfolds P (.nonterminal id :: ss) (v ++ us)

/-- `Q` has the bodies of `P`, and perhaps more. -/
def Extends (Q P : Productions T N) : Prop := ∀ id b, P id = some b → Q id = some b

variable {P Q : Productions T N}

namespace Unfolds

/-! ## Lists of symbols -/

theorem append {ss us ss' us' : List (Symbol T N)} (h : Unfolds P ss us) (h' : Unfolds P ss' us') :
    Unfolds P (ss ++ ss') (us ++ us') := by
  induction h with
  | nil => exact h'
  | terminal _ ih => exact .terminal ih
  | keep hn _ ih => exact .keep hn ih
  | replace hb hv _ _ ih =>
    rw [List.append_assoc]
    exact .replace hb hv ih

theorem of_append {ss ss' ws : List (Symbol T N)} (h : Unfolds P (ss ++ ss') ws) :
    ∃ us us', ws = us ++ us' ∧ Unfolds P ss us ∧ Unfolds P ss' us' := by
  induction ss generalizing ws with
  | nil => exact ⟨[], ws, rfl, .nil, h⟩
  | cons s ss ih =>
    cases h with
    | terminal h =>
      obtain ⟨us, us', rfl, hs, hs'⟩ := ih h
      exact ⟨_, us', rfl, .terminal hs, hs'⟩
    | keep hn h =>
      obtain ⟨us, us', rfl, hs, hs'⟩ := ih h
      exact ⟨_, us', rfl, .keep hn hs, hs'⟩
    | @replace _ _ v _ _ hb hv h =>
      obtain ⟨us, us', rfl, hs, hs'⟩ := ih h
      exact ⟨v ++ us, us', (List.append_assoc ..).symm, .replace hb hv hs, hs'⟩

/-- A single reference with a body unfolds as the body does. -/
theorem reference {id : N} {b us : List (Symbol T N)} (hb : P id = some b) (h : Unfolds P b us) :
    Unfolds P [.nonterminal id] us := by
  simpa using Unfolds.replace hb h .nil

theorem of_reference {id : N} {b us : List (Symbol T N)} (hb : P id = some b)
    (h : Unfolds P [.nonterminal id] us) : Unfolds P b us := by
  cases h with
  | keep hn _ => rw [hb] at hn; cases hn
  | replace hb' hv hnil =>
    rw [hb] at hb'
    cases hb'
    cases hnil
    rwa [List.append_nil]

/-- Symbols without a reference to a name with a body stay as they are. -/
theorem self {ss : List (Symbol T N)} (h : ∀ id, .nonterminal id ∈ ss → P id = none) :
    Unfolds P ss ss := by
  induction ss with
  | nil => exact .nil
  | cons s ss ih =>
    have hss : Unfolds P ss ss := ih fun id hid => h id (List.mem_cons_of_mem _ hid)
    cases s with
    | terminal t => exact .terminal hss
    | nonterminal id => exact .keep (h id List.mem_cons_self) hss

/-! ## Uniqueness and what is left -/

/-- **Unfolding has at most one result.** -/
theorem unique {ss us us' : List (Symbol T N)} (h : Unfolds P ss us) (h' : Unfolds P ss us') :
    us = us' := by
  induction h generalizing us' with
  | nil => cases h'; rfl
  | terminal _ ih =>
    cases h' with
    | terminal h' => rw [ih h']
  | keep hn _ ih =>
    cases h' with
    | keep _ h' => rw [ih h']
    | replace hb _ _ => rw [hn] at hb; cases hb
  | replace hb _ _ ihv ih =>
    cases h' with
    | keep hn _ => rw [hn] at hb; cases hb
    | replace hb' hv' h' =>
      rw [hb] at hb'
      cases hb'
      rw [ihv hv', ih h']

/-- What is left refers to names without bodies. -/
theorem stuck {ss us : List (Symbol T N)} (h : Unfolds P ss us) {id : N}
    (hid : .nonterminal id ∈ us) : P id = none := by
  induction h with
  | nil => cases hid
  | terminal _ ih => exact ih (by simpa using hid)
  | keep hn _ ih =>
    rcases List.mem_cons.mp hid with he | hid
    · cases he; exact hn
    · exact ih hid
  | replace _ _ _ ihv ih =>
    rcases List.mem_append.mp hid with hid | hid
    · exact ihv hid
    · exact ih hid

end Unfolds

/-! ## Unfolding and loops -/

/-- A name from which every chain of references ends is in no loop. -/
theorem not_loops_of_acc {x : N} (h : Acc (fun y x => P.Refers x y) x) : ¬ P.Loops x := by
  induction h with
  | intro x _ ih =>
    intro hx
    obtain ⟨y, hxy, hyx⟩ := TransGen.head'_iff.mp hx
    exact ih y hxy (TransGen.tail' hyx hxy)

theorem Unfolds.acc {ss us : List (Symbol T N)} (h : Unfolds P ss us) {x : N}
    (hx : .nonterminal x ∈ ss) : Acc (fun y x => P.Refers x y) x := by
  induction h generalizing x with
  | nil => cases hx
  | terminal _ ih => exact ih (by simpa using hx)
  | @keep id _ _ hn _ ih =>
    rcases List.mem_cons.mp hx with he | hx
    · cases he
      exact ⟨id, fun y hxy => absurd hxy (not_refers_of_eq_none hn)⟩
    · exact ih hx
  | @replace id b v ss us hb _ _ ihb ih =>
    rcases List.mem_cons.mp hx with he | hx
    · cases he
      refine ⟨id, fun y ⟨b', hb', hy⟩ => ?_⟩
      rw [hb] at hb'
      cases hb'
      exact ihb hy
    · exact ih hx

/-- **What can be unfolded has no loop in it.** -/
theorem Unfolds.not_loops {ss us : List (Symbol T N)} (h : Unfolds P ss us) {x y : N}
    (hx : .nonterminal x ∈ ss) (hxy : P.Reaches x y) : ¬ P.Loops y := by
  have hacc : Acc (fun y x => P.Refers x y) x := h.acc hx
  refine not_loops_of_acc ?_
  induction hxy with
  | refl => exact hacc
  | tail _ hyz ih => exact ih.inv hyz

/-! ## Unfolding in two stages -/

/-- **Unfolding in two stages.** To replace some of the names first makes no difference. -/
theorem Unfolds.iff_of_extends (hQ : Q.Extends P) {ss ts : List (Symbol T N)} (h : Unfolds P ss ts)
    (us : List (Symbol T N)) : Unfolds Q ss us ↔ Unfolds Q ts us := by
  induction h generalizing us with
  | nil => exact Iff.rfl
  | terminal _ ih =>
    constructor
    · rintro (_ | ⟨hs⟩)
      exact .terminal ((ih _).mp hs)
    · rintro (_ | ⟨hs⟩)
      exact .terminal ((ih _).mpr hs)
  | keep _ _ ih =>
    constructor
    · rintro (_ | _ | ⟨hn, hs⟩ | ⟨hb, hv, hs⟩)
      · exact .keep hn ((ih _).mp hs)
      · exact .replace hb hv ((ih _).mp hs)
    · rintro (_ | _ | ⟨hn, hs⟩ | ⟨hb, hv, hs⟩)
      · exact .keep hn ((ih _).mpr hs)
      · exact .replace hb hv ((ih _).mpr hs)
  | @replace id b v ss ts hb _ _ ihb ih =>
    constructor
    · intro hs
      cases hs with
      | keep hn _ => rw [hQ _ _ hb] at hn; cases hn
      | replace hb' hv hs =>
        rw [hQ _ _ hb] at hb'
        cases hb'
        exact ((ihb _).mp hv).append ((ih _).mp hs)
    · intro hs
      obtain ⟨us, us', rfl, hv, hs⟩ := hs.of_append
      exact .replace (hQ _ _ hb) ((ihb _).mpr hv) ((ih _).mpr hs)

/-- A list of symbols unfolds if each of its references does. -/
theorem Unfolds.exists_of_references {ss : List (Symbol T N)}
    (h : ∀ id, .nonterminal id ∈ ss → ∃ us, Unfolds P [.nonterminal id] us) :
    ∃ us, Unfolds P ss us := by
  induction ss with
  | nil => exact ⟨[], .nil⟩
  | cons s ss ih =>
    obtain ⟨us, hus⟩ := ih fun id hid => h id (List.mem_cons_of_mem _ hid)
    cases s with
    | terminal t => exact ⟨_, .terminal hus⟩
    | nonterminal id =>
      obtain ⟨v, hv⟩ := h id List.mem_cons_self
      exact ⟨v ++ us, hv.append hus⟩

end Productions

/-! ## Unfolding the rules of a grammar -/

section

variable [DecidableEq N] {rules : OrderedMap N (Body T N)}

open Productions

/-- **A name can be unfolded where no loop is within reach.** Loops elsewhere do not matter. -/
theorem exists_unfolds_of_clear {id : N} (hid : (productionsOf rules).Clear id) :
    ∃ us, (productionsOf rules).Unfolds [.nonterminal id] us := by
  have key : ∀ path : List N, ∀ id, (productionsOf rules).Leads path id →
      (productionsOf rules).Clear id → ∃ us, (productionsOf rules).Unfolds [.nonterminal id] us := by
    refine path_induction rules fun path ih => ?_
    intro id hlead hid
    -- a rule that is entered is new on the path, or it would loop
    cases hP : productionsOf rules id with
    | none => exact ⟨_, .keep hP .nil⟩
    | some b =>
      have hkey : id ∈ rules.keys := mem_keys_of_productionsOf hP
      have hpath : id ∉ path := fun hmem => hid id (.refl id) (hlead.loops_of_mem hmem)
      have hbody : ∃ us, (productionsOf rules).Unfolds b us := by
        refine Unfolds.exists_of_references fun y hy => ?_
        have hrefers : (productionsOf rules).Refers id y := ⟨b, hP, hy⟩
        exact ih id hkey hpath y (hlead.cons hrefers) (hid.of_reaches (.single hrefers))
      obtain ⟨us, hus⟩ := hbody
      exact ⟨us, .reference hP hus⟩
  exact key [] id (.nil id) hid

/-- **Without loops everything can be unfolded.** -/
theorem exists_unfolds (hac : (productionsOf rules).Acyclic) (ss : List (Symbol T N)) :
    ∃ us, (productionsOf rules).Unfolds ss us :=
  Unfolds.exists_of_references fun id _ => exists_unfolds_of_clear (hac.clear id)

end

end StraightLine
