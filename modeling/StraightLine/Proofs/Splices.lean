import Mathlib.Data.List.Nodup
import Mathlib.Data.List.Perm.Subperm
import StraightLine.Proofs.Edits

/-!
# Replacements at different positions

Whoever edits a sequence at several places collects the positions first. Every edit but the first
one then happens beside what earlier ones have left, and in another order the links and the new
positions come out differently. The elements do not.

* `Sequence.replaceAll` — replaces the elements at several positions, one after the other, each by a
  list of its own.
* `Sequence.inPlaceOf` — the same in the list of entries, for all positions at once. There is no
  order in it.
* `Sequence.Targets` — different positions of a sequence, which is all that is asked of them.
* `toList_replaceAll` — the two agree, and `filter_entries_replaceAll` — of the old entries those
  are left that were not replaced, in their order.
* `Sequence.replacements_independent` — **every order does the same.**
-/

namespace StraightLine

namespace Sequence

variable {α : Type}

/-! ## One position after the other, and all at once -/

/-- Puts the elements `body p` in the place of the one at `p`, for each position `p` of the list in
turn, and returns the elements that were there. -/
def replaceAll (body : Position → List α) (s : Sequence α) :
    List Position → List (Option α) × Sequence α
  | [] => ([], s)
  | p :: ps =>
    let (x, s) := s.replaceAt p (body p)
    let (xs, s) := s.replaceAll body ps
    (x :: xs, s)

@[simp] theorem replaceAll_nil (body : Position → List α) (s : Sequence α) :
    s.replaceAll body [] = ([], s) := rfl

@[simp] theorem replaceAll_cons (body : Position → List α) (s : Sequence α) (p : Position)
    (ps : List Position) :
    s.replaceAll body (p :: ps) =
      ((s.replaceAt p (body p)).1 :: ((s.replaceAt p (body p)).2.replaceAll body ps).1,
        ((s.replaceAt p (body p)).2.replaceAll body ps).2) := rfl

/-- What an entry becomes when the elements at the positions `ps` are replaced. -/
def inPlaceOf (body : Position → List α) (ps : List Position) (e : Position × α) : List α :=
  if e.1 ∈ ps then body e.1 else [e.2]

variable {body : Position → List α} {s : Sequence α} {p : Position} {ps : List Position}

/-- Elements that are not replaced stay. -/
theorem flatMap_inPlaceOf_eq_map {es : List (Position × α)} (h : ∀ e ∈ es, e.1 ∉ ps) :
    es.flatMap (inPlaceOf body ps) = es.map Prod.snd := by
  rw [List.map_eq_flatMap]
  exact List.flatMap_congr fun e he => if_neg (h e he)

/-- A position that does not occur makes no difference. -/
theorem flatMap_inPlaceOf_cons {es : List (Position × α)} (h : ∀ e ∈ es, e.1 ≠ p) :
    es.flatMap (inPlaceOf body (p :: ps)) = es.flatMap (inPlaceOf body ps) := by
  refine List.flatMap_congr fun e he => ?_
  simp [inPlaceOf, h e he]

/-! ## One replacement -/

/-- The entries of the other positions stay, in their order. -/
theorem sublist_replaceAt (s : Sequence α) (p : Position) (xs : List α) :
    (s.entries.filter fun e => e.1 ≠ p).Sublist (s.replaceAt p xs).2.entries := by
  by_cases hp : p ∈ s.positions
  · obtain ⟨l, x, r, h⟩ := exists_entries_eq hp
    obtain ⟨-, fs, -, -, hentries⟩ := s.entries_replaceAt h xs
    obtain ⟨hl, hr⟩ := ne_of_entries_eq h
    have hfilter : (s.entries.filter fun e => e.1 ≠ p) = l ++ r := by
      rw [h, List.filter_append, List.filter_cons_of_neg (by simp),
        List.filter_eq_self.mpr (by simpa using hl), List.filter_eq_self.mpr (by simpa using hr)]
    rw [hfilter, hentries]
    exact (List.sublist_append_left l fs).append (List.Sublist.refl r)
  · rw [replaceAt_of_not_live hp]
    exact List.filter_sublist

/-- The other positions name what they did. -/
theorem get?_replaceAt_of_ne {q : Position} (hq : q ∈ s.positions) (hne : q ≠ p) (xs : List α) :
    (s.replaceAt p xs).2.get? q = s.get? q := by
  obtain ⟨e, he, rfl⟩ := List.mem_map.mp hq
  have hkeep : e ∈ s.entries.filter fun e => e.1 ≠ p := List.mem_filter.mpr ⟨he, by simpa using hne⟩
  rw [(s.get?_eq_some_iff e.1 e.2).mpr he, get?_eq_some_iff]
  exact (s.sublist_replaceAt p xs).subset hkeep

theorem mem_positions_replaceAt {q : Position} (hq : q ∈ s.positions) (hne : q ≠ p)
    (xs : List α) : q ∈ (s.replaceAt p xs).2.positions := by
  rw [← isSome_get?_iff] at hq ⊢
  rwa [get?_replaceAt_of_ne ((s.isSome_get?_iff q).mp hq) hne]

/-- The slot of what was replaced moves on, and no other one. -/
theorem ahead_replaceAt {q : Position} {n : Nat} (hp : p ∈ s.positions) (h : s.Ahead q n)
    (hne : p.slot ≠ q.slot) (xs : List α) : (s.replaceAt p xs).2.Ahead q n := by
  have hahead := (ages_replaceAt hp xs).ahead q n h
  rwa [if_neg hne, Nat.add_zero] at hahead

theorem ahead_replaceAt_self (hp : p ∈ s.positions) (xs : List α) :
    (s.replaceAt p xs).2.Ahead p 1 := by
  have hahead := (ages_replaceAt hp xs).ahead p 0 (ahead_zero hp)
  rwa [if_pos rfl] at hahead

/-! ## Several replacements -/

/-- The positions `ps` are different ones of the sequence. -/
structure Targets (s : Sequence α) (ps : List Position) : Prop where
  distinct : ps.Nodup
  live : ∀ p ∈ ps, p ∈ s.positions

namespace Targets

theorem here (h : s.Targets (p :: ps)) : p ∈ s.positions := h.live p List.mem_cons_self

theorem later (h : s.Targets (p :: ps)) {q : Position} (hq : q ∈ ps) : q ∈ s.positions :=
  h.live q (List.mem_cons_of_mem p hq)

theorem ne (h : s.Targets (p :: ps)) {q : Position} (hq : q ∈ ps) : q ≠ p := by
  rintro rfl
  exact (List.nodup_cons.mp h.distinct).1 hq

/-- A replacement leaves the positions of the later ones. -/
theorem tail (h : s.Targets (p :: ps)) (xs : List α) : (s.replaceAt p xs).2.Targets ps where
  distinct := (List.nodup_cons.mp h.distinct).2
  live _ hq := mem_positions_replaceAt (h.later hq) (h.ne hq) xs

end Targets

/-- A slot that is replaced in nowhere stays as far as it is. -/
theorem ahead_replaceAll {n : Nat} (h : s.Targets ps) (hp : s.Ahead p n)
    (hne : ∀ q ∈ ps, q.slot ≠ p.slot) : (s.replaceAll body ps).2.Ahead p n := by
  induction ps generalizing s with
  | nil => exact hp
  | cons q ps ih =>
    have hfirst := ahead_replaceAt h.here hp (hne q List.mem_cons_self) (body q)
    exact ih (h.tail _) hfirst fun r hr => hne r (List.mem_cons_of_mem q hr)

/-- Every replacement finds what was at its position at the outset. -/
theorem replaceAll_fst (h : s.Targets ps) : (s.replaceAll body ps).1 = ps.map s.get? := by
  induction ps generalizing s with
  | nil => rfl
  | cons p ps ih =>
    have htaken : (s.replaceAt p (body p)).1 = s.get? p := by
      obtain ⟨l, x, r, hsplit⟩ := exists_entries_eq h.here
      rw [(s.entries_replaceAt hsplit (body p)).1, (s.get?_eq_some_iff p x).mpr (by simp [hsplit])]
    have hsame : ∀ q ∈ ps, (s.replaceAt p (body p)).2.get? q = s.get? q :=
      fun q hq => get?_replaceAt_of_ne (h.later hq) (h.ne hq) (body p)
    rw [replaceAll_cons, htaken, ih (h.tail _), List.map_cons, List.map_congr_left hsame]

/-- **One after the other or all at once**, the elements are the same. -/
theorem toList_replaceAll (h : s.Targets ps) :
    (s.replaceAll body ps).2.toList = s.entries.flatMap (inPlaceOf body ps) := by
  induction ps generalizing s with
  | nil => exact (flatMap_inPlaceOf_eq_map fun _ _ => List.not_mem_nil).symm
  | cons p ps ih =>
    obtain ⟨l, x, r, hsplit⟩ := exists_entries_eq h.here
    obtain ⟨-, fs, hfs, hnew, hentries⟩ := s.entries_replaceAt hsplit (body p)
    obtain ⟨hl, hr⟩ := ne_of_entries_eq hsplit
    -- later positions are old ones, so what was put in is not replaced again
    have hput : fs.flatMap (inPlaceOf body ps) = body p := by
      rw [flatMap_inPlaceOf_eq_map fun f hf hps => hnew f hf (h.later hps), hfs]
    have hself : inPlaceOf body (p :: ps) (p, x) = body p := if_pos List.mem_cons_self
    rw [replaceAll_cons, ih (h.tail _), hentries, hsplit, List.flatMap_append, List.flatMap_append,
      List.flatMap_append, List.flatMap_cons, hput, hself, flatMap_inPlaceOf_cons hl,
      flatMap_inPlaceOf_cons hr, List.append_assoc]

/-- What is not replaced stays, in its order. -/
theorem sublist_replaceAll (body : Position → List α) (ps : List Position) (s : Sequence α) :
    (s.entries.filter fun e => e.1 ∉ ps).Sublist (s.replaceAll body ps).2.entries := by
  induction ps generalizing s with
  | nil => simp
  | cons p ps ih =>
    have hfilter : (s.entries.filter fun e => e.1 ∉ p :: ps) =
        (s.entries.filter fun e => e.1 ≠ p).filter fun e => e.1 ∉ ps := by
      rw [List.filter_filter]
      refine List.filter_congr fun e _ => ?_
      simp [Bool.and_comm]
    rw [hfilter]
    exact ((s.sublist_replaceAt p (body p)).filter _).trans (ih _)

/-- What was replaced is gone: its slot is one generation further, and the later replacements are
made in other slots. -/
theorem not_mem_replaceAll (h : s.Targets ps) (hp : p ∈ ps) :
    p ∉ (s.replaceAll body ps).2.positions := by
  induction ps generalizing s with
  | nil => cases hp
  | cons q ps ih =>
    rcases List.mem_cons.mp hp with rfl | hp
    · have hslots : ∀ q ∈ ps, q.slot ≠ p.slot := fun q hq hslot =>
        h.ne hq (eq_of_slot_eq (h.later hq) h.here hslot)
      have hahead := ahead_replaceAt_self h.here (body p)
      exact (ahead_replaceAll (h.tail _) hahead hslots).not_mem Nat.one_pos (by decide)
    · exact ih (h.tail _) hp

/-- An old entry that is left was not replaced, and it has the element that it had. -/
theorem mem_of_mem_replaceAll (h : s.Targets ps) {e : Position × α}
    (he : e ∈ (s.replaceAll body ps).2.entries) (hold : e.1 ∈ s.positions) :
    e ∈ s.entries ∧ e.1 ∉ ps := by
  have hout : e.1 ∉ ps := fun hps => not_mem_replaceAll h hps (List.mem_map_of_mem he)
  obtain ⟨⟨p, x⟩, hx, hp⟩ := List.mem_map.mp hold
  obtain rfl : p = e.1 := hp
  have hkept : (e.1, x) ∈ (s.replaceAll body ps).2.entries :=
    (sublist_replaceAll body ps s).subset (List.mem_filter.mpr ⟨hx, by simpa using hout⟩)
  have hsame : x = e.2 := by
    rw [← get?_eq_some_iff] at he hkept
    exact Option.some.inj (hkept.symm.trans he)
  exact ⟨by rwa [hsame] at hx, hout⟩

/-- **Of the old positions exactly those are left that were not replaced**, with their elements and
in their order. -/
theorem filter_entries_replaceAll (h : s.Targets ps) :
    ((s.replaceAll body ps).2.entries.filter fun e => e.1 ∈ s.positions) =
      s.entries.filter fun e => e.1 ∉ ps := by
  have hsublist : (s.entries.filter fun e => e.1 ∉ ps).Sublist
      ((s.replaceAll body ps).2.entries.filter fun e => e.1 ∈ s.positions) := by
    have hself : ((s.entries.filter fun e => e.1 ∉ ps).filter fun e => e.1 ∈ s.positions) =
        s.entries.filter fun e => e.1 ∉ ps := by
      refine List.filter_eq_self.mpr fun e he => ?_
      rw [decide_eq_true_eq]
      exact List.mem_map_of_mem (List.mem_filter.mp he).1
    rw [← hself]
    exact (sublist_replaceAll body ps s).filter _
  have hsubset : ((s.replaceAll body ps).2.entries.filter fun e => e.1 ∈ s.positions) ⊆
      s.entries.filter fun e => e.1 ∉ ps := by
    intro e he
    obtain ⟨hmem, hold⟩ := List.mem_filter.mp he
    obtain ⟨hin, hout⟩ := mem_of_mem_replaceAll h hmem (of_decide_eq_true hold)
    exact List.mem_filter.mpr ⟨hin, by simpa using hout⟩
  have hnodup : (s.replaceAll body ps).2.entries.Nodup :=
    List.Nodup.of_map Prod.fst (s.replaceAll body ps).2.nodup_positions
  have hlength := ((List.Nodup.filter _ hnodup).subperm hsubset).length_le
  exact (hsublist.eq_of_length_le hlength).symm

/-- **Replacements at different positions are independent.** Whatever edits were made before, take
any different positions of the sequence and for each of them a list of elements, which may be empty.
In whatever order the elements at these positions are replaced by these lists, each replacement
returns the element that was at its position at the outset, and in the end the elements are the old
ones with the lists in the place of those at the chosen positions. So all orders end in the same
elements. Of the old positions exactly the others are left: they name what they named, and their
order among each other is the old one. -/
theorem replacements_independent (edits : List (Edit α)) (chosen : List Position)
    (hdistinct : chosen.Nodup) (hlive : ∀ p ∈ chosen, p ∈ (run edits).positions)
    (body : Position → List α) :
    let s := run edits
    ∀ order : List Position, order.Perm chosen →
      let done := s.replaceAll body order
      done.1 = order.map s.get? ∧ (∀ p ∈ order, (s.get? p).isSome) ∧
      done.2.toList = s.entries.flatMap (inPlaceOf body chosen) ∧
      done.2.toList = (s.replaceAll body chosen).2.toList ∧
      (∀ p ∈ s.positions, p ∉ chosen → done.2.get? p = s.get? p) ∧
      (done.2.entries.filter fun e => e.1 ∈ s.positions) =
        s.entries.filter fun e => e.1 ∉ chosen := by
  intro s order horder done
  have hchosen : s.Targets chosen := ⟨hdistinct, hlive⟩
  have h : s.Targets order :=
    ⟨horder.nodup_iff.mpr hdistinct, fun p hp => hlive p (horder.mem_iff.mp hp)⟩
  have hsame : inPlaceOf body order = inPlaceOf body chosen := by
    funext e
    simp only [inPlaceOf, horder.mem_iff]
  have hlist : (s.replaceAll body order).2.toList = s.entries.flatMap (inPlaceOf body chosen) := by
    rw [toList_replaceAll h, hsame]
  have hleft : ((s.replaceAll body order).2.entries.filter fun e => e.1 ∈ s.positions) =
      s.entries.filter fun e => e.1 ∉ chosen := by
    rw [filter_entries_replaceAll h]
    simp only [horder.mem_iff]
  refine ⟨replaceAll_fst h, fun p hp => ?_, hlist, ?_, ?_, hleft⟩
  · exact (s.isSome_get?_iff p).mpr (h.live p hp)
  · rw [toList_replaceAll hchosen]
    exact hlist
  · intro p hp hout
    obtain ⟨e, he, rfl⟩ := List.mem_map.mp hp
    have hkept : e ∈ (s.replaceAll body order).2.entries.filter fun e => e.1 ∈ s.positions := by
      rw [hleft]
      exact List.mem_filter.mpr ⟨he, by simpa using hout⟩
    rw [(s.get?_eq_some_iff e.1 e.2).mpr he, get?_eq_some_iff]
    exact (List.mem_filter.mp hkept).1

/-- Two neighbours at the front and the last element are replaced, one of them by two elements and
the others by none. -/
def threeLists (p : Position) : List Char := if p = ⟨1, 1⟩ then ['x', 'y'] else []

/-- Both orders end in the same elements, but the new ones have got other positions. -/
theorem replacements_independent_neighbours :
    let s := run [.extend ['a', 'b', 'c', 'd']]
    let chosen : List Position := [⟨0, 1⟩, ⟨1, 1⟩, ⟨3, 1⟩]
    let order : List Position := [⟨3, 1⟩, ⟨0, 1⟩, ⟨1, 1⟩]
    chosen.Nodup ∧ (∀ p ∈ chosen, p ∈ s.positions) ∧ order.Perm chosen ∧
      (s.replaceAll threeLists order).1 = [some 'd', some 'a', some 'b'] ∧
      (s.replaceAll threeLists order).2.toList = ['x', 'y', 'c'] ∧
      (s.replaceAll threeLists chosen).2.toList = ['x', 'y', 'c'] ∧
      (s.replaceAll threeLists order).2.positions ≠
        (s.replaceAll threeLists chosen).2.positions := by
  intro s chosen order
  have hdistinct : chosen.Nodup := by decide
  have hlive : ∀ p ∈ chosen, p ∈ s.positions := by decide
  have horder : order.Perm chosen := by decide
  obtain ⟨htaken, -, hlist, hsame, -⟩ :=
    replacements_independent [.extend ['a', 'b', 'c', 'd']] chosen hdistinct hlive threeLists order
      horder
  have hchars : s.entries.flatMap (inPlaceOf threeLists chosen) = ['x', 'y', 'c'] := by decide
  refine ⟨hdistinct, hlive, horder, ?_, hlist.trans hchars, ?_, by decide⟩
  · rw [htaken]
    decide
  · rw [← hsame, hlist, hchars]

end Sequence

end StraightLine
