import StraightLine.Sequence.Basic

/-!
# The lifetime of a position

A position names its element from the edit that issues it to the edit that takes the element out.
What happens afterwards is decided by the slot in the arena: it is used again, in one generation
after the other, until the generations come round.

* `Sequence.Ahead s p n` — the slot of `p` is `n` generations further than `p`. Unless it has gone
  through all of them, `p` names nothing (`Ahead.not_mem`).
* `Sequence.Ages` — what an edit does to all positions together. It is known by how many elements
  it takes out of each slot: so many generations the slot moves on, and what is in a slot that
  nothing was taken out of stays. Every edit is of this kind (`ages_extend`, `ages_replaceAt`, …).
* `Sequence.not_mem_remove`, `Sequence.not_mem_replaceAt` — in the slot that an edit has emptied
  there is nothing directly afterwards, and `Sequence.nextPosition_remove` — the next element gets
  it.
-/

namespace StraightLine

variable {α : Type}

/-! ## Slots of nodes -/

namespace Chain

variable {c : Chain α} {k : Position} {n : Nat}

theorem ahead_setNext (h : c.nodes.Ahead k n) (p q : Option Position) :
    (c.setNext p q).nodes.Ahead k n := by
  cases p with
  | none => exact h
  | some p => exact h.modify p _

theorem ahead_setPrev (h : c.nodes.Ahead k n) (q p : Option Position) :
    (c.setPrev q p).nodes.Ahead k n := by
  cases q with
  | none => exact h
  | some q => exact h.modify q _

theorem ahead_insertBetween (h : c.nodes.Ahead k n) (l r : Option Position) (x : α) :
    (c.insertBetween l r x).nodes.Ahead k n := by
  apply ahead_setPrev
  apply ahead_setNext
  exact h.insert _

/-- Only the slot of the node that is taken out moves on. -/
theorem ahead_unlink (h : c.nodes.Ahead k n) {p : Position} (hp : (c.nodes.get? p).isSome) :
    (c.unlink p).nodes.Ahead k (n + if p.slot = k.slot then 1 else 0) := by
  unfold unlink
  split
  · next hn => simp [hn] at hp
  · apply ahead_setPrev
    apply ahead_setNext
    exact h.erase hp

/-- The slot of the node that was taken out is empty. -/
theorem get?_unlink_of_slot_eq {p : Position} (hp : (c.nodes.get? p).isSome)
    (h : k.slot = p.slot) : (c.unlink p).nodes.get? k = none := by
  unfold unlink
  split
  · next hn => simp [hn] at hp
  · rw [get?_setPrev_setNext, Arena.get?_erase_of_slot_eq hp h]
    rfl

theorem nextKey_setNext (c : Chain α) (p q : Option Position) :
    (c.setNext p q).nodes.nextKey = c.nodes.nextKey := by cases p <;> simp [setNext]

theorem nextKey_setPrev (c : Chain α) (q p : Option Position) :
    (c.setPrev q p).nodes.nextKey = c.nodes.nextKey := by cases q <;> simp [setPrev]

theorem nextKey_unlink {p : Position} (hp : (c.nodes.get? p).isSome) :
    (c.unlink p).nodes.nextKey = p.later := by
  unfold unlink
  split
  · next hn => simp [hn] at hp
  · rw [nextKey_setPrev, nextKey_setNext, Arena.nextKey_erase hp]

end Chain

namespace Sequence

variable {s : Sequence α} {p q : Position}

theorem isSome_node_iff : (s.chain.nodes.get? p).isSome ↔ p ∈ s.positions := by
  rw [← isSome_get?_iff, get?, Option.isSome_map]

/-- A position that is there has its place among the entries. -/
theorem exists_entries_eq (h : p ∈ s.positions) : ∃ l x r, s.entries = l ++ (p, x) :: r := by
  obtain ⟨⟨q, x⟩, he, rfl⟩ := List.mem_map.mp h
  obtain ⟨l, r, hlr⟩ := List.append_of_mem he
  exact ⟨l, x, r, hlr⟩

/-- Two positions that are there have different slots. -/
theorem eq_of_slot_eq (hq : q ∈ s.positions) (hp : p ∈ s.positions) (h : q.slot = p.slot) :
    q = p :=
  Arena.eq_of_slot_eq (isSome_node_iff.mpr hq) (isSome_node_iff.mpr hp) h

/-! ## How far a slot is -/

/-- The slot of the position is `n` generations further. -/
def Ahead (s : Sequence α) (p : Position) (n : Nat) : Prop := s.chain.nodes.Ahead p n

/-- A position that is there is in the generation of its slot. -/
theorem ahead_zero (h : p ∈ s.positions) : s.Ahead p 0 := Arena.ahead_zero (isSome_node_iff.mpr h)

/-- Until the generations come round, a position that its slot has left behind names nothing. -/
theorem Ahead.not_mem {n : Nat} (h : s.Ahead p n) (hpos : 0 < n) (hlt : n < Key.generations) :
    p ∉ s.positions := by
  rw [← isSome_node_iff, Arena.Ahead.get?_eq_none h hpos hlt]
  nofun

/-! ## What an edit does to the positions -/

/-- From `s` to `s'`, `taken i` elements are taken out of the slot `i`: so many generations it moves
on, and an entry stays if nothing is taken out of its slot. -/
structure Ages (s : Sequence α) (taken : Nat → Nat) (s' : Sequence α) : Prop where
  ahead : ∀ p n, s.Ahead p n → s'.Ahead p (n + taken p.slot)
  kept : ∀ e ∈ s.entries, taken e.1.slot = 0 → e ∈ s'.entries

theorem Ages.refl (s : Sequence α) : s.Ages (fun _ => 0) s := ⟨fun _ _ h => h, fun _ h _ => h⟩

theorem Ages.trans {s s' s'' : Sequence α} {taken taken' : Nat → Nat} (h : s.Ages taken s')
    (h' : s'.Ages taken' s'') : s.Ages (fun i => taken i + taken' i) s'' where
  ahead p n hp := by
    rw [← Nat.add_assoc]
    exact h'.ahead p _ (h.ahead p n hp)
  kept e he hnone := by
    obtain ⟨hfirst, hsecond⟩ := Nat.add_eq_zero_iff.mp hnone
    exact h'.kept e (h.kept e he hfirst) hsecond

/-- What was in the sequence and is not there now was taken out of its slot. -/
theorem Ages.taken_pos {s s' : Sequence α} {taken : Nat → Nat} (h : s.Ages taken s')
    (hp : p ∈ s.positions) (hgone : p ∉ s'.positions) : 0 < taken p.slot := by
  obtain ⟨e, he, rfl⟩ := List.mem_map.mp hp
  refine Nat.pos_of_ne_zero fun hnone => hgone ?_
  exact List.mem_map_of_mem (h.kept e he hnone)

/-! ## Edits that take nothing out -/

theorem ages_pushBack (s : Sequence α) (x : α) : s.Ages (fun _ => 0) (s.pushBack x) where
  ahead p n hp := Chain.ahead_insertBetween hp _ _ x
  kept e he _ := by
    rw [entries_pushBack]
    exact List.mem_append_left _ he

theorem ages_extend (s : Sequence α) (xs : List α) : s.Ages (fun _ => 0) (s.extend xs) := by
  induction xs generalizing s with
  | nil => exact .refl s
  | cons x xs ih => exact (s.ages_pushBack x).trans (ih _)

theorem ages_insertOneBefore (s : Sequence α) (p : Position) (x : α) :
    s.Ages (fun _ => 0) (s.insertOneBefore p x) where
  ahead q n hq := by
    unfold insertOneBefore
    split
    · exact hq
    · exact Chain.ahead_insertBetween hq _ _ x
  kept e he _ := by
    by_cases hp : p ∈ s.positions
    · obtain ⟨l, y, r, hlr⟩ := exists_entries_eq hp
      rw [hlr, List.mem_append] at he
      rw [s.entries_insertOneBefore hlr, List.mem_append]
      exact he.imp_right (List.mem_cons_of_mem _)
    · have hn : s.chain.nodes.get? p = none := by
        rwa [← isSome_node_iff, Option.not_isSome_iff_eq_none] at hp
      unfold insertOneBefore
      split
      · exact he
      · next h => rw [hn] at h; cases h

theorem ages_insertBefore (s : Sequence α) (p : Position) (xs : List α) :
    s.Ages (fun _ => 0) (s.insertBefore p xs).2 := by
  unfold insertBefore
  split
  · have key : ∀ (xs : List α) (s : Sequence α),
        s.Ages (fun _ => 0) (xs.foldl (fun s x => s.insertOneBefore p x) s) := by
      intro xs
      induction xs with
      | nil => exact .refl
      | cons x xs ih => exact fun s => (s.ages_insertOneBefore p x).trans (ih _)
    exact key xs s
  · exact .refl s

/-! ## Edits that take an element out -/

theorem ages_remove (hp : p ∈ s.positions) :
    s.Ages (fun i => if p.slot = i then 1 else 0) (s.remove p).2 where
  ahead _ _ hq := Chain.ahead_unlink hq (isSome_node_iff.mpr hp)
  kept e he hnone := by
    obtain ⟨l, x, r, hlr⟩ := exists_entries_eq hp
    rw [hlr, List.mem_append, List.mem_cons] at he
    rw [(s.entries_remove hlr).2]
    rcases he with he | rfl | he
    · exact List.mem_append_left _ he
    · simp at hnone
    · exact List.mem_append_right _ he

/-- A replacement inserts first and removes then. -/
theorem replaceAt_snd (hp : p ∈ s.positions) (xs : List α) :
    p ∈ (s.insertBefore p xs).2.positions ∧
      (s.replaceAt p xs).2 = ((s.insertBefore p xs).2.remove p).2 := by
  obtain ⟨l, x, r, hlr⟩ := exists_entries_eq hp
  obtain ⟨hfound, fs, -, -, hentries⟩ := s.entries_insertBefore hlr xs
  have hpair : s.insertBefore p xs = (true, (s.insertBefore p xs).2) := by rw [← hfound]
  exact ⟨by simp [positions, hentries], by rw [replaceAt, hpair]⟩

theorem ages_replaceAt (hp : p ∈ s.positions) (xs : List α) :
    s.Ages (fun i => if p.slot = i then 1 else 0) (s.replaceAt p xs).2 := by
  obtain ⟨hthere, hsnd⟩ := replaceAt_snd hp xs
  have h := (s.ages_insertBefore p xs).trans (ages_remove hthere)
  rw [hsnd]
  simpa only [Nat.zero_add] using h

/-- In the slot that was emptied there is nothing directly afterwards. -/
theorem not_mem_remove (hp : p ∈ s.positions) (h : q.slot = p.slot) :
    q ∉ (s.remove p).2.positions := by
  have hnone := Chain.get?_unlink_of_slot_eq (isSome_node_iff.mpr hp) h
  rw [← isSome_node_iff]
  simp [remove, hnone]

theorem not_mem_replaceAt (hp : p ∈ s.positions) (h : q.slot = p.slot) (xs : List α) :
    q ∉ (s.replaceAt p xs).2.positions := by
  obtain ⟨hthere, hsnd⟩ := replaceAt_snd hp xs
  rw [hsnd]
  exact not_mem_remove hthere h

/-- The slot that was emptied last is the next one that is used. -/
theorem nextPosition_remove (hp : p ∈ s.positions) : (s.remove p).2.nextPosition = p.later :=
  Chain.nextKey_unlink (isSome_node_iff.mpr hp)

end Sequence

end StraightLine
