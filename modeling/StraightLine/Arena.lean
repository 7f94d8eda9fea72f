/-!
# Generational arenas

An arena keeps values under keys. It is the slot map (`SlotMap` of `slotmap`) that the nodes of a
sequence lie in. Taken over is what is documented of it:

* a slot that was emptied is used again. Which one is next is not promised; here, as there, it is
  the one that was emptied last;
* a key names a slot in one generation of it, and with every erasure the slot moves on to the next
  one, so that a key of an earlier value does not reach a later one;
* there are only `Key.generations` of them, since the version of a slot wraps. A slot that was
  emptied so many times is back in the generation where it began, and the keys of that generation
  reach its values again;
* the null key reaches nothing.

Left out is the limit of `2 ^ 32 - 2` values: there is always room for one more.

* `Arena.nextKey` is a free slot, or a new one, in its generation, and `Arena.insert` stores a
  value there; `Arena.get?_nextKey` says that this key held nothing before.
* `Arena.get?_insert`, `Arena.get?_modify` and `Arena.get?_erase` say what every key holds
  afterwards.
* `Arena.Ahead a k n`: the slot of `k` is `n` generations ahead of `k`. Only an erasure in that slot
  changes this (`Ahead.erase`), and nothing is found under a key whose slot is ahead of it by less
  than all generations (`Ahead.get?_eq_none`).
* `Arena.nextKey_erase`: an erased key is followed by `Key.later`.
-/

namespace StraightLine

/-- A place of an arena: the slot has to be in the given generation. -/
structure Key where
  slot : Nat
  generation : Nat
  deriving DecidableEq, Repr

namespace Key

/-- How many generations a slot has: two to the power of 31, since a version is a number of 32 bits
and every second one belongs to a slot that holds something. -/
def generations : Nat := 2147483648

/-- The generation after a given one. The first one is `1`, and it comes again after the last. -/
def nextGeneration (g : Nat) : Nat := g % generations + 1

/-- The key of the same slot in the next generation. -/
def later (k : Key) : Key := ⟨k.slot, nextGeneration k.generation⟩

/-- The key that no arena hands out, since generations start at one. -/
def null : Key := ⟨0, 0⟩

theorem nextGeneration_mod (g : Nat) : nextGeneration g % generations = (g + 1) % generations := by
  simp only [nextGeneration, generations]
  omega

end Key

/-- One cell of an arena. -/
structure Slot (α : Type) where
  generation : Nat
  content : Option α

/-- Values under keys. `free` lists the slots that can be used again, `size` counts the values. -/
structure Arena (α : Type) where
  slots : Array (Slot α)
  free : List Nat
  size : Nat
  /-- A free slot exists and holds nothing. -/
  vacant : ∀ i ∈ free, ∃ g, slots[i]? = some ⟨g, none⟩
  /-- No slot is listed twice. -/
  nodup : free.Nodup
  /-- Generation zero is left to the null key. -/
  positive : ∀ (i : Nat) (s : Slot α), slots[i]? = some s → 0 < s.generation

namespace Arena

variable {α : Type}

/-! ## Operations -/

/-- The arena without values. -/
def empty : Arena α where
  slots := #[]
  free := []
  size := 0
  vacant := by simp
  nodup := by simp
  positive := by simp

instance : Inhabited (Arena α) := ⟨empty⟩

/-- The value under a key. -/
def get? (a : Arena α) (k : Key) : Option α :=
  match a.slots[k.slot]? with
  | some s => if s.generation = k.generation then s.content else none
  | none => none

/-- The key that the next insertion hands out. -/
def nextKey (a : Arena α) : Key :=
  match a.free with
  | [] => ⟨a.slots.size, 1⟩
  | i :: _ =>
    match a.slots[i]? with
    | some s => ⟨i, s.generation⟩
    | none => .null

/-- Stores a value under `a.nextKey`. -/
def insert (a : Arena α) (x : α) : Arena α :=
  match h : a.free with
  | [] =>
    { slots := a.slots.push ⟨1, some x⟩
      free := []
      size := a.size + 1
      vacant := by simp
      nodup := by simp
      positive := by
        intro i s hs
        rw [Array.getElem?_push] at hs
        split at hs
        · cases hs; exact Nat.one_pos
        · exact a.positive i s hs }
  | i :: rest =>
    { slots := a.slots.modify i fun s => ⟨s.generation, some x⟩
      free := rest
      size := a.size + 1
      vacant := by
        intro j hj
        have hn := a.nodup
        rw [h, List.nodup_cons] at hn
        have hne : i ≠ j := by rintro rfl; exact hn.1 hj
        obtain ⟨g, hg⟩ := a.vacant j (by rw [h]; exact List.mem_cons_of_mem _ hj)
        exact ⟨g, by rw [Array.getElem?_modify, if_neg hne, hg]⟩
      nodup := by
        have hn := a.nodup
        rw [h, List.nodup_cons] at hn
        exact hn.2
      positive := by
        intro j s hs
        rw [Array.getElem?_modify] at hs
        split at hs
        · obtain ⟨t, ht, rfl⟩ := Option.map_eq_some_iff.mp hs
          exact a.positive _ t ht
        · exact a.positive j s hs }

/-- Changes the value under a key, if there is one. -/
def modify (a : Arena α) (k : Key) (f : α → α) : Arena α where
  slots := a.slots.modify k.slot fun s =>
    if s.generation = k.generation then ⟨s.generation, s.content.map f⟩ else s
  free := a.free
  size := a.size
  vacant := by
    intro i hi
    obtain ⟨g, hg⟩ := a.vacant i hi
    refine ⟨g, ?_⟩
    rw [Array.getElem?_modify]
    split
    · subst i; rw [hg]; simp
    · exact hg
  nodup := a.nodup
  positive := by
    intro i s hs
    rw [Array.getElem?_modify] at hs
    split at hs
    · obtain ⟨t, ht, rfl⟩ := Option.map_eq_some_iff.mp hs
      split <;> exact a.positive _ t ht
    · exact a.positive i s hs

/-- Takes the value away from a key, if there is one; its slot moves to the next generation. -/
def erase (a : Arena α) (k : Key) : Arena α :=
  if h : (a.get? k).isSome then
    { slots := a.slots.modify k.slot fun s => ⟨Key.nextGeneration s.generation, none⟩
      free := k.slot :: a.free
      size := a.size - 1
      vacant := by
        intro i hi
        rw [Array.getElem?_modify]
        rcases List.mem_cons.mp hi with rfl | hi
        · cases hs : a.slots[k.slot]? with
          | none => simp [get?, hs] at h
          | some s => exact ⟨Key.nextGeneration s.generation, by simp⟩
        · obtain ⟨g, hg⟩ := a.vacant i hi
          split
          · subst i; exact ⟨Key.nextGeneration g, by simp [hg]⟩
          · exact ⟨g, hg⟩
      nodup := by
        refine List.nodup_cons.mpr ⟨fun hi => ?_, a.nodup⟩
        obtain ⟨g, hg⟩ := a.vacant _ hi
        simp [get?, hg] at h
      positive := by
        intro i s hs
        rw [Array.getElem?_modify] at hs
        split at hs
        · obtain ⟨t, _, rfl⟩ := Option.map_eq_some_iff.mp hs
          exact Nat.succ_pos _
        · exact a.positive i s hs }
  else a

/-! ## What the keys hold -/

@[simp] theorem get?_empty (k : Key) : (empty : Arena α).get? k = none := by
  simp [get?, empty]

@[simp] theorem get?_null (a : Arena α) : a.get? .null = none := by
  unfold get?
  split
  · next s hs =>
    have hpos := a.positive _ s hs
    rw [if_neg]
    simp only [Key.null]
    omega
  · rfl

/-- The key of an insertion held nothing before. -/
theorem get?_nextKey (a : Arena α) : a.get? a.nextKey = none := by
  unfold nextKey
  split
  · simp [get?]
  · next i rest h =>
    obtain ⟨g, hg⟩ := a.vacant i (by simp [h])
    simp [hg, get?]

theorem get?_insert (a : Arena α) (x : α) (k : Key) :
    (a.insert x).get? k = if k = a.nextKey then some x else a.get? k := by
  obtain ⟨j, g⟩ := k
  unfold insert nextKey
  split
  · next h =>
    simp only [h, get?, Array.getElem?_push, Key.mk.injEq]
    by_cases hj : j = a.slots.size
    · subst hj
      by_cases hg : g = 1 <;> simp [hg, eq_comm]
    · simp [hj]
  · next i rest h =>
    obtain ⟨g', hg'⟩ := a.vacant i (by simp [h])
    simp only [h, hg', get?, Array.getElem?_modify, Key.mk.injEq]
    by_cases hj : i = j
    · subst hj
      by_cases hg : g = g' <;> simp [hg, hg', eq_comm]
    · simp [hj, Ne.symm hj]

theorem get?_modify (a : Arena α) (k : Key) (f : α → α) (j : Key) :
    (a.modify k f).get? j = if j = k then (a.get? k).map f else a.get? j := by
  obtain ⟨i, g⟩ := k
  obtain ⟨j, g'⟩ := j
  simp only [get?, modify, Array.getElem?_modify, Key.mk.injEq]
  by_cases hj : i = j
  · subst hj
    cases hs : a.slots[i]? with
    | none => simp
    | some s =>
      by_cases hg : s.generation = g
      · by_cases hg' : g' = g
        · simp [hg, hg']
        · simp [hg, hg', Ne.symm hg']
      · by_cases hg' : g' = g <;> simp [hg, hg']
  · simp [hj, Ne.symm hj]

theorem get?_erase (a : Arena α) (k j : Key) :
    (a.erase k).get? j = if j = k then none else a.get? j := by
  unfold erase
  split
  · next h =>
    obtain ⟨i, g⟩ := k
    obtain ⟨j, g'⟩ := j
    simp only [get?, Array.getElem?_modify, Key.mk.injEq] at h ⊢
    by_cases hj : i = j
    · subst hj
      cases hs : a.slots[i]? with
      | none => simp
      | some s =>
        simp only [hs] at h
        have hg : s.generation = g := by
          by_cases hg : s.generation = g
          · exact hg
          · simp [hg] at h
        simp only [if_pos, Option.map_some, true_and]
        by_cases hg' : g' = g
        · simp [hg']
        · simp [hg', hg, Ne.symm hg']
    · simp [hj, Ne.symm hj]
  · next h =>
    split
    · next he => subst he; simpa using h
    · rfl

/-! ## How many values there are -/

@[simp] theorem size_empty : (empty : Arena α).size = 0 := rfl

@[simp] theorem size_insert (a : Arena α) (x : α) : (a.insert x).size = a.size + 1 := by
  unfold insert
  split <;> rfl

@[simp] theorem size_modify (a : Arena α) (k : Key) (f : α → α) :
    (a.modify k f).size = a.size := rfl

theorem size_erase {a : Arena α} {k : Key} (h : (a.get? k).isSome) :
    (a.erase k).size = a.size - 1 := by
  simp [erase, h]

/-! ## Generations -/

/-- A slot holds the value of one key at a time. -/
theorem eq_of_slot_eq {a : Arena α} {j k : Key} (hj : (a.get? j).isSome) (hk : (a.get? k).isSome)
    (h : j.slot = k.slot) : j = k := by
  obtain ⟨i, g⟩ := j
  obtain ⟨i', g'⟩ := k
  obtain rfl : i = i' := h
  unfold get? at hj hk
  split at hj
  · next s hs =>
    simp only [hs] at hk
    split at hj <;> split at hk <;> simp_all
  · simp at hj

/-- Nothing is in a slot that was just emptied. -/
theorem get?_erase_of_slot_eq {a : Arena α} {j k : Key} (hk : (a.get? k).isSome)
    (h : j.slot = k.slot) : (a.erase k).get? j = none := by
  rw [get?_erase]
  split
  · rfl
  · next hne =>
    rw [← Option.not_isSome_iff_eq_none]
    exact fun hj => hne (eq_of_slot_eq hj hk h)

@[simp] theorem nextKey_modify (a : Arena α) (k : Key) (f : α → α) :
    (a.modify k f).nextKey = a.nextKey := by
  have hfree : (a.modify k f).free = a.free := rfl
  unfold nextKey
  rw [hfree]
  cases h : a.free with
  | nil => simp [modify]
  | cons i rest =>
    obtain ⟨g, hg⟩ := a.vacant i (by simp [h])
    simp only [modify, Array.getElem?_modify, hg, Option.map_some]
    by_cases hi : k.slot = i
    · by_cases hk : g = k.generation <;> simp [hi, hk]
    · simp [hi]

/-- The slot that was emptied last is used next, one generation later. -/
theorem nextKey_erase {a : Arena α} {k : Key} (h : (a.get? k).isSome) :
    (a.erase k).nextKey = k.later := by
  have h' := h
  unfold get? at h'
  split at h'
  · next s hs =>
    split at h'
    · next hg =>
      simp only [nextKey, erase, h, dite_true, Array.getElem?_modify, if_pos, hs, Option.map_some,
        Key.later, hg]
    · simp at h'
  · simp at h'

/-- The slot of the key is in the generation that comes `n` generations after that of the key. -/
def Ahead (a : Arena α) (k : Key) (n : Nat) : Prop :=
  ∃ s, a.slots[k.slot]? = some s ∧
    s.generation % Key.generations = (k.generation + n) % Key.generations

/-- A key that holds a value is in the generation of its slot. -/
theorem ahead_zero {a : Arena α} {k : Key} (h : (a.get? k).isSome) : a.Ahead k 0 := by
  unfold get? at h
  split at h
  · next s hs =>
    split at h
    · next hg => exact ⟨s, hs, by rw [hg, Nat.add_zero]⟩
    · simp at h
  · simp at h

/-- The generations are different ones until they come round. -/
theorem Ahead.get?_eq_none {a : Arena α} {k : Key} {n : Nat} (h : a.Ahead k n) (hpos : 0 < n)
    (hlt : n < Key.generations) : a.get? k = none := by
  obtain ⟨s, hs, hmod⟩ := h
  have hne : s.generation ≠ k.generation := by
    intro hg
    simp only [hg, Key.generations] at hmod hlt
    omega
  simp only [get?, hs, if_neg hne]

theorem Ahead.modify {a : Arena α} {k : Key} {n : Nat} (h : a.Ahead k n) (j : Key) (f : α → α) :
    (a.modify j f).Ahead k n := by
  obtain ⟨s, hs, hmod⟩ := h
  simp only [Ahead, Arena.modify, Array.getElem?_modify, hs, Option.map_some]
  split
  · refine ⟨_, rfl, ?_⟩
    split <;> exact hmod
  · exact ⟨s, rfl, hmod⟩

theorem Ahead.insert {a : Arena α} {k : Key} {n : Nat} (h : a.Ahead k n) (x : α) :
    (a.insert x).Ahead k n := by
  obtain ⟨s, hs, hmod⟩ := h
  unfold Arena.insert
  split
  · refine ⟨s, ?_, hmod⟩
    have hk : k.slot < a.slots.size := (Array.getElem?_eq_some_iff.mp hs).1
    simp only [Array.getElem?_push]
    rw [if_neg (by omega), hs]
  · simp only [Ahead, Array.getElem?_modify, hs, Option.map_some]
    split
    · exact ⟨_, rfl, hmod⟩
    · exact ⟨s, rfl, hmod⟩

/-- **An erasure moves its slot on by one generation**, and no other one. -/
theorem Ahead.erase {a : Arena α} {j k : Key} {n : Nat} (h : a.Ahead k n)
    (hj : (a.get? j).isSome) : (a.erase j).Ahead k (n + if j.slot = k.slot then 1 else 0) := by
  obtain ⟨s, hs, hmod⟩ := h
  simp only [Ahead, Arena.erase, hj, dite_true, Array.getElem?_modify, hs, Option.map_some]
  split
  · refine ⟨_, rfl, ?_⟩
    simp only [Key.nextGeneration_mod]
    rw [Nat.add_mod, hmod, ← Nat.add_mod, Nat.add_assoc]
  · exact ⟨s, rfl, hmod⟩

end Arena

end StraightLine
