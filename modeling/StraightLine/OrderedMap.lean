/-!
# Maps in insertion order

A map that remembers in which order its keys came in. A key that is set again keeps its place, and
erasing a key leaves the order of the others alone.

It is the index map (`IndexMap` of `indexmap`) that a grammar keeps its rules in, with `insert`,
`get` and `shift_remove` as they are documented. The hash maps of the memo, the census, the lengths
and the marks (`AHashMap` of `ahash`) are the same map; their order is not fixed, and nothing reads
it. Left out are the hash values, which have no bearing on what is found since equal keys have equal
ones, and the limits of the memory.

* `get?_insert`, `get?_erase` and `get?_map` say what is found under each key after an operation;
  `forall_insert` is the invariant form of the first.
* `keys_insert`, `keys_erase` and `keys_map` say what becomes of the order.
* `get?_eq_some_iff` ties a look-up to the list of entries, and `perm_entries_erase` says which
  entries an erasure leaves.
-/

namespace StraightLine

/-- Distinct keys with values, in the order of their first insertion. -/
structure OrderedMap (K V : Type) where
  entries : List (K × V)
  nodup : (entries.map Prod.fst).Nodup

namespace OrderedMap

variable {K V W : Type}

/-! ## Operations -/

def empty : OrderedMap K V := ⟨[], by simp⟩

instance : Inhabited (OrderedMap K V) := ⟨empty⟩

/-- The keys in their order. -/
def keys (m : OrderedMap K V) : List K := m.entries.map Prod.fst

/-- The values in the order of their keys. -/
def values (m : OrderedMap K V) : List V := m.entries.map Prod.snd

def size (m : OrderedMap K V) : Nat := m.entries.length

/-- Changes every value and keeps the keys. -/
def map (m : OrderedMap K V) (f : V → W) : OrderedMap K W where
  entries := m.entries.map fun e => (e.1, f e.2)
  nodup := by
    have h : m.entries.map (Prod.fst ∘ fun e => (e.1, f e.2)) = m.entries.map Prod.fst := rfl
    rw [List.map_map, h]
    exact m.nodup

theorem nodup_keys (m : OrderedMap K V) : m.keys.Nodup := m.nodup

@[simp] theorem keys_empty : (empty : OrderedMap K V).keys = [] := rfl

@[simp] theorem keys_map (m : OrderedMap K V) (f : V → W) : (m.map f).keys = m.keys := by
  simp only [keys, map, List.map_map]
  rfl

theorem size_eq_length_keys (m : OrderedMap K V) : m.size = m.keys.length := by
  simp [size, keys]

@[simp] theorem size_map (m : OrderedMap K V) (f : V → W) : (m.map f).size = m.size := by
  simp [size, map]

variable [DecidableEq K]

/-- The value of the first entry with a key. -/
def find (k : K) : List (K × V) → Option V
  | [] => none
  | (k', v) :: es => if k' = k then some v else find k es

/-- Sets the value of the first entry with a key, or adds an entry at the end. -/
def put (k : K) (v : V) : List (K × V) → List (K × V)
  | [] => [(k, v)]
  | (k', v') :: es => if k' = k then (k, v) :: es else (k', v') :: put k v es

theorem map_fst_put (k : K) (v : V) (es : List (K × V)) :
    (put k v es).map Prod.fst =
      if k ∈ es.map Prod.fst then es.map Prod.fst else es.map Prod.fst ++ [k] := by
  induction es with
  | nil => simp [put]
  | cons e es ih =>
    simp only [put]
    by_cases h : e.1 = k
    · simp [h]
    · rw [if_neg h, List.map_cons, ih]
      simp only [List.map_cons, List.mem_cons, Ne.symm h, false_or]
      split <;> simp

/-- The value of a key. -/
def get? (m : OrderedMap K V) (k : K) : Option V := find k m.entries

def contains (m : OrderedMap K V) (k : K) : Bool := (m.get? k).isSome

/-- Sets the value of a key. -/
def insert (m : OrderedMap K V) (k : K) (v : V) : OrderedMap K V where
  entries := put k v m.entries
  nodup := by
    rw [map_fst_put]
    split
    · exact m.nodup
    · next h =>
      refine List.nodup_append.mpr ⟨m.nodup, by simp, ?_⟩
      rintro a ha b hb rfl
      exact h (List.mem_singleton.mp hb ▸ ha)

/-- Removes a key. -/
def erase (m : OrderedMap K V) (k : K) : OrderedMap K V where
  entries := m.entries.filter fun e => e.1 ≠ k
  nodup := m.nodup.sublist (List.filter_sublist.map _)

/-! ## What is found under a key -/

theorem find_eq_some_iff {k : K} {v : V} {es : List (K × V)} (h : (es.map Prod.fst).Nodup) :
    find k es = some v ↔ (k, v) ∈ es := by
  induction es with
  | nil => simp [find]
  | cons e es ih =>
    obtain ⟨k', v'⟩ := e
    simp only [List.map_cons, List.nodup_cons] at h
    simp only [find, List.mem_cons, Prod.mk.injEq]
    by_cases hk : k' = k
    · subst hk
      rw [if_pos rfl, Option.some.injEq]
      constructor
      · rintro rfl; simp
      · rintro (⟨-, rfl⟩ | hm)
        · rfl
        · exact absurd (List.mem_map_of_mem hm) h.1
    · rw [if_neg hk, ih h.2]
      simp [Ne.symm hk]

theorem find_isSome_iff {k : K} {es : List (K × V)} :
    (find k es).isSome ↔ k ∈ es.map Prod.fst := by
  induction es with
  | nil => simp [find]
  | cons e es ih =>
    simp only [find, List.map_cons, List.mem_cons]
    by_cases hk : e.1 = k
    · simp [hk]
    · rw [if_neg hk, ih]
      simp [Ne.symm hk]

theorem find_put (k : K) (v : V) (es : List (K × V)) (j : K) :
    find j (put k v es) = if j = k then some v else find j es := by
  induction es with
  | nil => simp [put, find, eq_comm]
  | cons e es ih =>
    simp only [put]
    by_cases hk : e.1 = k
    · rw [if_pos hk]
      simp only [find, hk, eq_comm]
      split <;> rfl
    · rw [if_neg hk]
      simp only [find, ih]
      by_cases hj : e.1 = j
      · have : ¬ j = k := hj ▸ hk
        simp [hj, this]
      · simp [hj]

theorem find_filter (k j : K) (es : List (K × V)) :
    find j (es.filter fun e => e.1 ≠ k) = if j = k then none else find j es := by
  induction es with
  | nil => simp [find]
  | cons e es ih =>
    by_cases hk : e.1 = k
    · rw [List.filter_cons_of_neg (by simp [hk]), ih]
      simp only [find, hk]
      by_cases hj : j = k
      · simp [hj]
      · simp [hj, Ne.symm hj]
    · rw [List.filter_cons_of_pos (by simp [hk])]
      simp only [find, ih]
      by_cases hj : e.1 = j
      · have : ¬ j = k := hj ▸ hk
        simp [hj, this]
      · simp [hj]

theorem get?_eq_some_iff {m : OrderedMap K V} {k : K} {v : V} :
    m.get? k = some v ↔ (k, v) ∈ m.entries :=
  find_eq_some_iff m.nodup

theorem contains_iff {m : OrderedMap K V} {k : K} : m.contains k = true ↔ k ∈ m.keys :=
  find_isSome_iff

theorem get?_eq_none_iff {m : OrderedMap K V} {k : K} : m.get? k = none ↔ k ∉ m.keys := by
  rw [← contains_iff, contains]
  simp

theorem mem_keys_of_get? {m : OrderedMap K V} {k : K} {v : V} (h : m.get? k = some v) :
    k ∈ m.keys := by
  rw [← contains_iff, contains, h]
  rfl

@[simp] theorem get?_empty (k : K) : (empty : OrderedMap K V).get? k = none := rfl

theorem get?_insert (m : OrderedMap K V) (k : K) (v : V) (j : K) :
    (m.insert k v).get? j = if j = k then some v else m.get? j :=
  find_put k v m.entries j

/-- What holds of the entries of a map and of a new one holds of all entries afterwards. -/
theorem forall_insert {p : K → V → Prop} {m : OrderedMap K V} {k : K} {v : V}
    (h : ∀ j u, m.get? j = some u → p j u) (hk : p k v) (j : K) (u : V)
    (hj : (m.insert k v).get? j = some u) : p j u := by
  rw [get?_insert] at hj
  split at hj
  · next he =>
    subst he
    cases hj
    exact hk
  · exact h j u hj

theorem get?_erase (m : OrderedMap K V) (k j : K) :
    (m.erase k).get? j = if j = k then none else m.get? j :=
  find_filter k j m.entries

theorem get?_map (m : OrderedMap K V) (f : V → W) (k : K) :
    (m.map f).get? k = (m.get? k).map f := by
  obtain ⟨es, h⟩ := m
  simp only [get?, map]
  clear h
  induction es with
  | nil => rfl
  | cons e es ih =>
    simp only [List.map_cons, find]
    split
    · rfl
    · exact ih

/-! ## The order of the keys -/

theorem keys_insert (m : OrderedMap K V) (k : K) (v : V) :
    (m.insert k v).keys = if k ∈ m.keys then m.keys else m.keys ++ [k] :=
  map_fst_put k v m.entries

/-- A new key comes last. -/
theorem entries_insert_of_not_mem {m : OrderedMap K V} {k : K} (h : k ∉ m.keys) (v : V) :
    (m.insert k v).entries = m.entries ++ [(k, v)] := by
  obtain ⟨es, hes⟩ := m
  show put k v es = es ++ [(k, v)]
  have hk : k ∉ es.map Prod.fst := h
  clear h hes
  induction es with
  | nil => rfl
  | cons e es ih =>
    rw [List.map_cons, List.mem_cons, not_or] at hk
    rw [put, if_neg (Ne.symm hk.1), ih hk.2, List.cons_append]

theorem mem_keys_insert (m : OrderedMap K V) (k : K) (v : V) (j : K) :
    j ∈ (m.insert k v).keys ↔ j = k ∨ j ∈ m.keys := by
  rw [keys_insert]
  split
  · next h => exact ⟨.inr, fun hj => hj.elim (fun e => e ▸ h) id⟩
  · rw [List.mem_append, List.mem_singleton, or_comm]

theorem keys_erase (m : OrderedMap K V) (k : K) :
    (m.erase k).keys = m.keys.filter fun j => j ≠ k := by
  simp only [keys, erase, List.filter_map]
  rfl

/-- Apart from their order, the entries are one of them and those that are left when it is erased. -/
theorem perm_entries_erase {m : OrderedMap K V} {k : K} {v : V} (h : (k, v) ∈ m.entries) :
    m.entries.Perm ((k, v) :: (m.erase k).entries) := by
  have hnodup : ∀ m : OrderedMap K V, m.entries.Nodup := fun m =>
    List.Pairwise.of_map Prod.fst (fun _ _ hne he => hne (congrArg Prod.fst he)) m.nodup
  have hmem : ∀ e, e ∈ (m.erase k).entries ↔ e ∈ m.entries ∧ e.1 ≠ k := by
    intro e
    simp [erase]
  refine (List.perm_ext_iff_of_nodup (hnodup m) ?_).mpr fun e => ?_
  · refine List.nodup_cons.mpr ⟨fun he => ((hmem _).mp he).2 rfl, hnodup _⟩
  · rw [List.mem_cons, hmem]
    constructor
    · intro he
      by_cases hk : e.1 = k
      · left
        rw [← get?_eq_some_iff] at h
        have he' : m.get? e.1 = some e.2 := get?_eq_some_iff.mpr he
        rw [hk, h] at he'
        exact Prod.ext hk (Option.some.inj he').symm
      · exact .inr ⟨he, hk⟩
    · rintro (rfl | ⟨he, -⟩)
      · exact h
      · exact he

theorem size_erase {m : OrderedMap K V} {k : K} (h : k ∈ m.keys) :
    (m.erase k).size + 1 = m.size := by
  obtain ⟨⟨_, v⟩, he, rfl⟩ := List.mem_map.mp h
  exact (perm_entries_erase he).length_eq.symm

end OrderedMap

end StraightLine
