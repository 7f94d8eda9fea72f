import StraightLine.Sequence.Chain

/-!
# Sequences with stable positions

A sequence is a list that is edited at positions. A position names one element until that element
is removed, and edits elsewhere do not disturb it. Then it names nothing, until its slot has come
round: the slots are those of a slot map, and what becomes of an old position is said in
`StraightLine.Arena`.

This is the type `Sequence` with its methods. `push_back`, `extend`, `insert_before`, `remove` and
`replace_at` are the edits, `from_iter` and the conversion from a vector are `ofList`, and the
queries have the names `len` (`size`), `get` (`get?`), `next`, `prev`, `first`, `last`, `positions`,
`iter` and `to_vec` (`toList`), `find_first` and `positions_where`.

* `Sequence.entries` is the view of a sequence: its positions with their elements, in order. Every
  query is a question about this list (`get?_eq_some_iff`, `first_eq`, `next_eq`, …).
* `entries_pushBack`, `entries_insertBefore`, `entries_remove` and `entries_replaceAt` say what
  each edit does to the view, and `…_of_not_live` that an edit at a position that is gone does
  nothing.
* Two sequences are equal if they hold the same elements in the same order, whatever their
  positions are.
-/

namespace StraightLine

/-- A well-linked chain. -/
structure Sequence (α : Type) where
  chain : Chain α
  wellLinked : ∃ es, chain.Threads es

namespace Sequence

variable {α : Type}

/-! ## Queries -/

/-- The sequence without elements. -/
def empty : Sequence α := ⟨.empty, [], Chain.threads_empty⟩

instance : Inhabited (Sequence α) := ⟨empty⟩

/-- The positions and elements from front to back. -/
def entries (s : Sequence α) : List (Position × α) := s.chain.entries

/-- The elements from front to back. -/
def toList (s : Sequence α) : List α := s.entries.map Prod.snd

/-- The positions from front to back. -/
def positions (s : Sequence α) : List Position := s.entries.map Prod.fst

/-- The positions and elements from back to front, found by the links in that direction. -/
def backwards (s : Sequence α) : List (Position × α) := s.chain.backwards

/-- How many elements there are. -/
def size (s : Sequence α) : Nat := s.chain.nodes.size

def isEmpty (s : Sequence α) : Bool := s.size = 0

/-- The element at a position, unless it was removed. -/
def get? (s : Sequence α) (p : Position) : Option α := (s.chain.nodes.get? p).map Node.value

/-- The position behind a position, if both are there. -/
def next (s : Sequence α) (p : Position) : Option Position := (s.chain.nodes.get? p).bind Node.next

/-- The position before a position, if both are there. -/
def prev (s : Sequence α) (p : Position) : Option Position := (s.chain.nodes.get? p).bind Node.prev

def first (s : Sequence α) : Option Position := s.chain.head

def last (s : Sequence α) : Option Position := s.chain.tail

/-- The position of the first element that satisfies `f`. -/
def findFirst (s : Sequence α) (f : α → Bool) : Option Position :=
  (s.entries.find? fun e => f e.2).map Prod.fst

/-- The positions of all elements that satisfy `f`, from front to back. -/
def positionsWhere (s : Sequence α) (f : α → Bool) : List Position :=
  (s.entries.filter fun e => f e.2).map Prod.fst

/-- Only sequences of one size are compared element by element. -/
instance [BEq α] : BEq (Sequence α) := ⟨fun s t => s.size == t.size && s.toList == t.toList⟩

/-! ## The view -/

theorem threads (s : Sequence α) : s.chain.Threads s.entries := by
  obtain ⟨es, h⟩ := s.wellLinked
  rw [entries, h.entries_eq]
  exact h

theorem nodup_positions (s : Sequence α) : s.positions.Nodup := s.threads.nodup

/-- Beside the entry of a position there is no other one of it. -/
theorem ne_of_entries_eq {s : Sequence α} {l r : List (Position × α)} {p : Position} {x : α}
    (h : s.entries = l ++ (p, x) :: r) : (∀ e ∈ l, e.1 ≠ p) ∧ ∀ e ∈ r, e.1 ≠ p := by
  have hnodup := s.nodup_positions
  rw [positions, h, List.map_append, List.map_cons, List.nodup_append, List.nodup_cons] at hnodup
  obtain ⟨-, ⟨hr, -⟩, hl⟩ := hnodup
  refine ⟨fun e he => ?_, fun e he hep => ?_⟩
  · exact hl e.1 (List.mem_map_of_mem he) p List.mem_cons_self
  · exact hr (List.mem_map.mpr ⟨e, he, hep⟩)

/-- The entries from a position on. -/
theorem dropWhile_entries {s : Sequence α} {l r : List (Position × α)} {p : Position} {x : α}
    (h : s.entries = l ++ (p, x) :: r) :
    (s.entries.dropWhile fun e => e.1 ≠ p) = (p, x) :: r := by
  have hl : ∀ e ∈ l, decide (e.1 ≠ p) = true := fun e he =>
    decide_eq_true ((ne_of_entries_eq h).1 e he)
  rw [h, List.dropWhile_append_of_pos hl, List.dropWhile_cons_of_neg (by simp)]

theorem get?_eq_some_iff (s : Sequence α) (p : Position) (x : α) :
    s.get? p = some x ↔ (p, x) ∈ s.entries := by
  constructor
  · intro h
    obtain ⟨n, hn, rfl⟩ := Option.map_eq_some_iff.mp h
    obtain ⟨l, r, he, -, -⟩ := s.threads.split hn
    simp [he]
  · intro h
    obtain ⟨l, r, he⟩ := List.append_of_mem h
    simp [get?, s.threads.node l p x r he]

/-- A position names an element exactly if it is among the positions. -/
theorem isSome_get?_iff (s : Sequence α) (p : Position) :
    (s.get? p).isSome ↔ p ∈ s.positions := by
  rw [get?, Option.isSome_map]
  exact s.threads.isSome_iff p

theorem get?_eq_none_iff (s : Sequence α) (p : Position) :
    s.get? p = none ↔ p ∉ s.positions := by
  rw [← isSome_get?_iff]
  simp

theorem next_eq (s : Sequence α) {l r : List (Position × α)} {p : Position} {x : α}
    (h : s.entries = l ++ (p, x) :: r) : s.next p = Chain.firstOf r := by
  simp [next, s.threads.node l p x r h]

theorem prev_eq (s : Sequence α) {l r : List (Position × α)} {p : Position} {x : α}
    (h : s.entries = l ++ (p, x) :: r) : s.prev p = Chain.lastOf l := by
  simp [prev, s.threads.node l p x r h]

theorem first_eq (s : Sequence α) : s.first = Chain.firstOf s.entries := s.threads.head

theorem last_eq (s : Sequence α) : s.last = Chain.lastOf s.entries := s.threads.tail

theorem size_eq (s : Sequence α) : s.size = s.entries.length := s.threads.size

theorem size_eq_length_toList (s : Sequence α) : s.size = s.toList.length := by
  rw [size_eq, toList, List.length_map]

theorem isEmpty_iff (s : Sequence α) : s.isEmpty = true ↔ s.toList = [] := by
  simp [isEmpty, size_eq_length_toList]

theorem backwards_eq (s : Sequence α) : s.backwards = s.entries.reverse := s.threads.backwards_eq

@[simp] theorem entries_empty : (empty : Sequence α).entries = [] :=
  Chain.threads_empty.entries_eq

@[simp] theorem toList_empty : (empty : Sequence α).toList = [] := by simp [toList]

theorem beq_iff [BEq α] [LawfulBEq α] (s t : Sequence α) :
    (s == t) = true ↔ s.toList = t.toList := by
  change (s.size == t.size && s.toList == t.toList) = true ↔ _
  rw [Bool.and_eq_true, beq_iff_eq, beq_iff_eq, size_eq_length_toList, size_eq_length_toList]
  exact ⟨And.right, fun h => ⟨congrArg List.length h, h⟩⟩

/-! ## Edits -/

/-- The position that the next new element gets. -/
def nextPosition (s : Sequence α) : Position := s.chain.nodes.nextKey

/-- The next position is a new one. -/
theorem nextPosition_not_mem (s : Sequence α) : s.nextPosition ∉ s.positions := by
  rw [← get?_eq_none_iff, get?, nextPosition, Arena.get?_nextKey]
  rfl

/-- Adds an element at the back; its position is `s.nextPosition`. -/
def pushBack (s : Sequence α) (x : α) : Sequence α where
  chain := s.chain.insertBetween s.chain.tail none x
  wellLinked := by
    have h : s.chain.Threads (s.entries ++ []) := by
      rw [List.append_nil]
      exact s.threads
    rw [s.threads.tail]
    exact ⟨_, h.insertBetween x⟩

theorem entries_pushBack (s : Sequence α) (x : α) :
    (s.pushBack x).entries = s.entries ++ [(s.nextPosition, x)] := by
  have h : s.chain.Threads (s.entries ++ []) := by
    rw [List.append_nil]
    exact s.threads
  have h' := (h.insertBetween x).entries_eq
  rw [← s.threads.tail] at h'
  exact h'

@[simp] theorem toList_pushBack (s : Sequence α) (x : α) :
    (s.pushBack x).toList = s.toList ++ [x] := by
  simp [toList, entries_pushBack]

/-- Adds elements at the back, in their order. -/
def extend (s : Sequence α) (xs : List α) : Sequence α := xs.foldl pushBack s

@[simp] theorem toList_extend (s : Sequence α) (xs : List α) :
    (s.extend xs).toList = s.toList ++ xs := by
  induction xs generalizing s with
  | nil => simp [extend]
  | cons x xs ih =>
    change ((s.pushBack x).extend xs).toList = _
    rw [ih, toList_pushBack, List.append_assoc, List.singleton_append]

/-- The added elements stand, at new positions, at the back. -/
theorem entries_extend (s : Sequence α) (xs : List α) :
    ∃ fs : List (Position × α), fs.map Prod.snd = xs ∧ (∀ f ∈ fs, f.1 ∉ s.positions) ∧
      (s.extend xs).entries = s.entries ++ fs := by
  induction xs generalizing s with
  | nil => exact ⟨[], rfl, by simp, by simp [extend]⟩
  | cons x xs ih =>
    obtain ⟨fs, hfs, hnew, he⟩ := ih (s.pushBack x)
    refine ⟨(s.nextPosition, x) :: fs, by simp [hfs], ?_, ?_⟩
    · intro f hf
      rcases List.mem_cons.mp hf with rfl | hf
      · exact s.nextPosition_not_mem
      · intro hq
        apply hnew f hf
        rw [positions, entries_pushBack, List.map_append]
        exact List.mem_append_left _ hq
    · change ((s.pushBack x).extend xs).entries = _
      rw [he, entries_pushBack, List.append_assoc, List.singleton_append]

/-- The sequence of the elements of a list. -/
def ofList (xs : List α) : Sequence α := empty.extend xs

@[simp] theorem toList_ofList (xs : List α) : (ofList xs).toList = xs := by
  simp [ofList]

/-- Puts one element directly before a position that is there; its position is `s.nextPosition`. -/
def insertOneBefore (s : Sequence α) (p : Position) (x : α) : Sequence α :=
  match h : s.chain.nodes.get? p with
  | none => s
  | some n =>
    { chain := s.chain.insertBetween n.prev (some p) x
      wellLinked := by
        obtain ⟨l, r, he, hl, -⟩ := s.threads.split h
        have ht : s.chain.Threads (l ++ (p, n.value) :: r) := he ▸ s.threads
        rw [hl]
        exact ⟨_, ht.insertBetween x⟩ }

theorem entries_insertOneBefore (s : Sequence α) {l r : List (Position × α)} {p : Position} {y : α}
    (h : s.entries = l ++ (p, y) :: r) (x : α) :
    (s.insertOneBefore p x).entries = l ++ (s.nextPosition, x) :: (p, y) :: r := by
  have hn := s.threads.node l p y r h
  have ht : s.chain.Threads (l ++ (p, y) :: r) := h ▸ s.threads
  unfold insertOneBefore
  split
  · next h' => rw [hn] at h'; cases h'
  · next n h' =>
    rw [hn] at h'
    cases h'
    exact (ht.insertBetween x).entries_eq

/-- Puts elements directly before a position, in their order. The answer tells whether the position
is there; if not, nothing is done. -/
def insertBefore (s : Sequence α) (p : Position) (xs : List α) : Bool × Sequence α :=
  if (s.get? p).isSome then (true, xs.foldl (fun s x => s.insertOneBefore p x) s) else (false, s)

theorem insertBefore_of_not_live {s : Sequence α} {p : Position} (h : p ∉ s.positions)
    (xs : List α) : s.insertBefore p xs = (false, s) := by
  rw [insertBefore, if_neg]
  rwa [isSome_get?_iff]

/-- The inserted elements stand, at new positions, directly before the position. -/
theorem entries_insertBefore (s : Sequence α) {l r : List (Position × α)} {p : Position} {y : α}
    (h : s.entries = l ++ (p, y) :: r) (xs : List α) :
    (s.insertBefore p xs).1 = true ∧
      ∃ fs : List (Position × α), fs.map Prod.snd = xs ∧ (∀ f ∈ fs, f.1 ∉ s.positions) ∧
        (s.insertBefore p xs).2.entries = l ++ fs ++ (p, y) :: r := by
  have hlive : (s.get? p).isSome := by
    rw [(s.get?_eq_some_iff p y).mpr (by simp [h])]
    rfl
  rw [insertBefore, if_pos hlive]
  refine ⟨rfl, ?_⟩
  clear hlive
  induction xs generalizing s l with
  | nil => exact ⟨[], rfl, by simp, by simpa using h⟩
  | cons x xs ih =>
    have h' := s.entries_insertOneBefore h x
    obtain ⟨fs, hfs, hnew, he⟩ := ih (s.insertOneBefore p x) (l := l ++ [(s.nextPosition, x)])
      (by simpa using h')
    refine ⟨(s.nextPosition, x) :: fs, by simp [hfs], ?_, by simpa using he⟩
    have hsub : ∀ q ∈ s.positions, q ∈ (s.insertOneBefore p x).positions := by
      intro q hq
      simp only [positions, h, h', List.map_append, List.map_cons, List.mem_append,
        List.mem_cons] at hq ⊢
      rcases hq with hq | hq | hq <;> simp [hq]
    intro f hf
    rcases List.mem_cons.mp hf with rfl | hf
    · exact s.nextPosition_not_mem
    · exact fun hq => hnew f hf (hsub _ hq)

/-- Takes the element at a position out and returns it, if it is there. -/
def remove (s : Sequence α) (p : Position) : Option α × Sequence α :=
  (s.get? p,
    { chain := s.chain.unlink p
      wellLinked := by
        cases h : s.chain.nodes.get? p with
        | none => simpa [Chain.unlink, h] using s.wellLinked
        | some n =>
          obtain ⟨l, r, he, -, -⟩ := s.threads.split h
          have ht : s.chain.Threads (l ++ (p, n.value) :: r) := he ▸ s.threads
          exact ⟨_, ht.unlink⟩ })

theorem remove_of_not_live {s : Sequence α} {p : Position} (h : p ∉ s.positions) :
    s.remove p = (none, s) := by
  have hg := (s.get?_eq_none_iff p).mpr h
  have hn : s.chain.nodes.get? p = none := by simpa [get?] using hg
  simp only [remove, hg, Chain.unlink, hn]

theorem entries_remove (s : Sequence α) {l r : List (Position × α)} {p : Position} {x : α}
    (h : s.entries = l ++ (p, x) :: r) :
    (s.remove p).1 = some x ∧ (s.remove p).2.entries = l ++ r := by
  have ht : s.chain.Threads (l ++ (p, x) :: r) := h ▸ s.threads
  exact ⟨(s.get?_eq_some_iff p x).mpr (by simp [h]), ht.unlink.entries_eq⟩

/-- Puts elements in the place of the one at a position, and returns that one. If the position is
not there, nothing is done. -/
def replaceAt (s : Sequence α) (p : Position) (xs : List α) : Option α × Sequence α :=
  match s.insertBefore p xs with
  | (false, s) => (none, s)
  | (true, s) => s.remove p

theorem replaceAt_of_not_live {s : Sequence α} {p : Position} (h : p ∉ s.positions)
    (xs : List α) : s.replaceAt p xs = (none, s) := by
  simp only [replaceAt, insertBefore_of_not_live h]

/-- The new elements stand, at new positions, in the place of the old one. -/
theorem entries_replaceAt (s : Sequence α) {l r : List (Position × α)} {p : Position} {x : α}
    (h : s.entries = l ++ (p, x) :: r) (xs : List α) :
    (s.replaceAt p xs).1 = some x ∧
      ∃ fs : List (Position × α), fs.map Prod.snd = xs ∧ (∀ f ∈ fs, f.1 ∉ s.positions) ∧
        (s.replaceAt p xs).2.entries = l ++ fs ++ r := by
  obtain ⟨hb, fs, hfs, hnew, he⟩ := s.entries_insertBefore h xs
  have hpair : s.insertBefore p xs = (true, (s.insertBefore p xs).2) := by rw [← hb]
  obtain ⟨hx, hr⟩ := (s.insertBefore p xs).2.entries_remove he
  rw [replaceAt, hpair]
  exact ⟨hx, fs, hfs, hnew, hr⟩

end Sequence

end StraightLine
