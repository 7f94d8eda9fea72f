import StraightLine.Arena

/-!
# Doubly linked chains

A chain is a list whose nodes live in an arena. Each node names its two neighbours by their keys,
so a symbol can be put in or taken out anywhere in constant time, and the key of every other
symbol stays good. It holds the fields of a `Sequence`, and its nodes are `SymbolNode`; the edits
here are what `push_back`, `insert_before` and `remove` do to the links, in one step each. That
their single writes come to the same is proved in `StraightLine.Proofs.Linkage`.

* `Chain.insertBetween` and `Chain.unlink` are the two edits. Beside the first node stands the
  head, beside the last one the tail, so `setNext` and `setPrev` have no special cases at the
  ends.
* `Chain.Threads c es` says that the nodes of `c` link up exactly the entries `es`, in both
  directions.
* `Threads.insertBetween` and `Threads.unlink` say what the edits do to the entries.
* `Threads.entries_eq` and `Threads.backwards_eq`: walking from either end finds exactly the
  entries.
-/

namespace StraightLine

/-- Names one symbol of a sequence for as long as the symbol is in it. It is a key of the slot map,
`Position`, and the null key is its default. -/
abbrev Position := Key

/-- A value with the positions of its neighbours. -/
structure Node (α : Type) where
  value : α
  prev : Option Position
  next : Option Position

/-- Nodes that are linked in both directions, with the positions of the two ends. -/
structure Chain (α : Type) where
  nodes : Arena (Node α)
  head : Option Position
  tail : Option Position

namespace Chain

variable {α : Type}

/-! ## Edits -/

def empty : Chain α := ⟨.empty, none, none⟩

/-- Lets the node at `p` be followed by `q`; without a node `p`, `q` becomes the head. -/
def setNext (c : Chain α) (p q : Option Position) : Chain α :=
  match p with
  | some p => { c with nodes := c.nodes.modify p fun n => { n with next := q } }
  | none => { c with head := q }

/-- Lets the node at `q` be preceded by `p`; without a node `q`, `p` becomes the tail. -/
def setPrev (c : Chain α) (q p : Option Position) : Chain α :=
  match q with
  | some q => { c with nodes := c.nodes.modify q fun n => { n with prev := p } }
  | none => { c with tail := p }

/-- Puts a node with the value `x` between the neighbours `l` and `r`. Its position is
`c.nodes.nextKey`. -/
def insertBetween (c : Chain α) (l r : Option Position) (x : α) : Chain α :=
  let p := c.nodes.nextKey
  let c := { c with nodes := c.nodes.insert ⟨x, l, r⟩ }
  (c.setNext l (some p)).setPrev r (some p)

/-- Takes the node at `p` out and links its neighbours to each other. -/
def unlink (c : Chain α) (p : Position) : Chain α :=
  match c.nodes.get? p with
  | none => c
  | some n =>
    let c := { c with nodes := c.nodes.erase p }
    (c.setNext n.prev n.next).setPrev n.next n.prev

/-! ## Walks -/

/-- The entries met in at most `steps` steps forward from `p`. -/
def walk (c : Chain α) : (steps : Nat) → (p : Option Position) → List (Position × α)
  | 0, _ => []
  | _ + 1, none => []
  | steps + 1, some p =>
    match c.nodes.get? p with
    | none => []
    | some n => (p, n.value) :: c.walk steps n.next

/-- The entries met in at most `steps` steps back from `p`. -/
def walkBack (c : Chain α) : (steps : Nat) → (p : Option Position) → List (Position × α)
  | 0, _ => []
  | _ + 1, none => []
  | steps + 1, some p =>
    match c.nodes.get? p with
    | none => []
    | some n => (p, n.value) :: c.walkBack steps n.prev

/-- The positions and values from the head on. -/
def entries (c : Chain α) : List (Position × α) :=
  c.walk c.nodes.size c.head

/-- The positions and values from the tail back. -/
def backwards (c : Chain α) : List (Position × α) :=
  c.walkBack c.nodes.size c.tail

/-! ## Well-linked chains -/

/-- The position of the first entry. -/
def firstOf (es : List (Position × α)) : Option Position := es.head?.map Prod.fst

/-- The position of the last entry. -/
def lastOf (es : List (Position × α)) : Option Position := es.getLast?.map Prod.fst

@[simp] theorem firstOf_nil : firstOf ([] : List (Position × α)) = none := rfl

@[simp] theorem firstOf_cons (e : Position × α) (es : List (Position × α)) :
    firstOf (e :: es) = some e.1 := rfl

@[simp] theorem lastOf_nil : lastOf ([] : List (Position × α)) = none := rfl

@[simp] theorem lastOf_concat (es : List (Position × α)) (e : Position × α) :
    lastOf (es ++ [e]) = some e.1 := by simp [lastOf]

theorem lastOf_cons (e : Position × α) (es : List (Position × α)) :
    lastOf (e :: es) = (lastOf es).or (some e.1) := by
  cases es with
  | nil => simp [lastOf]
  | cons f es =>
    simp only [lastOf, List.getLast?_cons_cons]
    cases h : (f :: es).getLast? with
    | none => simp at h
    | some g => rfl

theorem firstOf_append (es fs : List (Position × α)) :
    firstOf (es ++ fs) = (firstOf es).or (firstOf fs) := by
  cases es <;> simp [firstOf]

theorem lastOf_append (es fs : List (Position × α)) :
    lastOf (es ++ fs) = (lastOf fs).or (lastOf es) := by
  simp only [lastOf, List.getLast?_append]
  cases fs.getLast? <;> simp

theorem mem_of_firstOf {es : List (Position × α)} {p : Position} (h : firstOf es = some p) :
    p ∈ es.map Prod.fst := by
  cases es with
  | nil => simp at h
  | cons e es => simp_all

theorem mem_of_lastOf {es : List (Position × α)} {p : Position} (h : lastOf es = some p) :
    p ∈ es.map Prod.fst := by
  simp only [lastOf, Option.map_eq_some_iff] at h
  obtain ⟨e, he, rfl⟩ := h
  exact List.mem_map_of_mem (List.mem_of_getLast? he)

/-- The nodes of `c` link up exactly the entries `es`, in their order and in both directions. -/
structure Threads (c : Chain α) (es : List (Position × α)) : Prop where
  /-- An entry has a node that names the entries on its two sides. -/
  node : ∀ l p x r, es = l ++ (p, x) :: r → c.nodes.get? p = some ⟨x, lastOf l, firstOf r⟩
  /-- There are no other nodes. -/
  live : ∀ p, (c.nodes.get? p).isSome → p ∈ es.map Prod.fst
  nodup : (es.map Prod.fst).Nodup
  head : c.head = firstOf es
  tail : c.tail = lastOf es
  size : c.nodes.size = es.length

theorem threads_empty : Threads (empty : Chain α) [] where
  node := by simp
  live := by simp [empty]
  nodup := by simp
  head := rfl
  tail := rfl
  size := rfl

namespace Threads

variable {c : Chain α} {es : List (Position × α)}

/-- A position has a node exactly if it has an entry. -/
theorem isSome_iff (h : c.Threads es) (p : Position) :
    (c.nodes.get? p).isSome ↔ p ∈ es.map Prod.fst := by
  refine ⟨h.live p, fun hp => ?_⟩
  obtain ⟨⟨q, x⟩, he, rfl⟩ := List.mem_map.mp hp
  obtain ⟨l, r, hes⟩ := List.append_of_mem he
  rw [h.node l q x r hes]
  rfl

/-- The entries split where a live position stands, and its node names both sides. -/
theorem split (h : c.Threads es) {p : Position} {n : Node α} (hn : c.nodes.get? p = some n) :
    ∃ l r, es = l ++ (p, n.value) :: r ∧ n.prev = lastOf l ∧ n.next = firstOf r := by
  have hp := h.live p (by simp [hn])
  obtain ⟨⟨q, x⟩, he, rfl⟩ := List.mem_map.mp hp
  obtain ⟨l, r, hes⟩ := List.append_of_mem he
  have := h.node l q x r hes
  rw [hn] at this
  cases this
  exact ⟨l, r, hes, rfl, rfl⟩

/-! ### Walking finds the entries -/

theorem walk_eq (h : c.Threads es) :
    ∀ (l r : List (Position × α)), es = l ++ r → c.walk r.length (firstOf r) = r := by
  intro l r
  induction r generalizing l with
  | nil => intro _; rfl
  | cons e r ih =>
    intro hes
    simp only [List.length_cons, firstOf_cons, walk, h.node l e.1 e.2 r hes]
    rw [ih (l ++ [e]) (by simp [hes])]

theorem walkBack_eq (h : c.Threads es) :
    ∀ (l r : List (Position × α)), es = l.reverse ++ r → c.walkBack l.length (firstOf l) = l := by
  intro l
  induction l with
  | nil => intro _ _; rfl
  | cons e l ih =>
    intro r hes
    have hes' : es = l.reverse ++ e :: r := by simp [hes]
    have hlast : lastOf l.reverse = firstOf l := by simp [lastOf, firstOf]
    simp only [List.length_cons, firstOf_cons, walkBack, h.node l.reverse e.1 e.2 r hes', hlast]
    rw [ih (e :: r) hes']

theorem entries_eq (h : c.Threads es) : c.entries = es := by
  rw [entries, h.size, h.head]
  exact h.walk_eq [] es rfl

theorem backwards_eq (h : c.Threads es) : c.backwards = es.reverse := by
  have hlast : lastOf es = firstOf es.reverse := by simp [lastOf, firstOf]
  rw [backwards, h.size, h.tail, hlast, ← List.length_reverse]
  exact h.walkBack_eq es.reverse [] (by simp)

end Threads

/-! ## The edits keep a chain well linked -/

theorem get?_setNext (c : Chain α) (p q : Option Position) (k : Position) :
    (c.setNext p q).nodes.get? k =
      (c.nodes.get? k).map fun n => if p = some k then { n with next := q } else n := by
  cases p with
  | none => simp [setNext]
  | some p =>
    simp only [setNext, Arena.get?_modify, Option.some.injEq]
    by_cases h : k = p
    · simp [h]
    · simp [h, Ne.symm h]

theorem get?_setPrev (c : Chain α) (q p : Option Position) (k : Position) :
    (c.setPrev q p).nodes.get? k =
      (c.nodes.get? k).map fun n => if q = some k then { n with prev := p } else n := by
  cases q with
  | none => simp [setPrev]
  | some q =>
    simp only [setPrev, Arena.get?_modify, Option.some.injEq]
    by_cases h : k = q
    · simp [h]
    · simp [h, Ne.symm h]

/-- What the nodes are once a link in each direction is written. -/
theorem get?_setPrev_setNext (c : Chain α) (l r p q : Option Position) (k : Position) :
    ((c.setNext l q).setPrev r p).nodes.get? k = (c.nodes.get? k).map fun n =>
      ⟨n.value, if r = some k then p else n.prev, if l = some k then q else n.next⟩ := by
  simp only [get?_setPrev, get?_setNext, Option.map_map]
  congr 1
  funext n
  simp only [Function.comp]
  split <;> split <;> rfl

@[simp] theorem size_setNext (c : Chain α) (p q : Option Position) :
    (c.setNext p q).nodes.size = c.nodes.size := by cases p <;> rfl

@[simp] theorem size_setPrev (c : Chain α) (q p : Option Position) :
    (c.setPrev q p).nodes.size = c.nodes.size := by cases q <;> rfl

theorem head_setNext (c : Chain α) (p q : Option Position) :
    (c.setNext p q).head = if p = none then q else c.head := by cases p <;> rfl

@[simp] theorem tail_setNext (c : Chain α) (p q : Option Position) :
    (c.setNext p q).tail = c.tail := by cases p <;> rfl

@[simp] theorem head_setPrev (c : Chain α) (q p : Option Position) :
    (c.setPrev q p).head = c.head := by cases q <;> rfl

theorem tail_setPrev (c : Chain α) (q p : Option Position) :
    (c.setPrev q p).tail = if q = none then p else c.tail := by cases q <;> rfl

/-- What the nodes are once one is put in between `l` and `r`. -/
theorem get?_insertBetween {c : Chain α} {l r : Option Position} (hl : l ≠ some c.nodes.nextKey)
    (hr : r ≠ some c.nodes.nextKey) (x : α) (q : Position) :
    (c.insertBetween l r x).nodes.get? q =
      if q = c.nodes.nextKey then some ⟨x, l, r⟩
      else (c.nodes.get? q).map fun n =>
        ⟨n.value, if r = some q then some c.nodes.nextKey else n.prev,
          if l = some q then some c.nodes.nextKey else n.next⟩ := by
  rw [insertBetween, get?_setPrev_setNext, Arena.get?_insert]
  by_cases hq : q = c.nodes.nextKey
  · simp [hq, hl, hr]
  · rw [if_neg hq, if_neg hq]

theorem head_insertBetween (c : Chain α) (l r : Option Position) (x : α) :
    (c.insertBetween l r x).head = if l = none then some c.nodes.nextKey else c.head := by
  simp [insertBetween, head_setNext]

theorem tail_insertBetween (c : Chain α) (l r : Option Position) (x : α) :
    (c.insertBetween l r x).tail = if r = none then some c.nodes.nextKey else c.tail := by
  simp [insertBetween, tail_setPrev]

@[simp] theorem size_insertBetween (c : Chain α) (l r : Option Position) (x : α) :
    (c.insertBetween l r x).nodes.size = c.nodes.size + 1 := by
  simp [insertBetween]

theorem firstOf_eq_none_iff {es : List (Position × α)} : firstOf es = none ↔ es = [] := by
  cases es <;> simp

theorem lastOf_eq_none_iff {es : List (Position × α)} : lastOf es = none ↔ es = [] := by
  simp [lastOf]

/-- A split of a list with a marked place in it lies before the place, at it or behind it. -/
theorem split_cases {l r l' r' : List α} {x y : α} (h : l ++ x :: r = l' ++ y :: r') :
    (∃ m, l = l' ++ y :: m ∧ r' = m ++ x :: r) ∨ (l = l' ∧ x = y ∧ r = r') ∨
      (∃ m, l' = l ++ x :: m ∧ r = m ++ y :: r') := by
  rcases List.append_eq_append_iff.mp h with ⟨m, hl, hr⟩ | ⟨m, hl, hr⟩
  · cases m with
    | nil => simp_all
    | cons z m =>
      simp only [List.cons_append, List.cons.injEq] at hr
      exact .inr (.inr ⟨m, by simp [hl, hr.1], hr.2⟩)
  · cases m with
    | nil => simp_all
    | cons z m =>
      simp only [List.cons_append, List.cons.injEq] at hr
      exact .inl ⟨m, by simp [hl, hr.1], hr.2⟩

/-- Among distinct positions, only the last one is the last one. -/
theorem lastOf_append_cons_iff {l r : List (Position × α)} {p : Position} {x : α}
    (h : ((l ++ (p, x) :: r).map Prod.fst).Nodup) :
    lastOf (l ++ (p, x) :: r) = some p ↔ r = [] := by
  simp only [List.map_append, List.map_cons, List.nodup_append, List.nodup_cons] at h
  rw [lastOf_append, lastOf_cons]
  cases hr : lastOf r with
  | none => simp [lastOf_eq_none_iff.mp hr]
  | some q =>
    have hq := mem_of_lastOf hr
    have hne : q ≠ p := by rintro rfl; exact h.2.1.1 hq
    have hnil : r ≠ [] := by rintro rfl; simp at hr
    simp [hne, hnil]

/-- Among distinct positions, only the first one is the first one. -/
theorem firstOf_append_cons_iff {l r : List (Position × α)} {p : Position} {x : α}
    (h : ((l ++ (p, x) :: r).map Prod.fst).Nodup) :
    firstOf (l ++ (p, x) :: r) = some p ↔ l = [] := by
  cases l with
  | nil => simp
  | cons e l =>
    have hne : e.1 ≠ p := by
      rintro rfl
      simp at h
    simp [hne]

namespace Threads

variable {c : Chain α}

/-- A new node goes between any two neighbouring parts of the entries. -/
theorem insertBetween {l r : List (Position × α)} (h : c.Threads (l ++ r)) (x : α) :
    (c.insertBetween (lastOf l) (firstOf r) x).Threads (l ++ (c.nodes.nextKey, x) :: r) := by
  have hfresh : c.nodes.nextKey ∉ (l ++ r).map Prod.fst := by
    rw [← h.isSome_iff, Arena.get?_nextKey]
    simp
  have hlne : lastOf l ≠ some c.nodes.nextKey := fun e =>
    hfresh (by rw [List.map_append]; exact List.mem_append_left _ (mem_of_lastOf e))
  have hrne : firstOf r ≠ some c.nodes.nextKey := fun e =>
    hfresh (by rw [List.map_append]; exact List.mem_append_right _ (mem_of_firstOf e))
  have hget := get?_insertBetween hlne hrne x
  have hhead := c.head_insertBetween (lastOf l) (firstOf r) x
  have htail := c.tail_insertBetween (lastOf l) (firstOf r) x
  have hsize := c.size_insertBetween (lastOf l) (firstOf r) x
  generalize c.insertBetween (lastOf l) (firstOf r) x = d at *
  generalize c.nodes.nextKey = k at *
  have hnd := h.nodup
  have hdis := hnd
  simp only [List.map_append, List.nodup_append] at hdis
  rw [List.map_append, List.mem_append, not_or] at hfresh
  constructor
  · intro l' p y r' he
    rw [hget]
    rcases split_cases he with ⟨m, rfl, rfl⟩ | ⟨rfl, hpy, rfl⟩ | ⟨m, rfl, rfl⟩
    · have hp : p ≠ k := by rintro rfl; simp at hfresh
      have hr : firstOf r ≠ some p := fun e =>
        hdis.2.2 p (by simp) p (mem_of_firstOf e) rfl
      have hl := lastOf_append_cons_iff (l := l') (r := m) (p := p) (x := y) hdis.1
      rw [if_neg hp, h.node l' p y (m ++ r) (by simp)]
      simp only [Option.map_some, if_neg hr, hl]
      cases m <;> simp
    · injection hpy with hk hx
      subst hk hx
      simp
    · have hp : p ≠ k := by rintro rfl; simp at hfresh
      have hl : lastOf l ≠ some p := fun e =>
        hdis.2.2 p (mem_of_lastOf e) p (by simp) rfl
      have hr := firstOf_append_cons_iff (l := m) (r := r') (p := p) (x := y) hdis.2.1
      rw [if_neg hp, h.node (l ++ m) p y r' (by simp)]
      simp only [Option.map_some, if_neg hl, hr]
      cases m <;> simp [lastOf_append, lastOf_cons]
  · intro q hq
    rw [hget] at hq
    by_cases hk : q = k
    · simp [hk]
    · rw [if_neg hk, Option.isSome_map] at hq
      have := h.live q hq
      simp only [List.map_append, List.map_cons, List.mem_append, List.mem_cons] at this ⊢
      rcases this with h | h
      · exact .inl h
      · exact .inr (.inr h)
  · simp only [List.map_append, List.map_cons, List.nodup_append, List.nodup_cons, List.mem_cons]
    refine ⟨hdis.1, ⟨hfresh.2, hdis.2.1⟩, ?_⟩
    rintro a ha b (rfl | hb)
    · rintro rfl; exact hfresh.1 ha
    · exact hdis.2.2 a ha b hb
  · rw [hhead, firstOf_append, h.head, firstOf_append]
    cases l <;> simp [lastOf_cons]
  · rw [htail, lastOf_append, h.tail, lastOf_append, lastOf_cons]
    cases r <;> simp [lastOf_cons]
  · rw [hsize, h.size]
    simp
    omega

/-- Without its node, an entry is gone and its neighbours stand side by side. -/
theorem unlink {l r : List (Position × α)} {p : Position} {x : α}
    (h : c.Threads (l ++ (p, x) :: r)) : (c.unlink p).Threads (l ++ r) := by
  have hp := h.node l p x r rfl
  have hunlink : c.unlink p = (Chain.setNext { c with nodes := c.nodes.erase p } (lastOf l)
      (firstOf r)).setPrev (firstOf r) (lastOf l) := by
    simp only [Chain.unlink, hp]
  have hget : ∀ q, (c.unlink p).nodes.get? q =
      if q = p then none
      else (c.nodes.get? q).map fun n =>
        ⟨n.value, if firstOf r = some q then lastOf l else n.prev,
          if lastOf l = some q then firstOf r else n.next⟩ := by
    intro q
    rw [hunlink, get?_setPrev_setNext, Arena.get?_erase]
    by_cases hq : q = p
    · simp [hq]
    · rw [if_neg hq, if_neg hq]
  have hhead : (c.unlink p).head = if lastOf l = none then firstOf r else c.head := by
    simp [hunlink, head_setNext]
  have htail : (c.unlink p).tail = if firstOf r = none then lastOf l else c.tail := by
    simp [hunlink, tail_setPrev]
  have hsize : (c.unlink p).nodes.size = c.nodes.size - 1 := by
    simp [hunlink, Arena.size_erase (show (c.nodes.get? p).isSome by simp [hp])]
  generalize c.unlink p = d at *
  have hnd := h.nodup
  have hdis := hnd
  simp only [List.map_append, List.map_cons, List.nodup_append, List.nodup_cons,
    List.mem_cons] at hdis
  constructor
  · intro l' q y r' he
    rw [hget]
    rcases List.append_eq_append_iff.mp he with ⟨m, rfl, hr'⟩ | ⟨m, rfl, hr'⟩
    · -- the entry lies behind the gap
      subst hr'
      have hq : q ≠ p := by rintro rfl; simp at hdis
      have hl : lastOf l ≠ some q := fun e =>
        hdis.2.2 q (mem_of_lastOf e) q (by simp) rfl
      have hr := firstOf_append_cons_iff (l := m) (r := r') (p := q) (x := y)
        (by simpa using hdis.2.1.2)
      rw [if_neg hq, h.node (l ++ (p, x) :: m) q y r' (by simp)]
      simp only [Option.map_some, if_neg hl, hr]
      cases m <;> simp [lastOf_append, lastOf_cons]
    · cases m with
      | nil =>
        simp only [List.nil_append] at hr'
        subst hr'
        have hq : q ≠ p := by rintro rfl; simp at hdis
        have hl : lastOf l' ≠ some q := fun e =>
          hdis.2.2 q (by simpa using mem_of_lastOf e) q (by simp) rfl
        rw [if_neg hq, h.node (l' ++ [(p, x)]) q y r' (by simp)]
        simp [hl]
      | cons e m =>
        simp only [List.cons_append, List.cons.injEq] at hr'
        obtain ⟨rfl, rfl⟩ := hr'
        have hq : q ≠ p := fun e => (hdis.2.2 q (by simp) p (.inl rfl)) e
        have hr : firstOf r ≠ some q := fun e =>
          hdis.2.2 q (by simp) q (.inr (mem_of_firstOf e)) rfl
        have hl := lastOf_append_cons_iff (l := l') (r := m) (p := q) (x := y)
          (by simpa using hdis.1)
        rw [if_neg hq, h.node l' q y (m ++ (p, x) :: r) (by simp)]
        simp only [Option.map_some, if_neg hr, hl]
        cases m <;> simp
  · intro q hq
    rw [hget] at hq
    by_cases hk : q = p
    · simp [hk] at hq
    · rw [if_neg hk, Option.isSome_map] at hq
      have := h.live q hq
      simp only [List.map_append, List.map_cons, List.mem_append, List.mem_cons] at this ⊢
      rcases this with h | h | h
      · exact .inl h
      · exact absurd h hk
      · exact .inr h
  · simp only [List.map_append, List.nodup_append]
    exact ⟨hdis.1, hdis.2.1.2, fun a ha b hb => hdis.2.2 a ha b (.inr hb)⟩
  · rw [hhead, firstOf_append, h.head, firstOf_append]
    cases l <;> simp [lastOf_cons]
  · rw [htail, lastOf_append, h.tail, lastOf_append, lastOf_cons]
    cases r <;> simp [lastOf_cons]
  · rw [hsize, h.size]
    simp

end Threads

end Chain

end StraightLine
