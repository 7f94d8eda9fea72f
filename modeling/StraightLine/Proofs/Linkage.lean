import StraightLine.Proofs.Edits

/-!
# The links of a sequence

An edit changes up to four links, one after the other, and on the way the links do not fit together.
Each of these writes goes to a node that has to be there.

* `Chain.writeNext?` and `Chain.writePrev?` — one write, which fails at a position without a node;
  `Chain.edit?` does an edit by such writes.
* `Arena.eq_of_layout` — an arena is known by its layout and by what its keys hold, so the order of
  the writes does not matter.
* `Chain.splice` — the chain as it would be if the insertion of several elements ended here. Behind
  each of them it is well linked, although the chain itself is not.
* `Sequence.edit?_eq` — no write of an edit fails, and all of them together are the edit.
* `Chain.Walks` — the whole way along the links, and `Sequence.Linked`, what the links of a sequence
  are like.
* `Sequence.run_linked` — **every run of edits keeps the links**, and no write in it fails.
-/

namespace StraightLine

variable {α : Type}

/-! ## Layouts of arenas -/

namespace Arena

/-- Everything of an arena but its values. -/
def layout (a : Arena α) : Array Nat × List Nat × Nat :=
  (a.slots.map Slot.generation, a.free, a.size)

theorem map_generation_modify (slots : Array (Slot α)) (i : Nat) (f : Slot α → Slot α)
    (hf : ∀ s, (f s).generation = s.generation) :
    (slots.modify i f).map Slot.generation = slots.map Slot.generation := by
  apply Array.ext_getElem?
  intro j
  simp only [Array.getElem?_map, Array.getElem?_modify]
  split <;> simp [Function.comp_def, hf]

@[simp] theorem layout_modify (a : Arena α) (k : Key) (f : α → α) :
    (a.modify k f).layout = a.layout := by
  have hgen := map_generation_modify a.slots k.slot
    (fun s => if s.generation = k.generation then ⟨s.generation, s.content.map f⟩ else s)
    (fun s => by split <;> rfl)
  simp only [layout, modify, hgen]

/-- What an insertion does to the layout does not depend on the value. -/
theorem layout_insert (a : Arena α) (x : α) :
    (a.insert x).layout =
      match a.layout with
      | (generations, [], n) => (generations.push 1, [], n + 1)
      | (generations, _ :: free, n) => (generations, free, n + 1) := by
  unfold insert
  split
  · next h => simp [layout, h]
  · next i rest h =>
    have hgen := map_generation_modify a.slots i (fun s => ⟨s.generation, some x⟩) (fun _ => rfl)
    simp only [layout, h, hgen]

variable {a b : Arena α}

theorem generation_eq (h : a.layout = b.layout) (i : Nat) :
    a.slots[i]?.map Slot.generation = b.slots[i]?.map Slot.generation := by
  have hgen := congrArg (fun l => l.1[i]?) h
  simpa [layout] using hgen

theorem nextKey_eq (h : a.layout = b.layout) : a.nextKey = b.nextKey := by
  have hfree : a.free = b.free := congrArg (fun l => l.2.1) h
  have hsize : a.slots.size = b.slots.size := by
    simpa [layout] using congrArg (fun l => l.1.size) h
  unfold nextKey
  rw [hfree, hsize]
  cases b.free with
  | nil => rfl
  | cons i rest =>
    have hgen := generation_eq h i
    cases ha : a.slots[i]? <;> cases hb : b.slots[i]? <;> simp_all

/-- **An arena is known by its layout and by what its keys hold.** -/
theorem eq_of_layout (h : a.layout = b.layout) (hget : ∀ k, a.get? k = b.get? k) : a = b := by
  have hslots : a.slots = b.slots := by
    apply Array.ext_getElem?
    intro i
    have hgen := generation_eq h i
    cases ha : a.slots[i]? with
    | none => simpa [ha] using hgen.symm
    | some s =>
      cases hb : b.slots[i]? with
      | none => simp [ha, hb] at hgen
      | some t =>
        obtain ⟨g, v⟩ := s
        obtain ⟨g', w⟩ := t
        have hg : g = g' := by simpa [ha, hb] using hgen
        have hv : v = w := by simpa [get?, ha, hb, hg] using hget ⟨i, g⟩
        rw [hg, hv]
  have hfree : a.free = b.free := congrArg (fun l => l.2.1) h
  have hsize : a.size = b.size := congrArg (fun l => l.2.2) h
  cases a
  cases b
  simp_all

end Arena

namespace Chain

/-! ## Edits by single writes -/

/-- At the position, if one is given, there is a node. -/
def Holds (c : Chain α) (p : Option Position) : Prop := ∀ k, p = some k → (c.nodes.get? k).isSome

instance (c : Chain α) (p : Option Position) : Decidable (c.Holds p) :=
  match p with
  | none => .isTrue (by simp [Holds])
  | some k => decidable_of_iff (c.nodes.get? k).isSome (by simp [Holds])

/-- Writes the link behind `p`, or the head; the node has to be there. -/
def writeNext? (c : Chain α) (p q : Option Position) : Option (Chain α) :=
  if c.Holds p then some (c.setNext p q) else none

/-- Writes the link before `q`, or the tail; the node has to be there. -/
def writePrev? (c : Chain α) (q p : Option Position) : Option (Chain α) :=
  if c.Holds q then some (c.setPrev q p) else none

/-- The chain with one more node that is not linked yet. -/
def addNode (c : Chain α) (x : α) : Chain α := { c with nodes := c.nodes.insert ⟨x, none, none⟩ }

/-- The chain without a node to which others may still be linked. -/
def dropNode (c : Chain α) (p : Position) : Chain α := { c with nodes := c.nodes.erase p }

/-- Adds a node and links it behind the `last` one; answers its position. Nothing is behind it
yet. -/
def attach? (c : Chain α) (last : Option Position) (x : α) : Option (Position × Chain α) := do
  let k := c.nodes.nextKey
  let d ← (c.addNode x).writePrev? (some k) last
  let d ← d.writeNext? last (some k)
  return (k, d)

/-- Attaches a node behind the tail, which it then is itself. -/
def pushBack? (c : Chain α) (x : α) : Option (Position × Chain α) := do
  let (k, d) ← c.attach? c.tail x
  return (k, { d with tail := some k })

/-- Adds nodes at the back, one after the other. -/
def extend? (c : Chain α) (xs : List α) : Option (Chain α) :=
  xs.foldlM (fun c x => (c.pushBack? x).map Prod.snd) c

/-- Attaches nodes one behind the other, the first one behind `last`. -/
def attachAll? (c : Chain α) (last : Option Position) (xs : List α) :
    Option (Option Position × Chain α) :=
  xs.foldlM (fun r x => (r.2.attach? r.1 x).map fun r => (some r.1, r.2)) (last, c)

/-- Attaches nodes behind the one before `p` and links the last of them to `p` in the end. -/
def insertBefore? (c : Chain α) (p : Position) (xs : List α) : Option (Bool × Chain α) :=
  match c.nodes.get? p with
  | none => some (false, c)
  | some n => do
    let (last, c) ← c.attachAll? n.prev xs
    let c ← c.writeNext? last (some p)
    let c ← c.writePrev? (some p) last
    return (true, c)

/-- Takes a node out and then links its neighbours to each other. -/
def remove? (c : Chain α) (p : Position) : Option (Option α × Chain α) :=
  match c.nodes.get? p with
  | none => some (none, c)
  | some n => do
    let c ← (c.dropNode p).writeNext? n.prev n.next
    let c ← c.writePrev? n.next n.prev
    return (some n.value, c)

/-- Inserts before the node and then takes it out. -/
def replaceAt? (c : Chain α) (p : Position) (xs : List α) : Option (Option α × Chain α) := do
  match ← c.insertBefore? p xs with
  | (false, c) => return (none, c)
  | (true, c) => c.remove? p

/-- The answer to an edit and the chain afterwards, if no write fails. -/
def edit? (c : Chain α) : Edit α → Option (Reply α × Chain α)
  | .pushBack x => (c.pushBack? x).map fun r => (.position r.1, r.2)
  | .extend xs => (c.extend? xs).map fun c => (.nothing, c)
  | .insertBefore p xs => (c.insertBefore? p xs).map fun r => (.inserted r.1, r.2)
  | .remove p => (c.remove? p).map fun r => (.taken r.1, r.2)
  | .replaceAt p xs => (c.replaceAt? p xs).map fun r => (.taken r.1, r.2)

/-- The chain after a list of edits, if no write fails. -/
def run? (edits : List (Edit α)) : Option (Chain α) :=
  edits.foldlM (fun c e => (c.edit? e).map Prod.snd) .empty

/-! ## Chains with the same links -/

@[simp] theorem layout_setNext (c : Chain α) (p q : Option Position) :
    (c.setNext p q).nodes.layout = c.nodes.layout := by cases p <;> simp [setNext]

@[simp] theorem layout_setPrev (c : Chain α) (q p : Option Position) :
    (c.setPrev q p).nodes.layout = c.nodes.layout := by cases q <;> simp [setPrev]

theorem eq_of_links {c d : Chain α} (hlayout : c.nodes.layout = d.nodes.layout)
    (hget : ∀ k, c.nodes.get? k = d.nodes.get? k) (hhead : c.head = d.head)
    (htail : c.tail = d.tail) : c = d := by
  have hnodes : c.nodes = d.nodes := Arena.eq_of_layout hlayout hget
  cases c
  cases d
  simp_all

/-! ## The writes of an edit -/

theorem get?_addNode (c : Chain α) (x : α) (k : Position) :
    (c.addNode x).nodes.get? k =
      if k = c.nodes.nextKey then some ⟨x, none, none⟩ else c.nodes.get? k :=
  c.nodes.get?_insert _ k

@[simp] theorem holds_setNext (c : Chain α) (p q r : Option Position) :
    (c.setNext p q).Holds r ↔ c.Holds r := by simp [Holds, get?_setNext]

@[simp] theorem holds_setPrev (c : Chain α) (q p r : Option Position) :
    (c.setPrev q p).Holds r ↔ c.Holds r := by simp [Holds, get?_setPrev]

theorem Holds.addNode {c : Chain α} {p : Option Position} (h : c.Holds p) (x : α) :
    (c.addNode x).Holds p := by
  intro k hk
  rw [get?_addNode]
  split
  · rfl
  · exact h k hk

theorem holds_addNode (c : Chain α) (x : α) : (c.addNode x).Holds (some c.nodes.nextKey) := by
  simp [Holds, get?_addNode]

/-- A node that is there is not the next one. -/
theorem Holds.ne_nextKey {c : Chain α} {p : Option Position} (h : c.Holds p) :
    p ≠ some c.nodes.nextKey := by
  intro hp
  have hlive := h _ hp
  simp [Arena.get?_nextKey] at hlive

theorem writeNext?_of_holds {c : Chain α} {p : Option Position} (h : c.Holds p)
    (q : Option Position) : c.writeNext? p q = some (c.setNext p q) := if_pos h

theorem writePrev?_of_holds {c : Chain α} {q : Option Position} (h : c.Holds q)
    (p : Option Position) : c.writePrev? q p = some (c.setPrev q p) := if_pos h

/-- A new node behind the `last` one. -/
def attach (c : Chain α) (last : Option Position) (x : α) : Chain α :=
  ((c.addNode x).setPrev (some c.nodes.nextKey) last).setNext last (some c.nodes.nextKey)

theorem attach?_of_holds {c : Chain α} {last : Option Position} (h : c.Holds last) (x : α) :
    c.attach? last x = some (c.nodes.nextKey, c.attach last x) := by
  have hlast : ((c.addNode x).setPrev (some c.nodes.nextKey) last).Holds last := by
    simpa using h.addNode x
  simp [attach?, attach, writePrev?_of_holds (c.holds_addNode x), writeNext?_of_holds hlast]

theorem Holds.attach {c : Chain α} {p : Option Position} (h : c.Holds p) (last : Option Position)
    (x : α) : (c.attach last x).Holds p := by
  simpa [Chain.attach] using h.addNode x

theorem holds_attach (c : Chain α) (last : Option Position) (x : α) :
    (c.attach last x).Holds (some c.nodes.nextKey) := by
  simpa [attach] using c.holds_addNode x

theorem get?_attach {c : Chain α} {last : Option Position} (h : c.Holds last) (x : α)
    (q : Position) :
    (c.attach last x).nodes.get? q =
      if q = c.nodes.nextKey then some ⟨x, last, none⟩
      else (c.nodes.get? q).map fun n =>
        ⟨n.value, n.prev, if last = some q then some c.nodes.nextKey else n.next⟩ := by
  have hne := h.ne_nextKey
  simp only [attach, get?_setNext, get?_setPrev, get?_addNode]
  by_cases hq : q = c.nodes.nextKey
  · simp [hq, hne]
  · simp only [if_neg hq, Option.map_map, Option.some.injEq, Ne.symm hq, if_false]
    congr 1
    funext n
    simp only [Function.comp]
    split <;> rfl

theorem head_attach (c : Chain α) (last : Option Position) (x : α) :
    (c.attach last x).head = if last = none then some c.nodes.nextKey else c.head := by
  simp [attach, addNode, head_setNext]

@[simp] theorem tail_attach (c : Chain α) (last : Option Position) (x : α) :
    (c.attach last x).tail = c.tail := by
  simp [attach, addNode, tail_setPrev]

theorem layout_attach (c : Chain α) (last l r : Option Position) (x : α) :
    (c.attach last x).nodes.layout = (c.insertBetween l r x).nodes.layout := by
  simp [attach, insertBetween, addNode, Arena.layout_insert]

/-- The writes of an addition at the back. -/
theorem pushBack?_eq {c : Chain α} (htail : c.Holds c.tail) (x : α) :
    c.pushBack? x = some (c.nodes.nextKey, c.insertBetween c.tail none x) := by
  have heq : { c.attach c.tail x with tail := some c.nodes.nextKey } =
      c.insertBetween c.tail none x := by
    apply eq_of_links
    · exact c.layout_attach c.tail c.tail none x
    · intro q
      have hnone : none ≠ some c.nodes.nextKey := nofun
      simp [get?_attach htail, get?_insertBetween htail.ne_nextKey hnone]
    · rw [head_attach, head_insertBetween]
    · simp [tail_insertBetween]
  simp [pushBack?, attach?_of_holds htail, heq]

/-! ## Insertions that are under way -/

/-- The chain as the insertion before `p` leaves it when `last` is the last new node. -/
def splice (c : Chain α) (last : Option Position) (p : Position) : Chain α :=
  (c.setNext last (some p)).setPrev (some p) last

theorem get?_splice (c : Chain α) (last : Option Position) (p q : Position) :
    (c.splice last p).nodes.get? q = (c.nodes.get? q).map fun n =>
      ⟨n.value, if p = q then last else n.prev, if last = some q then some p else n.next⟩ := by
  simp only [splice, get?_setPrev_setNext, Option.some.injEq]

theorem head_splice (c : Chain α) (last : Option Position) (p : Position) :
    (c.splice last p).head = if last = none then some p else c.head := by
  simp [splice, head_setNext]

theorem tail_splice (c : Chain α) (last : Option Position) (p : Position) :
    (c.splice last p).tail = c.tail := by
  simp [splice, tail_setPrev]

/-- **One turn of an insertion.** The links are open behind the new node, but were the insertion to
end here, the node would stand between the last one and `p`. -/
theorem splice_attach {c : Chain α} {last : Option Position} {p : Position} (hlast : c.Holds last)
    (hp : c.Holds (some p)) (x : α) :
    (c.attach last x).splice (some c.nodes.nextKey) p =
      (c.splice last p).insertBetween last (some p) x := by
  have hpne : p ≠ c.nodes.nextKey := by simpa using hp.ne_nextKey
  have hlayout : (c.splice last p).nodes.layout = c.nodes.layout := by simp [splice]
  have hkey : (c.splice last p).nodes.nextKey = c.nodes.nextKey := Arena.nextKey_eq hlayout
  have hlast' : (c.splice last p).Holds last := by simpa [splice] using hlast
  have hp' : (c.splice last p).Holds (some p) := by simpa [splice] using hp
  apply eq_of_links
  · simp [splice, attach, insertBetween, addNode, Arena.layout_insert]
  · intro q
    rw [get?_splice, get?_attach hlast,
      get?_insertBetween hlast'.ne_nextKey hp'.ne_nextKey, get?_splice, hkey]
    by_cases hq : q = c.nodes.nextKey
    · simp [hq, hpne]
    · simp only [if_neg hq, Option.map_map]
      congr 1
      funext n
      by_cases hpq : p = q <;> by_cases hlq : last = some q <;>
        simp [Function.comp, hpq, hlq, Ne.symm hq]
  · rw [head_splice, head_attach, head_insertBetween, head_splice, hkey]
    cases last <;> simp
  · simp [tail_splice, tail_insertBetween]

end Chain

namespace Sequence

/-! ## No write of an edit fails -/

theorem holds_iff (s : Sequence α) (p : Option Position) :
    s.chain.Holds p ↔ ∀ k, p = some k → k ∈ s.positions := by
  simp only [Chain.Holds, ← isSome_get?_iff, get?, Option.isSome_map]

theorem holds_firstOf (s : Sequence α) {es : List (Position × α)} (h : es ⊆ s.entries) :
    s.chain.Holds (Chain.firstOf es) := by
  rw [holds_iff]
  intro k hk
  exact List.map_subset _ h (Chain.mem_of_firstOf hk)

theorem holds_lastOf (s : Sequence α) {es : List (Position × α)} (h : es ⊆ s.entries) :
    s.chain.Holds (Chain.lastOf es) := by
  rw [holds_iff]
  intro k hk
  exact List.map_subset _ h (Chain.mem_of_lastOf hk)

theorem pushBack?_eq (s : Sequence α) (x : α) :
    s.chain.pushBack? x = some (s.nextPosition, (s.pushBack x).chain) := by
  have htail : s.chain.Holds s.chain.tail := by
    rw [s.threads.tail]
    exact s.holds_lastOf (List.Subset.refl _)
  exact Chain.pushBack?_eq htail x

theorem extend?_eq (s : Sequence α) (xs : List α) :
    s.chain.extend? xs = some (s.extend xs).chain := by
  induction xs generalizing s with
  | nil => rfl
  | cons x xs ih =>
    have hrest := ih (s.pushBack x)
    simp only [Chain.extend?, List.foldlM_cons, pushBack?_eq] at hrest ⊢
    exact hrest

/-- If the sequence is what an insertion before `p` would leave now, its next turn inserts one more
element there. -/
theorem chain_insertOneBefore {s : Sequence α} {c : Chain α} {last : Option Position} {p : Position}
    (hs : s.chain = c.splice last p) (hlast : c.Holds last) (hp : c.Holds (some p)) (x : α) :
    (s.insertOneBefore p x).chain = (c.attach last x).splice (some c.nodes.nextKey) p := by
  obtain ⟨n, hn⟩ := Option.isSome_iff_exists.mp (hp p rfl)
  have hnode : s.chain.nodes.get? p =
      some ⟨n.value, last, if last = some p then some p else n.next⟩ := by
    rw [hs, Chain.get?_splice, hn]
    simp
  rw [Chain.splice_attach hlast hp, ← hs]
  unfold insertOneBefore
  split
  · next h => rw [h] at hnode; cases hnode
  · next m h =>
    rw [h] at hnode
    cases hnode
    rfl

/-- **A run of turns.** The sequence with the elements so far is what the insertion would leave. -/
theorem attachAll?_eq {s : Sequence α} {c : Chain α} {last : Option Position} {p : Position}
    (hs : s.chain = c.splice last p) (hlast : c.Holds last) (hp : c.Holds (some p)) (xs : List α) :
    ∃ last' c', c.attachAll? last xs = some (last', c') ∧ c'.Holds last' ∧ c'.Holds (some p) ∧
      (xs.foldl (fun s x => s.insertOneBefore p x) s).chain = c'.splice last' p := by
  induction xs generalizing s c last with
  | nil => exact ⟨last, c, rfl, hlast, hp, hs⟩
  | cons x xs ih =>
    obtain ⟨last', c', hrun, hrest⟩ :=
      ih (chain_insertOneBefore hs hlast hp x) (c.holds_attach last x) (hp.attach last x)
    refine ⟨last', c', ?_, hrest⟩
    simp only [Chain.attachAll?, List.foldlM_cons, Chain.attach?_of_holds hlast] at hrun ⊢
    exact hrun

/-- Before the first turn the links stand as the insertion of nothing would leave them. -/
theorem splice_eq (s : Sequence α) {l r : List (Position × α)} {p : Position} {x : α}
    (h : s.entries = l ++ (p, x) :: r) : s.chain.splice (Chain.lastOf l) p = s.chain := by
  apply Chain.eq_of_links
  · simp [Chain.splice]
  · intro q
    rw [Chain.get?_splice]
    cases hn : s.chain.nodes.get? q with
    | none => rfl
    | some n =>
      have hprev : (if p = q then Chain.lastOf l else n.prev) = n.prev := by
        split
        · next hpq =>
          have hnode := s.threads.node l p x r h
          rw [hpq, hn] at hnode
          cases hnode
          rfl
        · rfl
      have hnext : (if Chain.lastOf l = some q then some p else n.next) = n.next := by
        split
        · next hq =>
          obtain ⟨e, he, rfl⟩ := Option.map_eq_some_iff.mp hq
          obtain ⟨l', rfl⟩ := List.getLast?_eq_some_iff.mp he
          rw [List.append_assoc] at h
          have hnode := s.threads.node l' e.1 e.2 _ h
          rw [hn] at hnode
          cases hnode
          rfl
        · rfl
      rw [Option.map_some, hprev, hnext]
  · rw [Chain.head_splice, s.threads.head, h]
    cases l with
    | nil => rfl
    | cons e l => simp [Chain.lastOf_eq_none_iff]
  · exact s.chain.tail_splice _ p

theorem insertBefore?_eq (s : Sequence α) (p : Position) (xs : List α) :
    s.chain.insertBefore? p xs = some ((s.insertBefore p xs).1, (s.insertBefore p xs).2.chain) := by
  by_cases hp : p ∈ s.positions
  · obtain ⟨l, x, r, h⟩ := exists_entries_eq hp
    have hnode := s.threads.node l p x r h
    have hlast : s.chain.Holds (Chain.lastOf l) := s.holds_lastOf (by simp [h])
    have hhere : s.chain.Holds (some p) := (s.holds_iff _).mpr (by simpa using hp)
    obtain ⟨last, c, hrun, hlast', hhere', hchain⟩ :=
      attachAll?_eq (s.splice_eq h).symm hlast hhere xs
    have hhere'' : (c.setNext last (some p)).Holds (some p) := by simpa using hhere'
    simp only [Chain.insertBefore?, hnode, hrun]
    simp [Chain.writeNext?_of_holds hlast', Chain.writePrev?_of_holds hhere'', insertBefore,
      (s.isSome_get?_iff p).mpr hp, hchain, Chain.splice]
  · have hnone : s.chain.nodes.get? p = none := by
      simpa [get?] using (s.get?_eq_none_iff p).mpr hp
    simp [Chain.insertBefore?, hnone, insertBefore_of_not_live hp]

theorem remove?_eq (s : Sequence α) (p : Position) :
    s.chain.remove? p = some ((s.remove p).1, (s.remove p).2.chain) := by
  cases hn : s.chain.nodes.get? p with
  | none => simp [Chain.remove?, hn, remove, get?, Chain.unlink]
  | some n =>
    obtain ⟨l, r, h, hprev, hnext⟩ := s.threads.split hn
    have hchain : (s.remove p).2.chain =
        ((s.chain.dropNode p).setNext n.prev n.next).setPrev n.next n.prev := by
      simp [remove, Chain.unlink, Chain.dropNode, hn]
    -- the two neighbours are still there, since the entries afterwards are the other ones
    have hentries : (s.remove p).2.entries = l ++ r := (s.entries_remove h).2
    have hl : (s.remove p).2.chain.Holds n.prev := hprev ▸ holds_lastOf _ (by simp [hentries])
    have hr : (s.remove p).2.chain.Holds n.next := hnext ▸ holds_firstOf _ (by simp [hentries])
    rw [hchain, Chain.holds_setPrev, Chain.holds_setNext] at hl hr
    rw [← Chain.holds_setNext _ n.prev n.next] at hr
    have hvalue : (s.remove p).1 = some n.value := (s.entries_remove h).1
    simp [Chain.remove?, hn, Chain.writeNext?_of_holds hl, Chain.writePrev?_of_holds hr, hchain,
      hvalue]

theorem replaceAt?_eq (s : Sequence α) (p : Position) (xs : List α) :
    s.chain.replaceAt? p xs = some ((s.replaceAt p xs).1, (s.replaceAt p xs).2.chain) := by
  rw [Chain.replaceAt?, insertBefore?_eq, replaceAt]
  rcases hinsert : s.insertBefore p xs with ⟨_ | _, t⟩
  · rfl
  · exact t.remove?_eq p

/-- **No write of an edit fails**, and all of them together are the edit. -/
theorem edit?_eq (s : Sequence α) (e : Edit α) :
    s.chain.edit? e = some ((s.edit e).1, (s.edit e).2.chain) := by
  cases e with
  | pushBack x => simp [Chain.edit?, edit, pushBack?_eq]
  | extend xs => simp [Chain.edit?, edit, extend?_eq]
  | insertBefore p xs => simp [Chain.edit?, edit, insertBefore?_eq]
  | remove p => simp [Chain.edit?, edit, remove?_eq]
  | replaceAt p xs => simp [Chain.edit?, edit, replaceAt?_eq]

theorem run?_eq (edits : List (Edit α)) : Chain.run? edits = some (run edits).chain := by
  have key : ∀ (edits : List (Edit α)) (s : Sequence α),
      edits.foldlM (fun c e => (c.edit? e).map Prod.snd) s.chain =
        some (edits.foldl (fun s e => (s.edit e).2) s).chain := by
    intro edits
    induction edits with
    | nil => exact fun _ => rfl
    | cons e edits ih =>
      intro s
      simpa [edit?_eq] using ih (s.edit e).2
  exact key edits .empty

end Sequence

/-! ## Ways along the links -/

namespace Chain

/-- From `p` on, the links lead over exactly the entries `es` and end behind them. Every node on the
way is there. -/
inductive Walks (c : Chain α) (link : Node α → Option Position) :
    Option Position → List (Position × α) → Prop
  | done : Walks c link none []
  | visit {p n es} : c.nodes.get? p = some n → Walks c link (link n) es →
      Walks c link (some p) ((p, n.value) :: es)

namespace Threads

variable {c : Chain α} {es : List (Position × α)}

theorem walks_next (h : c.Threads es) :
    ∀ (l r : List (Position × α)), es = l ++ r → c.Walks Node.next (firstOf r) r := by
  intro l r
  induction r generalizing l with
  | nil => exact fun _ => .done
  | cons e r ih =>
    intro hes
    have hnode := h.node l e.1 e.2 r hes
    exact .visit hnode (ih (l ++ [e]) (by simp [hes]))

theorem walks_prev (h : c.Threads es) :
    ∀ (l r : List (Position × α)), es = l.reverse ++ r → c.Walks Node.prev (firstOf l) l := by
  intro l
  induction l with
  | nil => exact fun _ _ => .done
  | cons e l ih =>
    intro r hes
    have hes' : es = l.reverse ++ e :: r := by simp [hes]
    have hlast : lastOf l.reverse = firstOf l := by simp [lastOf, firstOf]
    have hnode := h.node l.reverse e.1 e.2 r hes'
    rw [hlast] at hnode
    exact .visit hnode (ih (e :: r) hes')

end Threads

end Chain

namespace Sequence

/-! ## Neighbours -/

theorem next_eq_some_iff (s : Sequence α) (p q : Position) :
    s.next p = some q ↔ ∃ l x y r, s.entries = l ++ (p, x) :: (q, y) :: r := by
  constructor
  · intro h
    obtain ⟨n, hn, hnq⟩ := Option.bind_eq_some_iff.mp h
    obtain ⟨l, r, hlr, -, hnext⟩ := s.threads.split hn
    rw [hnext] at hnq
    cases r with
    | nil => simp at hnq
    | cons e r =>
      cases hnq
      exact ⟨l, n.value, e.2, r, hlr⟩
  · rintro ⟨l, x, y, r, h⟩
    exact s.next_eq h

theorem prev_eq_some_iff (s : Sequence α) (p q : Position) :
    s.prev q = some p ↔ ∃ l x y r, s.entries = l ++ (p, x) :: (q, y) :: r := by
  constructor
  · intro h
    obtain ⟨n, hn, hnp⟩ := Option.bind_eq_some_iff.mp h
    obtain ⟨l, r, hlr, hprev, -⟩ := s.threads.split hn
    rw [hprev] at hnp
    obtain ⟨e, he, rfl⟩ := Option.map_eq_some_iff.mp hnp
    obtain ⟨l, rfl⟩ := List.getLast?_eq_some_iff.mp he
    exact ⟨l, e.2, n.value, r, by simpa using hlr⟩
  · rintro ⟨l, x, y, r, h⟩
    rw [List.append_cons] at h
    rw [s.prev_eq h, Chain.lastOf_concat]

/-- What the links of a sequence are like. -/
structure Linked (s : Sequence α) : Prop where
  first_live : ∀ p, s.first = some p → (s.get? p).isSome
  last_live : ∀ p, s.last = some p → (s.get? p).isSome
  next_live : ∀ p q, s.next p = some q → (s.get? q).isSome
  prev_live : ∀ p q, s.prev q = some p → (s.get? p).isSome
  forward : s.chain.Walks Node.next s.first s.entries
  backward : s.chain.Walks Node.prev s.last s.entries.reverse
  /-- The walk visits what is there, -/
  every : ∀ p, (s.get? p).isSome ↔ p ∈ s.entries.map Prod.fst
  /-- and nothing twice. -/
  once : (s.entries.map Prod.fst).Nodup
  size : s.entries.length = s.size
  next_iff_prev : ∀ p q, s.next p = some q ↔ s.prev q = some p
  first_eq_none_iff : s.first = none ↔ s.isEmpty
  last_eq_none_iff : s.last = none ↔ s.isEmpty
  prev_first : ∀ p, s.first = some p → s.prev p = none
  next_last : ∀ p, s.last = some p → s.next p = none

theorem linked (s : Sequence α) : s.Linked where
  first_live p hp := by
    rw [s.first_eq] at hp
    exact (s.isSome_get?_iff p).mpr (Chain.mem_of_firstOf hp)
  last_live p hp := by
    rw [s.last_eq] at hp
    exact (s.isSome_get?_iff p).mpr (Chain.mem_of_lastOf hp)
  next_live p q h := by
    obtain ⟨l, x, y, r, he⟩ := (s.next_eq_some_iff p q).mp h
    simp [isSome_get?_iff, positions, he]
  prev_live p q h := by
    obtain ⟨l, x, y, r, he⟩ := (s.prev_eq_some_iff p q).mp h
    simp [isSome_get?_iff, positions, he]
  forward := by
    rw [s.first_eq]
    exact s.threads.walks_next [] s.entries rfl
  backward := by
    have hlast : Chain.lastOf s.entries = Chain.firstOf s.entries.reverse := by
      simp [Chain.lastOf, Chain.firstOf]
    rw [s.last_eq, hlast]
    exact s.threads.walks_prev s.entries.reverse [] (by simp)
  every := s.isSome_get?_iff
  once := s.nodup_positions
  size := s.size_eq.symm
  next_iff_prev p q := by rw [next_eq_some_iff, prev_eq_some_iff]
  first_eq_none_iff := by simp [s.first_eq, Chain.firstOf_eq_none_iff, isEmpty_iff, toList]
  last_eq_none_iff := by simp [s.last_eq, Chain.lastOf_eq_none_iff, isEmpty_iff, toList]
  prev_first p hp := by
    rw [s.first_eq] at hp
    obtain ⟨e, he, rfl⟩ := Option.map_eq_some_iff.mp hp
    obtain ⟨r, hr⟩ := List.head?_eq_some_iff.mp he
    exact s.prev_eq (l := []) hr
  next_last p hp := by
    rw [s.last_eq] at hp
    obtain ⟨e, he, rfl⟩ := Option.map_eq_some_iff.mp hp
    obtain ⟨l, hl⟩ := List.getLast?_eq_some_iff.mp he
    exact s.next_eq hl

/-- **Every run of edits keeps the links.** Whatever edits were made and at whatever positions, the
two ends and all links name elements that are there; the walk from the first element along the next
links ends, and it visits everything that is there exactly once, as many elements as the size says;
the walk back from the last element visits the reverse of it. An element is the next one of another
exactly if this is the previous one of it, there is no first and no last element exactly in an empty
sequence, and nothing is before the first or behind the last one. Done by single writes on bare
chains, each of which fails where no node is, neither the run from the empty chain nor one more edit
fails, and they lead to the same chains and answers. To build a sequence from a list is such a
run, and a copy of a sequence is the sequence. -/
theorem run_linked :
    (∀ edits : List (Edit α), (run edits).Linked ∧ Chain.run? edits = some (run edits).chain ∧
      ∀ e, (run edits).chain.edit? e =
        some (((run edits).edit e).1, ((run edits).edit e).2.chain)) ∧
    ∀ xs : List α, Chain.extend? .empty xs = some (ofList xs).chain ∧
      ofList xs = run [.extend xs] :=
  ⟨fun edits => ⟨(run edits).linked, run?_eq edits, (run edits).edit?_eq⟩,
    fun xs => ⟨empty.extend?_eq xs, rfl⟩⟩

/-- Where a link leads to a node that is gone, a write fails. -/
example : (((ofList ['a', 'b']).chain.dropNode ⟨1, 1⟩).pushBack? 'c').isNone := by decide

end Sequence

end StraightLine
