import Mathlib.Data.List.Basic
import StraightLine.Grammar.Body
import StraightLine.Proofs.Edits

/-!
# What a body shows

The same symbols can lie in quite different slots, under positions of different generations and with
other free slots beside them: that depends on all the edits that were ever made. Nothing of it is
seen from outside.

* `Sequence.ordinal` — the place of a position, counted from the front. Positions of two sequences
  cannot be compared, their ordinals can. `ordinals_positionsWhere` finds them in the list of the
  elements.
* `Body.LooksLike` — no question about one body is answered otherwise than about another one.
* `Body.looksLike_of_toList_eq` — it is enough that both hold the same symbols.
* `Body.appearance` — **what a body shows does not depend on its history**, and equality of bodies
  is equality of what they show.
-/

namespace StraightLine

namespace Sequence

variable {α : Type}

/-! ## Ordinals -/

/-- How many elements stand before a position. -/
def ordinal (s : Sequence α) (p : Position) : Nat := s.positions.idxOf p

variable {s : Sequence α}

theorem ordinal_eq {l r : List (Position × α)} {p : Position} {x : α}
    (h : s.entries = l ++ (p, x) :: r) : s.ordinal p = l.length := by
  have hp : p ∉ l.map Prod.fst := by
    rintro hmem
    obtain ⟨e, he, rfl⟩ := List.mem_map.mp hmem
    exact (ne_of_entries_eq h).1 e he rfl
  rw [ordinal, positions, h, List.map_append, List.map_cons, List.idxOf_append_of_notMem hp,
    List.idxOf_cons_self, List.length_map, Nat.add_zero]

/-- The entries behind `l` that satisfy `f` are the elements at their ordinals that do. -/
theorem ordinals_filter (f : α → Bool) {l r : List (Position × α)} (h : s.entries = l ++ r) :
    (r.filter fun e => f e.2).map (fun e => s.ordinal e.1) =
      (((r.map Prod.snd).zipIdx l.length).filter fun y => f y.1).map Prod.snd := by
  induction r generalizing l with
  | nil => rfl
  | cons e r ih =>
    have hrest := ih (l := l ++ [e]) (by rw [h, List.append_cons])
    rw [List.length_append, List.length_singleton] at hrest
    have hself : s.ordinal e.1 = l.length := ordinal_eq h
    rw [List.map_cons, List.zipIdx_cons, List.filter_cons, List.filter_cons]
    cases f e.2 with
    | false => exact hrest
    | true => exact congrArg₂ List.cons hself hrest

/-- **The elements that satisfy `f` stand at their places in the list.** -/
theorem ordinals_positionsWhere (s : Sequence α) (f : α → Bool) :
    (s.positionsWhere f).map s.ordinal =
      (s.toList.zipIdx.filter fun y => f y.1).map Prod.snd := by
  rw [positionsWhere, List.map_map]
  exact ordinals_filter f (l := []) rfl

/-- The first element that satisfies `f` is the first one of all that do. -/
theorem findFirst_eq_head? (s : Sequence α) (f : α → Bool) :
    s.findFirst f = (s.positionsWhere f).head? := by
  rw [findFirst, positionsWhere, List.head?_map, List.head?_filter]

end Sequence

namespace Body

open Sequence (run ofList)
open Text (Spelled)

variable {T N : Type} [DecidableEq T] [DecidableEq N] [Spelled T] [Spelled N]

/-! ## Everything that can be seen -/

/-- No question is answered otherwise about `a` than about `b`. Positions differ, so they count by
their ordinals; reading backwards follows the links in that direction. -/
structure LooksLike (a b : Body T N) : Prop where
  size : a.size = b.size
  isEmpty : a.isEmpty = b.isEmpty
  toList : a.toList = b.toList
  refersTo : ∀ id, Body.refersTo a id = Body.refersTo b id
  count : ∀ id, Body.count a id = Body.count b id
  findFirst : ∀ f, (a.findFirst f).map a.ordinal = (b.findFirst f).map b.ordinal
  positionsWhere : ∀ f, (a.positionsWhere f).map a.ordinal = (b.positionsWhere f).map b.ordinal
  backwards : a.backwards.map Prod.snd = b.backwards.map Prod.snd
  plain : Body.plain a = Body.plain b
  compact : (Body.outline a).compact = (Body.outline b).compact
  indented : (Body.outline a).indented = (Body.outline b).indented

omit [DecidableEq T] in
/-- **Bodies with the same symbols look alike**, in whatever slots these lie. -/
theorem looksLike_of_toList_eq {a b : Body T N} (h : a.toList = b.toList) : LooksLike a b where
  size := by rw [Sequence.size_eq_length_toList, Sequence.size_eq_length_toList, h]
  isEmpty := by
    rw [Bool.eq_iff_iff, Sequence.isEmpty_iff, Sequence.isEmpty_iff, h]
  toList := h
  refersTo id := by rw [Body.refersTo, Body.refersTo, h]
  count id := by rw [Body.count, Body.count, h]
  findFirst f := by
    rw [Sequence.findFirst_eq_head?, Sequence.findFirst_eq_head?, ← List.head?_map,
      ← List.head?_map, Sequence.ordinals_positionsWhere, Sequence.ordinals_positionsWhere, h]
  positionsWhere f := by
    rw [Sequence.ordinals_positionsWhere, Sequence.ordinals_positionsWhere, h]
  backwards := by
    rw [Sequence.backwards_eq, Sequence.backwards_eq, List.map_reverse, List.map_reverse]
    exact congrArg List.reverse h
  plain := by rw [Body.plain, Body.plain, h]
  compact := by rw [Body.outline, Body.outline, h]
  indented := by rw [Body.outline, Body.outline, h]

/-- **What a body shows does not depend on its history.** Let two bodies be reached by any edits at
any positions. They are equal exactly if they hold the same symbols in the same order, so equality
is an equivalence; and equal bodies look alike: in their size, their symbols from either end, the
references in them, the ordinals of the symbols that a test finds, and their texts. A body that is
built from a list holds this list, and every body equals the one that is built from its symbols. -/
theorem appearance :
    (∀ e e' : List (Edit (Symbol T N)),
      (run e == run e') = true ↔ (run e).toList = (run e').toList) ∧
    (Equivalence fun e e' : List (Edit (Symbol T N)) => (run e == run e') = true) ∧
    (∀ e e' : List (Edit (Symbol T N)), (run e == run e') = true → LooksLike (run e) (run e')) ∧
    (∀ xs : List (Symbol T N), (ofList xs).toList = xs) ∧
    ∀ e : List (Edit (Symbol T N)), (ofList (run e).toList == run e) = true := by
  refine ⟨fun e e' => Sequence.beq_iff _ _, ⟨fun e => ?_, fun h => ?_, fun h h' => ?_⟩,
    fun e e' h => looksLike_of_toList_eq ((Sequence.beq_iff _ _).mp h),
    fun xs => Sequence.toList_ofList xs, fun e => ?_⟩
  · rw [Sequence.beq_iff]
  · rw [Sequence.beq_iff] at h ⊢
    exact h.symm
  · rw [Sequence.beq_iff] at h h' ⊢
    exact h.trans h'
  · rw [Sequence.beq_iff, Sequence.toList_ofList]

/-- The same letters at other positions, one of which is in its second generation. -/
example :
    let spliced : Body Char Nat := run [.extend [.terminal 'x', .terminal 'b'], .remove ⟨0, 1⟩,
      .insertBefore ⟨1, 1⟩ [.terminal 'a']]
    let straight : Body Char Nat := ofList [.terminal 'a', .terminal 'b']
    (spliced == straight) = true ∧ spliced.positions = [⟨0, 2⟩, ⟨1, 1⟩] ∧
      straight.positions = [⟨0, 1⟩, ⟨1, 1⟩] := by
  decide

end Body

end StraightLine
