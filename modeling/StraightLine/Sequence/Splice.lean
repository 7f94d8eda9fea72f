import StraightLine.Sequence.Basic

/-!
# Replacing many elements at once

Since an edit at one position leaves all other positions good, positions can be collected first
and edited one after the other. This is the loop of `substitute_in`, which collects the sites with
`positions_where` and calls `replace_at` at each of them.

* `Sequence.replaceEach` puts the same list in the place of every one of the given positions.
* `toList_replaceEach_positionsWhere`: replacing all elements that satisfy a test is one
  simultaneous substitution. What was put in is not looked at again.
-/

namespace StraightLine

namespace Sequence

variable {α : Type}

/-- Puts the elements `xs` in the place of the element at each of the positions. -/
def replaceEach (s : Sequence α) (ps : List Position) (xs : List α) : Sequence α :=
  ps.foldl (fun s p => (s.replaceAt p xs).2) s

theorem toList_replaceEach_of_entries (f : α → Bool) (xs : List α) (s : Sequence α)
    (l r : List (Position × α)) (h : s.entries = l ++ r) :
    (s.replaceEach ((r.filter fun e => f e.2).map Prod.fst) xs).toList =
      l.map Prod.snd ++ (r.map Prod.snd).flatMap fun x => if f x then xs else [x] := by
  induction r generalizing s l with
  | nil => simp [replaceEach, toList, h]
  | cons e r ih =>
    obtain ⟨p, x⟩ := e
    by_cases hx : f x
    · obtain ⟨-, fs, hfs, -, he⟩ := s.entries_replaceAt h xs
      have := ih (s.replaceAt p xs).2 (l ++ fs) he
      simp only [replaceEach] at this ⊢
      simp [hx, this, hfs]
    · have := ih s (l ++ [(p, x)]) (by simp [h])
      simp only [replaceEach] at this ⊢
      simp [hx, this]

/-- Replacing every element that satisfies `f` is one simultaneous substitution. -/
theorem toList_replaceEach_positionsWhere (s : Sequence α) (f : α → Bool) (xs : List α) :
    (s.replaceEach (s.positionsWhere f) xs).toList =
      s.toList.flatMap fun x => if f x then xs else [x] :=
  toList_replaceEach_of_entries f xs s [] s.entries rfl

theorem length_positionsWhere (s : Sequence α) (f : α → Bool) :
    (s.positionsWhere f).length = s.toList.countP f := by
  simp only [positionsWhere, toList, List.length_map, List.countP_eq_length_filter,
    List.filter_map]
  rfl

end Sequence

end StraightLine
