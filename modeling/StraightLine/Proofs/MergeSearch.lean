import StraightLine.Grammar.Merge
import StraightLine.Proofs.Productions

/-!
# The search before a merge is exact

Before `source` is merged into `dest`, `Grammar.searchFrom` looks for the two among all that the
seeds reach. It takes one name after the other off a stack and puts the references of a new one in
its place.

* `Productions.Frontier` — what was seen is neither of the two, and whatever a seen name refers to
  was seen too or waits on the stack. This is the invariant of the search; when the stack is empty
  it says that the seen names are closed under references.
* `Grammar.searchFrom_frontier` — a search that finds nothing has seen all names that it was given
  and keeps the invariant.
* `Grammar.searchFrom_eq_true_iff` — it finds something exactly if one of the names on the stack
  reaches one of the two.
* `Grammar.mem_mergeSeeds` — what the seeds are.
-/

namespace StraightLine

variable {T N : Type}

namespace Productions

/-- What was seen is neither `source` nor `dest`, and it refers to nothing but what was seen too or
waits on the stack. -/
def Frontier (P : Productions T N) (source dest : N) (seen stack : List N) : Prop :=
  ∀ x ∈ seen, x ≠ source ∧ x ≠ dest ∧ ∀ y, P.Refers x y → y ∈ seen ∨ y ∈ stack

variable {P : Productions T N} {source dest : N} {seen stack : List N}

theorem Frontier.nil : P.Frontier source dest [] stack := by
  intro x hx
  cases hx

/-- A name that was seen before can be dropped from the stack. -/
theorem Frontier.drop {id : N} (h : P.Frontier source dest seen (id :: stack)) (hid : id ∈ seen) :
    P.Frontier source dest seen stack := by
  intro x hx
  obtain ⟨hs, hd, hrefs⟩ := h x hx
  refine ⟨hs, hd, fun y hxy => ?_⟩
  rcases hrefs y hxy with hy | hy
  · exact .inl hy
  · rcases List.mem_cons.mp hy with rfl | hy
    · exact .inl hid
    · exact .inr hy

/-- A new name is seen when its references take its place on the stack. -/
theorem Frontier.see {id : N} {refs : List N} (h : P.Frontier source dest seen (id :: stack))
    (hs : id ≠ source) (hd : id ≠ dest) (hrefs : ∀ y, P.Refers id y → y ∈ refs) :
    P.Frontier source dest (id :: seen) (refs ++ stack) := by
  intro x hx
  rcases List.mem_cons.mp hx with rfl | hx
  · exact ⟨hs, hd, fun y hxy => .inr (List.mem_append_left _ (hrefs y hxy))⟩
  · obtain ⟨hs, hd, hold⟩ := h x hx
    refine ⟨hs, hd, fun y hxy => ?_⟩
    rcases hold y hxy with hy | hy
    · exact .inl (List.mem_cons_of_mem _ hy)
    · rcases List.mem_cons.mp hy with rfl | hy
      · exact .inl List.mem_cons_self
      · exact .inr (List.mem_append_right _ hy)

/-- With an empty stack, nothing outside of what was seen can be reached from it. -/
theorem Frontier.not_reaches (h : P.Frontier source dest seen []) {x y : N} (hx : x ∈ seen)
    (hxy : P.Reaches x y) : y ≠ source ∧ y ≠ dest := by
  have hy : y ∈ seen := by
    induction hxy with
    | refl => exact hx
    | tail _ hzw ih => exact ((h _ ih).2.2 _ hzw).resolve_right List.not_mem_nil
  exact ⟨(h y hy).1, (h y hy).2.1⟩

end Productions

namespace Grammar

variable [DecidableEq N] {rules : OrderedMap N (Body T N)} {source dest : N}

open Productions (Frontier)

theorem mem_referencesOf {x y : N} :
    y ∈ referencesOf rules x ↔ (productionsOf rules).Refers x y := by
  rw [refers_productionsOf_iff, referencesOf]
  cases rules.get? x with
  | none => simp
  | some b => simp

/-- The seeds are what `dest` refers to, with the references of `source` in the place of `source`.
-/
theorem mem_mergeSeeds {z : N} :
    z ∈ mergeSeeds rules source dest ↔
      (z ≠ source ∧ (productionsOf rules).Refers dest z) ∨
        ((productionsOf rules).Refers dest source ∧ (productionsOf rules).Refers source z) := by
  rw [mergeSeeds, List.mem_flatMap]
  constructor
  · rintro ⟨y, hy, hz⟩
    rw [mem_referencesOf] at hy
    split at hz
    · next he => exact .inr ⟨he ▸ hy, mem_referencesOf.mp hz⟩
    · next hne =>
      obtain rfl := List.mem_singleton.mp hz
      exact .inl ⟨hne, hy⟩
  · rintro (⟨hne, hz⟩ | ⟨hs, hz⟩)
    · exact ⟨z, mem_referencesOf.mpr hz, by simp [hne]⟩
    · exact ⟨source, mem_referencesOf.mpr hs, by simpa using mem_referencesOf.mpr hz⟩

/-- What the search finds is there to be found. -/
theorem exists_of_searchFrom {seen stack : List N}
    (h : (searchFrom rules source dest seen stack).1 = true) :
    ∃ z ∈ stack,
      (productionsOf rules).Reaches z source ∨ (productionsOf rules).Reaches z dest := by
  fun_induction searchFrom rules source dest seen stack with
  | case1 seen => cases h
  | case2 seen id stack hid =>
    rcases hid with rfl | rfl
    · exact ⟨_, List.mem_cons_self, .inl (.refl _)⟩
    · exact ⟨_, List.mem_cons_self, .inr (.refl _)⟩
  | case3 seen id stack _ _ ih =>
    obtain ⟨z, hz, hreach⟩ := ih h
    exact ⟨z, List.mem_cons_of_mem _ hz, hreach⟩
  | case4 seen id stack _ _ ih =>
    obtain ⟨z, hz, hreach⟩ := ih h
    rcases List.mem_append.mp hz with hz | hz
    · -- the path begins at the name whose references were put on the stack
      have hid : (productionsOf rules).Refers id z := mem_referencesOf.mp (List.mem_reverse.mp hz)
      exact ⟨id, List.mem_cons_self, hreach.imp (.head hid) (.head hid)⟩
    · exact ⟨z, List.mem_cons_of_mem _ hz, hreach⟩

/-- **A search that finds nothing has seen everything.** -/
theorem searchFrom_frontier {seen stack : List N}
    (hinv : (productionsOf rules).Frontier source dest seen stack)
    (h : (searchFrom rules source dest seen stack).1 = false) :
    (productionsOf rules).Frontier source dest (searchFrom rules source dest seen stack).2 [] ∧
      (∀ x ∈ seen, x ∈ (searchFrom rules source dest seen stack).2) ∧
      ∀ x ∈ stack, x ∈ (searchFrom rules source dest seen stack).2 := by
  fun_induction searchFrom rules source dest seen stack with
  | case1 seen => exact ⟨hinv, fun _ hx => hx, nofun⟩
  | case2 seen id stack _ => cases h
  | case3 seen id stack _ hseen ih =>
    obtain ⟨hfront, hold, hrest⟩ := ih (hinv.drop hseen) h
    refine ⟨hfront, hold, fun x hx => ?_⟩
    rcases List.mem_cons.mp hx with rfl | hx
    · exact hold x hseen
    · exact hrest x hx
  | case4 seen id stack hne _ ih =>
    rw [not_or] at hne
    obtain ⟨hfront, hold, hrest⟩ :=
      ih (hinv.see hne.1 hne.2 fun y hy => List.mem_reverse.mpr (mem_referencesOf.mpr hy)) h
    refine ⟨hfront, fun x hx => hold x (List.mem_cons_of_mem _ hx), fun x hx => ?_⟩
    rcases List.mem_cons.mp hx with rfl | hx
    · exact hold x List.mem_cons_self
    · exact hrest x (List.mem_append_right _ hx)

/-- **The search is exact**, on every grammar. -/
theorem searchFrom_eq_true_iff (stack : List N) :
    (searchFrom rules source dest [] stack).1 = true ↔
      ∃ z ∈ stack,
        (productionsOf rules).Reaches z source ∨ (productionsOf rules).Reaches z dest := by
  refine ⟨exists_of_searchFrom, fun ⟨z, hz, hreach⟩ => ?_⟩
  rw [← Bool.not_eq_false]
  intro hfalse
  obtain ⟨hfront, -, hseen⟩ := searchFrom_frontier .nil hfalse
  rcases hreach with hzs | hzd
  · exact (hfront.not_reaches (hseen z hz) hzs).1 rfl
  · exact (hfront.not_reaches (hseen z hz) hzd).2 rfl

end Grammar

end StraightLine
