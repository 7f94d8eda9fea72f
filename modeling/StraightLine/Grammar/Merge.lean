import StraightLine.Grammar.Inlining

/-!
# Merging one nonterminal into another

Two nonterminals that stand for the same word can share one rule. `Grammar.merge` removes the rule
of `source` and lets every reference to it go to `dest`; a reference to `source` in the body of
`dest` itself is replaced by a copy of the body of `source`, so that `dest` does not come to refer
to itself. This is the operation `replace`. Its test for cycles is `merge_would_cycle`, with the
same stack, and its `referenced_outside` is `Grammar.othersReferTo`.

* `Grammar.mergeSeeds` are the names that `dest` refers to once the copy is made.
* `Grammar.searchFrom` looks for `source` or `dest` among all that can be reached from there. It
  puts the references of a rule on its stack at most once, so it ends on every grammar.
* `Grammar.mergeReachesStart` asks whether the start symbol of the merged grammar would be
  referred to.
* `Grammar.merge` refuses what would close a cycle through `dest` or make a body refer to the
  start symbol.
-/

namespace StraightLine

namespace Grammar

variable {T N : Type} [DecidableEq N]

/-! ## Would a merge close a cycle? -/

/-- The names that the rule for `id` refers to; none if there is no rule. -/
def referencesOf (rules : OrderedMap N (Body T N)) (id : N) : List N :=
  match rules.get? id with
  | some b => Body.references b
  | none => []

/-- The names that the body of `dest` refers to when the body of `source` is copied into it. -/
def mergeSeeds (rules : OrderedMap N (Body T N)) (source dest : N) : List N :=
  (referencesOf rules dest).flatMap fun id =>
    if id = source then referencesOf rules source else [id]

/-- How many references the rules have that were not seen yet. -/
def unseenReferences (rules : OrderedMap N (Body T N)) (seen : List N) : Nat :=
  ((rules.entries.filter fun r => r.1 ∉ seen).map fun r => (Body.references r.2).length).sum

/-- Seeing a name takes the references of its rule off the account. -/
theorem unseenReferences_cons_add_le (rules : OrderedMap N (Body T N)) {seen : List N} {id : N}
    (h : id ∉ seen) :
    unseenReferences rules (id :: seen) + (referencesOf rules id).length ≤
      unseenReferences rules seen := by
  obtain ⟨es, hn⟩ := rules
  simp only [unseenReferences, referencesOf, OrderedMap.get?]
  clear hn
  induction es with
  | nil => simp [OrderedMap.find]
  | cons e es ih =>
    have hle : ∀ fs : List (N × Body T N),
        ((fs.filter fun r => r.1 ∉ id :: seen).map fun r => (Body.references r.2).length).sum ≤
          ((fs.filter fun r => r.1 ∉ seen).map fun r => (Body.references r.2).length).sum := by
      intro fs
      induction fs with
      | nil => simp
      | cons f fs ih =>
        simp only [List.filter_cons, List.mem_cons, not_or, decide_eq_true_eq] at ih ⊢
        by_cases hf : f.1 ∈ seen
        · simpa [hf] using ih
        · by_cases hi : f.1 = id
          · simp only [hi, not_true, false_and, if_false, h, not_false_eq_true, if_true,
              List.map_cons, List.sum_cons]
            omega
          · simp only [hf, hi, not_false_eq_true, and_self, if_true, List.map_cons, List.sum_cons]
            omega
    simp only [OrderedMap.find]
    by_cases hi : e.1 = id
    · have := hle es
      rw [List.filter_cons_of_neg (by simp [hi]), List.filter_cons_of_pos (by simpa [hi] using h)]
      simp only [hi, if_true, List.map_cons, List.sum_cons]
      omega
    · by_cases hs : e.1 ∈ seen
      · rw [List.filter_cons_of_neg (by simp [hs]), List.filter_cons_of_neg (by simp [hs]),
          if_neg hi]
        exact ih
      · rw [List.filter_cons_of_pos (by simp [hs, hi]), List.filter_cons_of_pos (by simp [hs]),
          if_neg hi]
        simp only [List.map_cons, List.sum_cons]
        omega

/-- Looks for `source` or `dest` among the names on the stack and all that they reach; what came
onto the stack last is looked at first. The answer comes with the names that were seen, whose
references went onto the stack, the latest one first. -/
def searchFrom (rules : OrderedMap N (Body T N)) (source dest : N) (seen : List N) :
    (stack : List N) → Bool × List N
  | [] => (false, seen)
  | id :: stack =>
    if id = source ∨ id = dest then (true, seen)
    else if _new : id ∈ seen then searchFrom rules source dest seen stack
    else searchFrom rules source dest (id :: seen) ((referencesOf rules id).reverse ++ stack)
termination_by stack => unseenReferences rules seen + stack.length
decreasing_by
  · simp
  · have := unseenReferences_cons_add_le rules _new
    simp only [List.length_append, List.length_reverse, List.length_cons]
    omega

/-- Whether `dest` would reach itself after `source` is merged into it. -/
def mergeWouldCycle (g : Grammar T N) (source dest : N) : Bool :=
  (searchFrom g.rules source dest [] (mergeSeeds g.rules source dest).reverse).1

/-- Whether a body would refer to the start symbol after `source` is merged into `dest`, if one of
the two is the start symbol. The body that will be repaired or dropped does not count. -/
def mergeReachesStart (g : Grammar T N) (source dest : N) : Bool :=
  if dest = g.start then g.othersReferTo source dest
  else if source = g.start then g.othersReferTo dest source
  else false

/-! ## The merge -/

/-- Copies the body of `source` into the body of `dest` wherever that refers to `source`. -/
def copyInto (g : Grammar T N) (source dest : N) (sourceBody destBody : Body T N) :
    Grammar T N × List (Record N) :=
  if Body.refersTo destBody source then
    let (sites, b) := Body.substitute destBody source sourceBody.toList
    ({ g with rules := g.rules.insert dest b }, [.copied source dest sites])
  else (g, [])

/-- Merges `source` into `dest`. If `source` was the start symbol, `dest` becomes it. -/
def merge (g : Grammar T N) (source dest : N) : Outcome T N Unit :=
  if source = dest then .refuse g (.selfMerge source)
  else
    match g.rules.get? source, g.rules.get? dest with
    | none, _ => .refuse g (.undefinedNonterminal source)
    | some _, none => .refuse g (.undefinedNonterminal dest)
    | some sourceBody, some destBody =>
      if g.mergeWouldCycle source dest then .refuse g (.cycle dest)
      else if g.mergeReachesStart source dest then .refuse g (.startReferenced dest)
      else
        let (copied, records) := g.copyInto source dest sourceBody destBody
        let (sites, merged) := (copied.dropRule source).substitute source [.nonterminal dest]
        let merged := if g.start = source then merged.setStart dest else merged
        ⟨.ok (), merged, records ++ [.merged source dest sites]⟩

end Grammar

end StraightLine
