import StraightLine.Symbol
import StraightLine.Sequence.Splice

/-!
# Rule bodies

The body of a rule is a `Sequence` of symbols. What is asked of it here are `contains_nonterminal`
(`refersTo`) and `count_nonterminal` (`count`), what is done to it is `substitute_in`
(`substitute`).

* `Body` is a sequence of symbols, edited at stable positions.
* `Body.references` lists the names that a body refers to, one for each reference;
  `Body.refersTo` and `Body.count` ask for one name.
* `Body.substitute` puts a list of symbols in the place of every reference to a name;
  `Body.toList_substitute` says that this is simultaneous, and `Body.substitute_fst` what it counts.
-/

namespace StraightLine

open Text (Spelled Outline)

/-- The right-hand side of a rule. -/
abbrev Body (T N : Type) := Sequence (Symbol T N)

namespace Body

variable {T N : Type}

/-! ## References -/

/-- The names referred to, from front to back and as often as they are. -/
def references (b : Body T N) : List N := b.toList.filterMap Symbol.nonterminal?

/-- Whether the body refers to `id`. -/
def refersTo [DecidableEq N] (b : Body T N) (id : N) : Bool := b.toList.any (Symbol.refersTo id)

/-- How often the body refers to `id`. -/
def count [DecidableEq N] (b : Body T N) (id : N) : Nat := b.toList.countP (Symbol.refersTo id)

theorem mem_references {b : Body T N} {id : N} :
    id ∈ b.references ↔ Symbol.nonterminal id ∈ b.toList := by
  simp [references]

theorem refersTo_iff [DecidableEq N] {b : Body T N} {id : N} :
    b.refersTo id = true ↔ id ∈ b.references := by
  simp [refersTo, mem_references]

theorem count_eq [DecidableEq N] (b : Body T N) (id : N) :
    b.count id = b.references.count id := by
  simp only [count, references, List.count_filterMap]
  congr 1
  funext s
  cases s with
  | terminal _ => simp [Symbol.refersTo, Symbol.nonterminal?]
  | nonterminal other =>
    by_cases h : other = id <;> simp [Symbol.refersTo, Symbol.nonterminal?, h]

/-! ## Substitution -/

/-- Puts the symbols `xs` in the place of every reference to `id`, and counts the places. -/
def substitute [DecidableEq N] (b : Body T N) (id : N) (xs : List (Symbol T N)) : Nat × Body T N :=
  let sites := b.positionsWhere (Symbol.refersTo id)
  (sites.length, b.replaceEach sites xs)

theorem substitute_fst [DecidableEq N] (b : Body T N) (id : N) (xs : List (Symbol T N)) :
    (b.substitute id xs).1 = b.count id :=
  b.length_positionsWhere _

theorem toList_substitute [DecidableEq N] (b : Body T N) (id : N) (xs : List (Symbol T N)) :
    (b.substitute id xs).2.toList =
      b.toList.flatMap fun s => if s.refersTo id then xs else [s] :=
  b.toList_replaceEach_positionsWhere _ xs

/-! ## Spelling -/

variable [Spelled T] [Spelled N]

/-- The symbols with one blank between them. -/
def plain (b : Body T N) : String := " ".intercalate (b.toList.map Symbol.plain)

/-- The symbols as a list. -/
def outline (b : Body T N) : Outline := .list (b.toList.map Symbol.outline)

end Body

end StraightLine
