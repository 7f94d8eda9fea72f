import StraightLine.Text.Quoted

/-!
# Bare and literal spelling

The terminals and the names of a grammar are values of any type that can be written down in two
ways.

* `Spelled.plain` is the bare spelling, used where a grammar is listed for reading.
* `Spelled.literal` is the spelling that shows exactly which value it is, used in diagnostics:
  text and characters are quoted there, numbers are not.
-/

namespace StraightLine.Text

/-- A type whose values have a bare and a literal spelling. -/
class Spelled (α : Type) where
  /-- The value as it is listed. -/
  plain : α → String
  /-- The value as a diagnostic shows it. -/
  literal : α → String

instance : Spelled String where
  plain s := s
  literal s := quoted '"' s.toList

instance : Spelled Char where
  plain c := c.toString
  literal c := quoted '\'' [c]

instance : Spelled Nat where
  plain n := Nat.repr n
  literal n := Nat.repr n

instance : Spelled Int where
  plain
    | .ofNat n => Nat.repr n
    | .negSucc n => "-" ++ Nat.repr (n + 1)
  literal
    | .ofNat n => Nat.repr n
    | .negSucc n => "-" ++ Nat.repr (n + 1)

end StraightLine.Text
