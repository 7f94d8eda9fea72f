/-!
# Decimals with a fixed number of places

A floating-point number is a whole number times a power of two, so its decimal with a given number
of places is found by exact arithmetic.

* `nearest num den` is the whole number nearest to a quotient; a half goes to the even neighbour.
  `nearest_le` and `le_nearest` say that it is at most a half away, and `nearest_even_of_tie`
  where a half goes.
* `Binary.ofBits` takes a floating-point number apart.
* `fixed` writes a number with a given number of places.
-/

namespace StraightLine.Decimal

-- powers are those of the core library, whatever else is in scope
attribute [local instance (high)] instPowNat

/-! ## Rounding a quotient -/

/-- The whole number nearest to `num / den`, the even one of two. -/
def nearest (num den : Nat) : Nat :=
  let q := num / den
  let r := num % den
  if 2 * r < den then q
  else if den < 2 * r then q + 1
  else if q % 2 = 0 then q
  else q + 1

theorem nearest_le (num : Nat) {den : Nat} (h : 0 < den) :
    2 * (den * nearest num den) ≤ 2 * num + den := by
  have hdiv := Nat.div_add_mod num den
  have hmod := Nat.mod_lt num h
  unfold nearest
  simp only
  split
  · omega
  · split
    · rw [Nat.mul_add]; omega
    · split
      · omega
      · rw [Nat.mul_add]; omega

theorem le_nearest (num : Nat) {den : Nat} (h : 0 < den) :
    2 * num ≤ 2 * (den * nearest num den) + den := by
  have hdiv := Nat.div_add_mod num den
  have hmod := Nat.mod_lt num h
  unfold nearest
  simp only
  split
  · omega
  · split
    · rw [Nat.mul_add]; omega
    · split
      · omega
      · rw [Nat.mul_add]; omega

theorem nearest_even_of_tie {num den : Nat} (h : 2 * (num % den) = den) :
    nearest num den % 2 = 0 := by
  unfold nearest
  simp only
  rw [if_neg (by omega), if_neg (by omega)]
  split <;> omega

/-! ## Floating-point numbers -/

/-- A whole number times a power of two, with a sign. -/
structure Binary where
  negative : Bool
  significand : Nat
  exponent : Int
  deriving DecidableEq, Repr

namespace Binary

/-- The value of the sixty-four bits of a floating-point number; none if it is not finite. Small
numbers have no hidden leading bit. -/
def ofBits (bits : Nat) : Option Binary :=
  let negative := bits / 2 ^ (63 : Nat) % 2 = 1
  let scale : Nat := bits / 2 ^ (52 : Nat) % 2 ^ (11 : Nat)
  let fraction := bits % 2 ^ (52 : Nat)
  if scale = 2047 then none
  else if scale = 0 then some ⟨negative, fraction, -1074⟩
  else some ⟨negative, 2 ^ (52 : Nat) + fraction, (scale : Int) - 1075⟩

/-- The nearest whole number of units of the last of `places` decimal places. -/
def units (x : Binary) (places : Nat) : Nat :=
  nearest (x.significand * 2 ^ x.exponent.toNat * 10 ^ places) (2 ^ (-x.exponent).toNat)

end Binary

/-! ## Text -/

/-- A number of units of the last of `places` decimal places, with a point before these places. -/
def pointed (units places : Nat) : String :=
  let fraction := Nat.repr (units % 10 ^ places)
  Nat.repr (units / 10 ^ places) ++ "." ++ "".pushn '0' (places - fraction.length) ++ fraction

/-- A floating-point number with `places` decimal places. -/
def fixed (places : Nat) (x : Float) : String :=
  match Binary.ofBits x.toBits.toNat with
  | some b => (if b.negative then "-" else "") ++ pointed (b.units places) places
  | none => if x.isNaN then "NaN" else if x < 0 then "-inf" else "inf"

end StraightLine.Decimal
