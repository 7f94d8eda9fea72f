import StraightLine.Text.Invisible

/-!
# Quoted text

Names and characters stand between quotes in diagnostics, so that an empty or an invisible name
can still be told from its neighbours.

* `escape` writes one character: five have a short form after a backslash, the quote in use is
  marked by a backslash, an invisible character is given by its code point in lower-case
  hexadecimal, and everything else stands as it is.
* `quoted` writes a list of characters between two quotes.
-/

namespace StraightLine.Text

/-- The form of one character between quotes of the kind `quote`. -/
def escape (quote c : Char) : List Char :=
  match c with
  | '\x00' => ['\\', '0']
  | '\t' => ['\\', 't']
  | '\r' => ['\\', 'r']
  | '\n' => ['\\', 'n']
  | '\\' => ['\\', '\\']
  | c =>
    if c = quote then ['\\', c]
    else if isInvisible c then ['\\', 'u', '\x7b'] ++ Nat.toDigits 16 c.toNat ++ ['\x7d']
    else [c]

/-- Every character of `cs` in its escaped form, between two quotes. -/
def quoted (quote : Char) (cs : List Char) : String :=
  String.ofList (quote :: cs.flatMap (escape quote) ++ [quote])

/-- A character that is neither special nor invisible stands for itself. -/
theorem escape_of_plain {quote c : Char} (hq : c ≠ quote) (hb : c ≠ '\\')
    (hv : isInvisible c = false) : escape quote c = [c] := by
  have ne_of_lt : ∀ d : Char, d.toNat < 32 → c ≠ d := by
    rintro d hd rfl
    rw [isInvisible_of_lt_space hd] at hv
    exact Bool.noConfusion hv
  unfold escape
  split
  · exact absurd rfl (ne_of_lt _ (by decide))
  · exact absurd rfl (ne_of_lt _ (by decide))
  · exact absurd rfl (ne_of_lt _ (by decide))
  · exact absurd rfl (ne_of_lt _ (by decide))
  · exact absurd rfl hb
  · simp [hq, hv]

end StraightLine.Text
