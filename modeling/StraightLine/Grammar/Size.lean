import StraightLine.Text.Spelled
import StraightLine.Text.Outline

/-!
# The size of a grammar

These are the numbers of `GrammarStats` and its `compression_ratio`.

* `Size` counts the rules of a grammar and the symbols in all their bodies.
* `Size.compressionRatio` compares the symbols with the length of the word that they stand for, in
  percent.
-/

namespace StraightLine

open Text (Spelled Outline)

/-- How many rules a grammar has, and how many symbols their bodies have together. -/
structure Size where
  rules : Nat
  symbols : Nat
  deriving DecidableEq, Repr

namespace Size

/-- The symbols of the grammar as a percentage of the length of its word: both numbers go to the
nearest floating-point number, the quotient is rounded, then its hundredfold. The empty word has the
ratio zero. -/
def compressionRatio (size : Size) (length : Nat) : Float :=
  if length = 0 then 0.0
  else Float.ofNat size.symbols / Float.ofNat length * 100.0

/-- The two counts as a diagnostic shows them. -/
def outline (size : Size) : Outline :=
  .record "GrammarStats"
    [("num_rules", .leaf (Spelled.literal size.rules)),
     ("grammar_symbols", .leaf (Spelled.literal size.symbols))]

end Size

end StraightLine
