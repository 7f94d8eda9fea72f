import StraightLine.Grammar.Basic

/-!
# Grammars as text

A grammar has two forms as text, the one for display and the one for debugging.

* `Grammar.plain` lists a grammar for reading: the start symbol, then one line for each rule.
* `Grammar.outline` is its form in diagnostics.
-/

namespace StraightLine

open Text (Spelled Outline)

namespace Grammar

variable {T N : Type} [Spelled T] [Spelled N]

/-- The start symbol on a line of its own, then `name :> body` for each rule. -/
def plain (g : Grammar T N) : String :=
  let rule (r : N × Body T N) := Spelled.plain r.1 ++ " :> " ++ Body.plain r.2 ++ "\n"
  "Start: " ++ Spelled.plain g.start ++ "\n" ++ String.join (g.rules.entries.map rule)

/-- The start symbol and the rules. The memo is not shown. -/
def outline (g : Grammar T N) : Outline :=
  .record "Grammar"
    [("start", .leaf (Spelled.literal g.start)),
     ("rules", .table (g.rules.entries.map fun (id, b) => (Spelled.literal id, Body.outline b)))]

end Grammar

end StraightLine
