/-!
# Outlines

A value shown in a diagnostic is an outline: leaves of finished text, grouped between an opening
and a closing mark, where an item may carry a label. One outline has two layouts, those of the
standard debug form and of its pretty variant.

* `Outline.compact` puts everything on one line.
* `Outline.indented` puts each item on a line of its own, four columns further in than its group
  and with a comma behind it; a group without items stays closed up.
-/

namespace StraightLine.Text

/-- The shape of a shown value. -/
inductive Outline where
  /-- Finished text. -/
  | leaf (text : String)
  /-- Items between two marks; `airy` puts a blank inside each mark when the group is on one line.
  -/
  | group (opening : String) (airy : Bool) (items : List Outline) (closing : String)
  /-- An item behind a label. -/
  | labelled (label : String) (item : Outline)

namespace Outline

/-! ## The usual groups -/

/-- A constructor applied to one argument, `Name(x)`. -/
def applied (name : String) (argument : Outline) : Outline :=
  .group (name ++ "(") false [argument] ")"

/-- A list in square brackets, `[x, y]`. -/
def list (items : List Outline) : Outline :=
  .group "[" false items "]"

/-- A record with named fields, `Name { a: x, b: y }`. -/
def record (name : String) (fields : List (String × Outline)) : Outline :=
  let labelledFields := fields.map fun (label, item) => .labelled (label ++ ": ") item
  .group (name ++ " \x7b") true labelledFields "\x7d"

/-- A table from keys to items, `{k: x, l: y}`. -/
def table (entries : List (String × Outline)) : Outline :=
  .group "\x7b" false (entries.map fun (key, item) => .labelled (key ++ ": ") item) "\x7d"

/-! ## The two layouts -/

/-- The outline on one line. -/
def compact : Outline → String
  | leaf text => text
  | labelled label item => label ++ item.compact
  | group opening airy items closing =>
    let blank := if airy && !items.isEmpty then " " else ""
    opening ++ blank ++ ", ".intercalate (items.map compact) ++ blank ++ closing

/-- The outline with its groups opened, for a place that is `depth` columns in. -/
def indentedAt (depth : Nat) : Outline → String
  | leaf text => text
  | labelled label item => label ++ item.indentedAt depth
  | group opening _ items closing =>
    if items.isEmpty then
      opening ++ closing
    else
      let line (item : String) := "".pushn ' ' (depth + 4) ++ item ++ ",\n"
      opening ++ "\n" ++ String.join (items.map fun item => line (item.indentedAt (depth + 4)))
        ++ "".pushn ' ' depth ++ closing

/-- The outline with each item on a line of its own. -/
def indented (o : Outline) : String :=
  o.indentedAt 0

end Outline

end StraightLine.Text
