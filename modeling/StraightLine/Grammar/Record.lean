import StraightLine.Text.Spelled

/-!
# What operations report

Operations on a grammar tell what they do as they go. The reports are the lines that they write to
the log, at the levels `trace`, `debug` and `info`.

* `Record` has one constructor for each kind of report.
* `Record.level` says how much it matters, `Record.text` is its wording, and `Record.line` puts
  the two together.
-/

namespace StraightLine

open Text (Spelled)

/-- How much a report matters. -/
inductive Level where
  | trace
  | debug
  | info
  deriving DecidableEq, Repr

def Level.name : Level → String
  | .trace => "TRACE"
  | .debug => "DEBUG"
  | .info => "INFO"

/-- A report about one step of an operation. -/
inductive Record (N : Type) where
  /-- The expansion of a rule is being computed. -/
  | expanding (id : N)
  /-- A rule is being deleted. -/
  | deleting (id : N)
  /-- A rule was inlined in the place of `sites` references. -/
  | inlined (id : N) (sites : Nat)
  /-- The body of `source` took the place of `sites` references in the body of `dest`. -/
  | copied (source dest : N) (sites : Nat)
  /-- `sites` references to `source` now go to `dest`. -/
  | merged (source dest : N) (sites : Nat)
  /-- A reduction took the number of rules from `before` to `after` by `steps` inlinings. -/
  | reduced (before after steps : Nat)
  deriving DecidableEq, Repr

namespace Record

variable {N : Type}

def level : Record N → Level
  | expanding _ => .trace
  | deleting _ | inlined _ _ | copied _ _ _ | merged _ _ _ => .debug
  | reduced _ _ _ => .info

variable [Spelled N]

/-- The wording of a report. -/
def text : Record N → String
  | expanding id => "Expanding rule " ++ Spelled.literal id
  | deleting id => "Deleting rule " ++ Spelled.literal id
  | inlined id sites =>
    "Inlined rule " ++ Spelled.literal id ++ " into " ++ Spelled.plain sites ++ " site(s)"
  | copied source dest sites =>
    "Copied the body of " ++ Spelled.literal source ++ " into " ++ Spelled.literal dest ++ " at "
      ++ Spelled.plain sites ++ " site(s)"
  | merged source dest sites =>
    "Merged rule " ++ Spelled.literal source ++ " into " ++ Spelled.literal dest
      ++ ", redirecting " ++ Spelled.plain sites ++ " reference(s)"
  | reduced before after steps =>
    "Reduced grammar from " ++ Spelled.plain before ++ " to " ++ Spelled.plain after ++ " rules ("
      ++ Spelled.plain steps ++ " inlined)"

/-- The report on one line, with its level in front. -/
def line (r : Record N) : String := r.level.name ++ " " ++ r.text

end Record

end StraightLine
