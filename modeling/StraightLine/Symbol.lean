import StraightLine.Text.Spelled
import StraightLine.Text.Outline

/-!
# Symbols

A rule body is made of symbols. A terminal is a letter of the words that the grammar generates; a
nonterminal refers by its name to a rule. This is the type `Symbol` with all that can be asked of
it: `as_terminal` and `as_nonterminal`, `matches`, and its two forms as text.

* `terminal?` and `nonterminal?` read the content of a symbol of the one or the other kind.
* `refersTo` asks whether a symbol is a reference to a given name, which is `matches`;
  `refersTo_iff` is its meaning.
* `plain` and `outline` are how a symbol is listed and how a diagnostic shows it.
-/

namespace StraightLine

open Text (Spelled Outline)

/-- A letter of type `T`, or a reference to the rule of a name of type `N`. -/
inductive Symbol (T N : Type) where
  | terminal (value : T)
  | nonterminal (id : N)
  deriving DecidableEq, Repr

namespace Symbol

variable {T N : Type}

/-! ## Content -/

def isTerminal : Symbol T N → Bool
  | terminal _ => true
  | nonterminal _ => false

def isNonterminal : Symbol T N → Bool
  | terminal _ => false
  | nonterminal _ => true

/-- The letter of a terminal. -/
def terminal? : Symbol T N → Option T
  | terminal value => some value
  | nonterminal _ => none

/-- The name that a nonterminal refers to. -/
def nonterminal? : Symbol T N → Option N
  | terminal _ => none
  | nonterminal id => some id

@[simp] theorem terminal?_eq_some_iff {s : Symbol T N} {t : T} :
    s.terminal? = some t ↔ s = terminal t := by
  cases s <;> simp [terminal?]

@[simp] theorem nonterminal?_eq_some_iff {s : Symbol T N} {id : N} :
    s.nonterminal? = some id ↔ s = nonterminal id := by
  cases s <;> simp [nonterminal?]

/-- Every symbol is of exactly one kind. -/
theorem isNonterminal_eq_not_isTerminal (s : Symbol T N) : s.isNonterminal = !s.isTerminal := by
  cases s <;> rfl

/-! ## References -/

/-- Whether the symbol is a reference to `id`. -/
def refersTo [DecidableEq N] (id : N) : Symbol T N → Bool
  | terminal _ => false
  | nonterminal other => other = id

@[simp] theorem refersTo_iff [DecidableEq N] {s : Symbol T N} {id : N} :
    s.refersTo id = true ↔ s = nonterminal id := by
  cases s <;> simp [refersTo]

/-! ## Spelling -/

/-- A terminal is listed bare, a reference between angle brackets. -/
def plain [Spelled T] [Spelled N] : Symbol T N → String
  | terminal value => Spelled.plain value
  | nonterminal id => "<" ++ Spelled.plain id ++ ">"

/-- The outline names the kind of the symbol. -/
def outline [Spelled T] [Spelled N] : Symbol T N → Outline
  | terminal value => .applied "Terminal" (.leaf (Spelled.literal value))
  | nonterminal id => .applied "Nonterminal" (.leaf (Spelled.literal id))

end Symbol

end StraightLine
