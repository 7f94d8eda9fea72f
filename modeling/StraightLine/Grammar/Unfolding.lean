import StraightLine.Grammar.Basic

/-!
# Walking the word of a grammar lazily

The word of the start symbol can be read letter by letter without being built. A `Walk` is a stack
of cursors: the body that is being read on top, and below it the bodies from which it was entered.
This is the iterator `GrammarIter` with its frames; one turn of the loop in its `next` is one move.

* `Walk.move` makes one move: it reads a symbol, enters a rule or leaves a body.
* `Walk.next` moves until there is an answer: a letter, or `none` at the end and at a reference to
  a name without a rule. A walk goes on behind such a gap.
* `Walk.patience` bounds the silent moves. In a word that is finite no body is open twice at the
  same time, so before the next answer a walk makes at most as many moves as there are places
  below the open bodies (`Walk.room` for each). Only on a grammar with a cycle that has no letters
  is the bound ever used up.
* `Walk.take`, `Walk.calls` and `Walk.toList` collect answers.
-/

namespace StraightLine

variable {T N : Type}

/-- A body that is being read, and the position to read next. -/
structure Cursor (T N : Type) where
  body : Body T N
  next : Option Position

namespace Cursor

/-- A cursor before the first symbol. -/
def ofBody (b : Body T N) : Cursor T N := ⟨b, b.first⟩

end Cursor

/-- A position in the unfolding of a grammar: the open bodies, the innermost one first. -/
structure Walk (T N : Type) where
  rules : OrderedMap N (Body T N)
  stack : List (Cursor T N)

/-- What a move of a walk brings. -/
inductive Sight (T : Type) where
  /-- A terminal was read. -/
  | letter (value : T)
  /-- A reference leads nowhere. -/
  | gap
  /-- There is no open body. -/
  | finished
  /-- A body was entered or left. -/
  | silent
  deriving DecidableEq, Repr

namespace Walk

variable [DecidableEq N]

/-- The walk that is about to enter the rule of the start symbol. -/
def ofGrammar (g : Grammar T N) : Walk T N :=
  match g.rules.get? g.start with
  | some b => ⟨g.rules, [.ofBody b]⟩
  | none => ⟨g.rules, []⟩

/-- One move. The cursor goes on before the symbol is looked at, so a walk resumes behind a gap and,
after a body was entered and left, behind the reference to it. -/
def move (w : Walk T N) : Sight T × Walk T N :=
  match w.stack with
  | [] => (.finished, w)
  | cursor :: below =>
    match cursor.next with
    | none => (.silent, { w with stack := below })
    | some p =>
      let moved := { cursor with next := cursor.body.next p }
      let ahead : Walk T N := { w with stack := moved :: below }
      match cursor.body.get? p with
      | none => (.gap, ahead)
      | some (.terminal t) => (.letter t, ahead)
      | some (.nonterminal id) =>
        match w.rules.get? id with
        | none => (.gap, ahead)
        | some b => (.silent, { ahead with stack := .ofBody b :: ahead.stack })

/-- Moves until there is an answer, at most `moves` times. -/
def nextWithin : (moves : Nat) → Walk T N → Option T × Walk T N
  | 0, w => (none, w)
  | moves + 1, w =>
    match w.move with
    | (.letter t, w) => (some t, w)
    | (.gap, w) | (.finished, w) => (none, w)
    | (.silent, w) => nextWithin moves w

/-- More than the number of moves below one open body of a finite unfolding: a body has at most
`longest` symbols, and at most as many bodies lie inside each other as there are rules. -/
def room (w : Walk T N) : Nat :=
  let longest := (w.rules.values.map Sequence.size).foldl max 0
  (longest + 2) ^ (w.rules.size + 1)

/-- A bound for the moves up to the next answer. -/
def patience (w : Walk T N) : Nat := (w.stack.length + 1) * w.room

/-- The next letter; `none` at the end and once at each gap. -/
def next (w : Walk T N) : Option T × Walk T N := w.nextWithin w.patience

/-- The answers of exactly `n` calls of `next`. -/
def calls : (n : Nat) → Walk T N → List (Option T)
  | 0, _ => []
  | n + 1, w =>
    let (answer, w) := w.next
    answer :: calls n w

/-- At most `n` letters, up to the first `none`. -/
def take : (n : Nat) → Walk T N → List T
  | 0, _ => []
  | n + 1, w =>
    match w.next with
    | (none, _) => []
    | (some t, w) => t :: take n w

/-- All letters up to the first `none`. A finite word has no more letters than its walk has moves,
so `patience` bounds their number too. -/
def toList (w : Walk T N) : List T := w.take w.patience

end Walk

namespace Grammar

/-- The walk through the word of the start symbol. -/
def walk [DecidableEq N] (g : Grammar T N) : Walk T N := .ofGrammar g

end Grammar

end StraightLine
