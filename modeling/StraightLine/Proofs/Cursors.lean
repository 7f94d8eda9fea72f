import StraightLine.Grammar.Unfolding
import StraightLine.Proofs.Productions

/-!
# What lies ahead of a lazy walk

A `Walk` is a stack of cursors into rule bodies. What it will read, before any further rule is
entered, is the rest of the innermost body, then the rest of the body below it, and so on.

* `Walk.Ahead` — these symbols lie ahead of the open bodies: the invariant of a walk.
  `Walk.ahead_ofGrammar` is how it begins.
* `Walk.Moves` — what a move does to the symbols ahead: it reads the first of them, replaces it by
  the body of its rule, or only leaves a body of which nothing is left.
* `Walk.move_moves` — every move is one of these and keeps the invariant, on every grammar.
* `Walk.Answers` and `Walk.Gives` — calls that go on moving for as long as it takes.
-/

namespace StraightLine

variable {T N : Type}

namespace Walk

/-! ## The invariant -/

/-- The symbols that the open bodies still hold, the innermost one first. -/
inductive Ahead (rules : OrderedMap N (Body T N)) : List (Cursor T N) → List (Symbol T N) → Prop
  | nil : Ahead rules [] []
  | cons {c below rest ss} (done : List (Position × Symbol T N)) : c.body ∈ rules.values →
      c.body.entries = done ++ rest → c.next = Chain.firstOf rest → Ahead rules below ss →
      Ahead rules (c :: below) (rest.map Prod.snd ++ ss)

/-- A body that is entered lies ahead as a whole. -/
theorem Ahead.enter {rules : OrderedMap N (Body T N)} {stack : List (Cursor T N)}
    {ss : List (Symbol T N)} {b : Body T N} (hb : b ∈ rules.values) (h : Ahead rules stack ss) :
    Ahead rules (.ofBody b :: stack) (b.toList ++ ss) :=
  .cons (c := .ofBody b) [] hb rfl b.first_eq h

/-- At the beginning the body of the start symbol lies ahead, if it has one. -/
theorem ahead_ofGrammar [DecidableEq N] (g : Grammar T N) :
    Ahead g.rules (ofGrammar g).stack ((g.productions g.start).getD []) := by
  cases h : g.rules.get? g.start with
  | none =>
    rw [ofGrammar, h, Grammar.productions, productionsOf_eq_none_iff.mpr h]
    exact .nil
  | some b =>
    have hb : b ∈ g.rules.values := List.mem_map_of_mem (OrderedMap.get?_eq_some_iff.mp h)
    rw [ofGrammar, h, Grammar.productions, productionsOf_of_get? h]
    simpa using Ahead.nil.enter hb

theorem rules_ofGrammar [DecidableEq N] (g : Grammar T N) : (ofGrammar g).rules = g.rules := by
  unfold ofGrammar
  split <;> rfl

variable [DecidableEq N] {rules : OrderedMap N (Body T N)}

/-- What a move does to the open bodies and to the symbols ahead of them. -/
inductive Moves (rules : OrderedMap N (Body T N)) :
    List (Cursor T N) → List (Symbol T N) → Sight T → List (Cursor T N) → List (Symbol T N) → Prop
  | finished : Moves rules [] [] .finished [] []
  | leave {c below ss} : Moves rules (c :: below) ss .silent below ss
  | letter {c c' below t ss} :
      Moves rules (c :: below) (.terminal t :: ss) (.letter t) (c' :: below) ss
  | gap {c c' below id ss} : rules.get? id = none →
      Moves rules (c :: below) (.nonterminal id :: ss) .gap (c' :: below) ss
  | enter {c c' below id b ss} : rules.get? id = some b →
      Moves rules (c :: below) (.nonterminal id :: ss) .silent (.ofBody b :: c' :: below)
        (b.toList ++ ss)

/-- **A move does one of these things, and the invariant holds again.** -/
theorem move_moves {stack : List (Cursor T N)} {ss : List (Symbol T N)} (h : Ahead rules stack ss) :
    ∃ sight stack' ss', move ⟨rules, stack⟩ = (sight, ⟨rules, stack'⟩) ∧
      Moves rules stack ss sight stack' ss' ∧ Ahead rules stack' ss' := by
  cases h with
  | nil => exact ⟨_, _, _, rfl, .finished, .nil⟩
  | @cons c below rest ss done hbody hentries hnext hbelow =>
    cases rest with
    | nil =>
      refine ⟨.silent, below, ss, ?_, .leave, hbelow⟩
      simp only [move, hnext, Chain.firstOf_nil]
    | cons entry rest =>
      obtain ⟨p, x⟩ := entry
      have hget : c.body.get? p = some x := by
        rw [Sequence.get?_eq_some_iff, hentries]
        exact List.mem_append_right _ List.mem_cons_self
      -- the cursor goes on before the symbol is looked at
      have hahead : Ahead rules ({ c with next := c.body.next p } :: below)
          (rest.map Prod.snd ++ ss) := by
        refine .cons (done ++ [(p, x)]) hbody ?_ (c.body.next_eq hentries) hbelow
        rw [List.append_assoc]
        exact hentries
      cases x with
      | terminal t =>
        refine ⟨.letter t, _, _, ?_, .letter, hahead⟩
        simp only [move, hnext, Chain.firstOf_cons, hget]
      | nonterminal id =>
        cases hrule : rules.get? id with
        | none =>
          refine ⟨.gap, _, _, ?_, .gap hrule, hahead⟩
          simp only [move, hnext, Chain.firstOf_cons, hget, hrule]
        | some b =>
          have hb : b ∈ rules.values := List.mem_map_of_mem (OrderedMap.get?_eq_some_iff.mp hrule)
          refine ⟨.silent, _, _, ?_, .enter hrule, hahead.enter hb⟩
          simp only [move, hnext, Chain.firstOf_cons, hget, hrule]

/-! ## Calls without a bound -/

/-- A call of `next` that may take as many moves as it likes ends with this answer. -/
inductive Answers : Walk T N → Option T → Walk T N → Prop
  | letter {w w' t} : w.move = (.letter t, w') → Answers w (some t) w'
  | gap {w w'} : w.move = (.gap, w') → Answers w none w'
  | finished {w w'} : w.move = (.finished, w') → Answers w none w'
  | silent {w w' w'' answer} : w.move = (.silent, w') → Answers w' answer w'' → Answers w answer w''

/-- So many calls, one after the other, end with these answers. -/
inductive Gives : Walk T N → List (Option T) → Prop
  | nil {w} : Gives w []
  | cons {w w' answer answers} : Answers w answer w' → Gives w' answers →
      Gives w (answer :: answers)

end Walk

end StraightLine
