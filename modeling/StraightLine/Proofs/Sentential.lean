import StraightLine.Proofs.Derivation
import StraightLine.Proofs.History
import StraightLine.Proofs.Patience

/-!
# A lazy walk is a leftmost derivation

A grammar with loops has no finite unfolding to compare a walk with. What can be said of every
grammar is said step by step: the letters that were read and the symbols that are still pending make
up a line of the leftmost derivation that begins with the start symbol.

* `Productions.Rewrites` and `Productions.Sentential` — the leftmost reference is replaced by the
  body of its rule, once and any number of times. `Sentential.isPrefix` — the letters in front of a
  line are the front of every word that is derived.
* `Cursor.rest` and `Walk.pending` — what is left of an open body, and of all of them together.
* `Walk.moves` — so many moves and what each of them brought; `moves_sentential` — **the
  invariant**, as long as no reference led nowhere.
* `Walk.Gives.exists_moves` — calls are moves, whatever number of them each call takes.
* `Grammar.walk_sentential` — all of it together, for a fresh walk.
-/

namespace StraightLine

open Relation (ReflTransGen)

variable {T N : Type}

namespace Productions

/-! ## Leftmost derivations -/

/-- The leftmost reference is replaced by the body of its rule. -/
inductive Rewrites (P : Productions T N) : List (Symbol T N) → List (Symbol T N) → Prop
  | leftmost {w : List T} {id b ss} : P id = some b →
      Rewrites P (w.map .terminal ++ .nonterminal id :: ss) (w.map .terminal ++ (b ++ ss))

/-- A line of the leftmost derivation that begins with `x` alone. -/
def Sentential (P : Productions T N) (x : N) (ss : List (Symbol T N)) : Prop :=
  ReflTransGen P.Rewrites [.nonterminal x] ss

variable {P : Productions T N} {x id : N} {w u : List T} {b ss : List (Symbol T N)}

theorem Sentential.body (hb : P x = some b) : P.Sentential x b := by
  have hstep : P.Rewrites [.nonterminal x] (b ++ []) := .leftmost (w := []) hb
  rw [List.append_nil] at hstep
  exact .single hstep

theorem Sentential.enter (h : P.Sentential x (w.map .terminal ++ .nonterminal id :: ss))
    (hb : P id = some b) : P.Sentential x (w.map .terminal ++ (b ++ ss)) := h.tail (.leftmost hb)

/-- Letters in front are letters of the word. -/
theorem Yields.exists_of_terminals (h : P.Yields (w.map .terminal ++ ss) u) :
    ∃ v, u = w ++ v ∧ P.Yields ss v := by
  induction w generalizing u with
  | nil => exact ⟨u, rfl, h⟩
  | cons t w ih =>
    cases h with
    | terminal h =>
      obtain ⟨v, rfl, hv⟩ := ih h
      exact ⟨v, rfl, hv⟩

/-- To replace a reference by the body of its rule makes no difference to the word. -/
theorem Rewrites.yields {ss' : List (Symbol T N)} (h : P.Rewrites ss ss') (hu : P.Yields ss u) :
    P.Yields ss' u := by
  cases h with
  | leftmost hb =>
    obtain ⟨v, rfl, hv⟩ := hu.exists_of_terminals
    cases hv with
    | reference hb' hbody hrest =>
      rw [hb] at hb'
      cases hb'
      exact (hbody.append hrest).terminals _

/-- **The letters in front of a line are the front of the word.** -/
theorem Sentential.isPrefix (h : P.Sentential x (w.map .terminal ++ ss)) (hu : P.Derives x u) :
    w <+: u := by
  have hyields : ∀ ss', P.Sentential x ss' → P.Yields ss' u := by
    intro ss' hline
    induction hline with
    | refl =>
      obtain ⟨b, hb, hbody⟩ := hu
      simpa using Yields.reference hb hbody .nil
    | tail _ hstep ih => exact hstep.yields ih
  obtain ⟨v, rfl, -⟩ := (hyields _ h).exists_of_terminals
  exact List.prefix_append w v

end Productions

/-! ## What is pending -/

/-- The symbols of the body from the next position on. -/
def Cursor.rest (c : Cursor T N) : List (Symbol T N) :=
  match c.next with
  | none => []
  | some p => (c.body.entries.dropWhile fun e => e.1 ≠ p).map Prod.snd

theorem Cursor.rest_eq {c : Cursor T N} {done rest : List (Position × Symbol T N)}
    (h : c.body.entries = done ++ rest) (hnext : c.next = Chain.firstOf rest) :
    c.rest = rest.map Prod.snd := by
  cases rest with
  | nil => rw [Cursor.rest, hnext, Chain.firstOf_nil, List.map_nil]
  | cons e rest =>
    rw [Cursor.rest, hnext, Chain.firstOf_cons]
    exact congrArg _ (Sequence.dropWhile_entries h)

/-- What a move reads, if it reads a letter. -/
def Sight.letter? : Sight T → Option T
  | letter t => some t
  | gap | finished | silent => none

namespace Walk

/-- The symbols that are still to be read: of each open body, the innermost one first, those from
its next position on. -/
def pending (w : Walk T N) : List (Symbol T N) := w.stack.flatMap Cursor.rest

theorem Ahead.pending_eq {rules : OrderedMap N (Body T N)} {stack : List (Cursor T N)}
    {ss : List (Symbol T N)} (h : Ahead rules stack ss) : pending ⟨rules, stack⟩ = ss := by
  induction h with
  | nil => rfl
  | cons done _ hentries hnext _ ih =>
    rw [pending, List.flatMap_cons, Cursor.rest_eq hentries hnext]
    exact congrArg _ ih

variable [DecidableEq N]

/-! ## Moves -/

/-- What each of `n` moves brings, and the walk behind them. -/
def moves : (n : Nat) → Walk T N → List (Sight T) × Walk T N
  | 0, w => ([], w)
  | n + 1, w =>
    let (sight, w) := w.move
    let (sights, w) := moves n w
    (sight :: sights, w)

theorem moves_succ {w w' : Walk T N} {sight : Sight T} (h : w.move = (sight, w')) (n : Nat) :
    moves (n + 1) w = (sight :: (moves n w').1, (moves n w').2) := by
  rw [moves, h]

theorem moves_add (m n : Nat) (w : Walk T N) :
    moves (m + n) w =
      ((moves m w).1 ++ (moves n (moves m w).2).1, (moves n (moves m w).2).2) := by
  induction m generalizing w with
  | zero => rw [Nat.zero_add]; rfl
  | succ m ih =>
    cases hmove : w.move with
    | mk sight w' =>
      rw [Nat.add_right_comm, moves_succ hmove, moves_succ hmove, ih w']
      rfl

variable {rules : OrderedMap N (Body T N)} {x : N}

/-- One move leads from a line of the derivation to the same line or to the next one, unless a
reference leads nowhere. -/
theorem Moves.sentential {stack stack' : List (Cursor T N)} {ss ss' : List (Symbol T N)}
    {sight : Sight T} (h : Moves rules stack ss sight stack' ss') (hgap : sight ≠ .gap) {w : List T}
    (hline : (productionsOf rules).Sentential x (w.map .terminal ++ ss)) :
    (productionsOf rules).Sentential x
      ((w ++ sight.letter?.toList).map .terminal ++ ss') := by
  cases h with
  | finished => simpa [Sight.letter?] using hline
  | leave => simpa [Sight.letter?] using hline
  | letter => simpa [Sight.letter?] using hline
  | gap => exact absurd rfl hgap
  | enter hb =>
    have henter := hline.enter (productionsOf_of_get? hb)
    simpa [Sight.letter?] using henter

/-- **The invariant.** However many moves are made, as long as no reference led nowhere, the letters
read and the symbols ahead are a line of the derivation. -/
theorem moves_sentential {stack : List (Cursor T N)} {ss : List (Symbol T N)} {w : List T}
    (h : Ahead rules stack ss)
    (hline : (productionsOf rules).Sentential x (w.map .terminal ++ ss)) {n : Nat}
    (hgap : .gap ∉ (moves n ⟨rules, stack⟩).1) :
    (productionsOf rules).Sentential x
      ((w ++ (moves n ⟨rules, stack⟩).1.filterMap Sight.letter?).map .terminal ++
        (moves n ⟨rules, stack⟩).2.pending) := by
  induction n generalizing stack ss w with
  | zero =>
    rw [moves, h.pending_eq, List.filterMap_nil, List.append_nil]
    exact hline
  | succ n ih =>
    obtain ⟨sight, stack', ss', hmove, hmoves, h'⟩ := move_moves h
    rw [moves_succ hmove] at hgap ⊢
    rw [List.mem_cons, not_or] at hgap
    have hrest := ih h' (hmoves.sentential (Ne.symm hgap.1) hline) hgap.2
    have hletters : (sight :: (moves n ⟨rules, stack'⟩).1).filterMap Sight.letter? =
        sight.letter?.toList ++ (moves n ⟨rules, stack'⟩).1.filterMap Sight.letter? := by
      cases sight <;> rfl
    rw [hletters, ← List.append_assoc]
    exact hrest

/-! ## Calls -/

/-- A call is a number of moves, of which the last one brings the answer. -/
theorem Answers.exists_moves {w w' : Walk T N} {answer : Option T} (h : Answers w answer w') :
    ∃ n, (moves n w).1.filterMap Sight.answer? = [answer] ∧ (moves n w).2 = w' := by
  induction h with
  | letter hmove | gap hmove | finished hmove =>
    refine ⟨1, ?_⟩
    rw [moves_succ hmove]
    exact ⟨rfl, rfl⟩
  | silent hmove _ ih =>
    obtain ⟨n, hanswer, hend⟩ := ih
    refine ⟨n + 1, ?_⟩
    rw [moves_succ hmove]
    exact ⟨hanswer, hend⟩

/-- **Calls are moves**, whatever number of them each call takes. -/
theorem Gives.exists_moves {w : Walk T N} {answers : List (Option T)} (h : Gives w answers) :
    ∃ n, (moves n w).1.filterMap Sight.answer? = answers := by
  induction h with
  | nil => exact ⟨0, rfl⟩
  | cons hcall _ ih =>
    obtain ⟨m, hanswer, rfl⟩ := hcall.exists_moves
    obtain ⟨n, hanswers⟩ := ih
    refine ⟨m + n, ?_⟩
    rw [moves_add, List.filterMap_append, hanswer, hanswers, List.singleton_append]

/-- If all answers are letters, then they are what was read, and no reference led nowhere. -/
theorem letters_of_answers {sights : List (Sight T)} {w : List T}
    (h : sights.filterMap Sight.answer? = w.map some) :
    .gap ∉ sights ∧ sights.filterMap Sight.letter? = w := by
  constructor
  · intro hgap
    have hnone : none ∈ sights.filterMap Sight.answer? :=
      List.mem_filterMap.mpr ⟨.gap, hgap, rfl⟩
    rw [h] at hnone
    simp at hnone
  · have hletter : ∀ s : Sight T, s.letter? = s.answer?.bind id := by
      intro s
      cases s <;> rfl
    calc sights.filterMap Sight.letter?
        = (sights.filterMap Sight.answer?).filterMap id := by
          rw [List.filterMap_filterMap]
          exact List.filterMap_congr fun s _ => hletter s
      _ = w := by rw [h, List.filterMap_map]; exact List.filterMap_some

theorem Answers.unique {w w' w'' : Walk T N} {a a' : Option T} (h : Answers w a w')
    (h' : Answers w a' w'') : a = a' ∧ w' = w'' := by
  induction h with
  | letter hmove | gap hmove | finished hmove =>
    cases h' <;> simp_all
  | silent hmove _ ih =>
    cases h' with
    | silent hmove' h' =>
      rw [hmove] at hmove'
      cases hmove'
      exact ih h'
    | letter hmove' | gap hmove' | finished hmove' =>
      rw [hmove] at hmove'
      cases hmove'

/-- More calls begin with the same answers. -/
theorem Gives.isPrefix {w : Walk T N} {as bs : List (Option T)} (h : Gives w as) (h' : Gives w bs)
    (hlength : as.length ≤ bs.length) : as <+: bs := by
  induction h generalizing bs with
  | nil => exact List.nil_prefix
  | cons hcall _ ih =>
    cases h' with
    | nil => simp at hlength
    | cons hcall' hrest =>
      obtain ⟨rfl, rfl⟩ := hcall.unique hcall'
      exact List.cons_prefix_cons.mpr ⟨rfl, ih hrest (Nat.le_of_succ_le_succ hlength)⟩

end Walk

namespace Grammar

variable [DecidableEq N]

/-- **The invariant of a fresh walk.** -/
theorem walk_moves_sentential {g : Grammar T N} (hstart : g.contains g.start = true) {n : Nat}
    (hgap : .gap ∉ (g.walk.moves n).1) :
    g.productions.Sentential g.start
      (((g.walk.moves n).1.filterMap Sight.letter?).map .terminal ++
        (g.walk.moves n).2.pending) := by
  obtain ⟨b, hb⟩ := Option.isSome_iff_exists.mp (contains_iff_isSome.mp hstart)
  have hbegin : g.productions.Sentential g.start ([].map .terminal ++ b) := .body hb
  have hahead := Walk.ahead_ofGrammar g
  rw [hb, Option.getD_some] at hahead
  have hwalk : g.walk = ⟨g.rules, (Walk.ofGrammar g).stack⟩ := by
    rw [← Walk.rules_ofGrammar g]
    rfl
  rw [hwalk] at hgap ⊢
  exact Walk.moves_sentential hahead hbegin hgap

/-- **A lazy walk is a leftmost derivation, on grammars with loops too.** The start symbol has a
rule, and nothing else is asked of the grammar. After any number of moves, whichever calls they
belong to, the letters read and the symbols pending are a line of the leftmost derivation of the
start symbol, if no reference led nowhere. Calls that bring letters are such moves, and no call is
cut off by its patience that would bring one. So the letters are the front of what more calls bring,
and of every word that is derived. -/
theorem walk_sentential (g : Grammar T N) (hstart : g.contains g.start = true) :
    (∀ n, .gap ∉ (g.walk.moves n).1 →
      g.productions.Sentential g.start
        (((g.walk.moves n).1.filterMap Sight.letter?).map .terminal ++
          (g.walk.moves n).2.pending)) ∧
    (∀ w : List T, g.walk.calls w.length = w.map some ↔ g.walk.Gives (w.map some)) ∧
    ∀ w, g.walk.Gives (w.map some) →
      (∃ n, .gap ∉ (g.walk.moves n).1 ∧ (g.walk.moves n).1.filterMap Sight.letter? = w) ∧
      (∀ answers, g.walk.Gives answers → w.length ≤ answers.length →
        w <+: answers.filterMap id) ∧
      ∀ u, g.productions.Derives g.start u → w <+: u := by
  refine ⟨fun n => walk_moves_sentential hstart, fun w => ?_, fun w hw => ?_⟩
  · have hahead := Walk.ahead_ofGrammar g
    rw [← Walk.rules_ofGrammar g] at hahead
    refine ⟨Walk.gives_of_calls, fun hw => ?_⟩
    simpa using hw.calls_eq hahead
  · obtain ⟨n, hanswers⟩ := hw.exists_moves
    obtain ⟨hgap, hletters⟩ := Walk.letters_of_answers hanswers
    refine ⟨⟨n, hgap, hletters⟩, fun answers hmore hlength => ?_, fun u hu => ?_⟩
    · have hfront : w.map some <+: answers := hw.isPrefix hmore (by rwa [List.length_map])
      simpa using hfront.filterMap id
    · have hline := walk_moves_sentential hstart hgap
      rw [hletters] at hline
      exact hline.isPrefix hu

/-- The rule of `0` goes round for ever, by way of the empty body of `1`. -/
def endless : Grammar Char Nat :=
  run 0 [.addRule 0 (.ofList [.terminal 'a', .nonterminal 1, .terminal 'b', .nonterminal 0]),
    .addRule 1 (.ofList [])]

/-- Three letters of a word that has no end, and the line of the derivation where they are read. -/
theorem walk_sentential_endless :
    endless.contains endless.start = true ∧ endless.walk.Gives [some 'a', some 'b', some 'a'] ∧
      endless.productions.Sentential 0
        [.terminal 'a', .terminal 'b', .terminal 'a', .nonterminal 1, .terminal 'b',
          .nonterminal 0] := by
  have hstart : endless.contains endless.start = true := by decide +kernel
  obtain ⟨hline, hcalls, -⟩ := walk_sentential endless hstart
  refine ⟨hstart, (hcalls ['a', 'b', 'a']).mp (by decide +kernel), ?_⟩
  have hsix := hline 6 (by decide +kernel)
  have hsymbols : ((endless.walk.moves 6).1.filterMap Sight.letter?).map .terminal ++
      (endless.walk.moves 6).2.pending =
        [.terminal 'a', .terminal 'b', .terminal 'a', .nonterminal 1, .terminal 'b',
          .nonterminal 0] := by decide +kernel
  rwa [hsymbols] at hsix

end Grammar

end StraightLine
