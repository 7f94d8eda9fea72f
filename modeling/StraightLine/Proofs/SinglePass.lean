import StraightLine.Proofs.History

/-!
# One forward pass instead of starting over

The words of the references can be put into a working copy of a body in two ways. The naive one
looks for the first reference, puts its word in its place, and starts again from the front until no
reference is left. The other one goes through the copy once: the position behind a reference is
taken before the word is spliced in, and the pass goes on from there.

* `forward` and `rescan` — the two passes, with any way to get the word of a reference; `sweep` is
  the rest of a forward pass from a cursor.
* `forward_eq_rescan` — they are equal, also in the order in which words are asked for and in the
  error that stops them.
* `Midway` — what holds before every turn of the forward pass: before the cursor stands the word of
  the consumed symbols, from the cursor on the others. `Midway.turn` is one turn, `midway_of_turns`
  any number of them, and `Faithful.forward` the whole pass.
* `Grammar.visitBy`, `Grammar.visit_eq_visitBy` — the recursion over the rules with either pass.
* `Grammar.single_pass` — **an expansion is the naive one**, turn by turn and as a whole.
-/

namespace StraightLine

open Relation (ReflTransGen)

variable {T N σ ε : Type}

/-- A cursor stands on the first of the entries ahead. -/
theorem Chain.exists_of_firstOf {α : Type} {es : List (Position × α)} {p : Position}
    (h : firstOf es = some p) : ∃ x r, es = (p, x) :: r := by
  cases es with
  | nil => cases h
  | cons e r =>
    cases h
    exact ⟨e.2, r, rfl⟩

/-! ## The passes -/

/-- The reference at a position gives way to its word; a terminal stays. -/
def expandAt (follow : σ → N → Except ε (List T) × σ) (b : Body T N) (p : Position) (s : σ) :
    Except ε (Body T N) × σ :=
  match b.get? p with
  | some (.nonterminal id) =>
    match follow s id with
    | (.error e, s) => (.error e, s)
    | (.ok word, s) => (.ok (b.replaceAt p (word.map .terminal)).2, s)
  | _ => (.ok b, s)

section

variable {follow : σ → N → Except ε (List T) × σ} {b b' : Body T N} {p : Position} {s s' : σ}
  {l r : List (Position × Symbol T N)}

theorem expandAt_terminal {t : T} (h : b.entries = l ++ (p, .terminal t) :: r) :
    expandAt follow b p s = (.ok b, s) := by
  have hget : b.get? p = some (.terminal t) := (b.get?_eq_some_iff p _).mpr (by simp [h])
  simp only [expandAt, hget]

theorem expandAt_error {id : N} {e : ε} (h : b.entries = l ++ (p, .nonterminal id) :: r)
    (hf : follow s id = (.error e, s')) : expandAt follow b p s = (.error e, s') := by
  have hget : b.get? p = some (.nonterminal id) := (b.get?_eq_some_iff p _).mpr (by simp [h])
  simp only [expandAt, hget, hf]

theorem expandAt_ok {id : N} {word : List T} (h : b.entries = l ++ (p, .nonterminal id) :: r)
    (hf : follow s id = (.ok word, s')) :
    expandAt follow b p s = (.ok (b.replaceAt p (word.map .terminal)).2, s') := by
  have hget : b.get? p = some (.nonterminal id) := (b.get?_eq_some_iff p _).mpr (by simp [h])
  simp only [expandAt, hget, hf]

/-- A turn fails only where a word is asked for in vain. -/
theorem follow_of_expandAt_error {x : Symbol T N} {e : ε} (h : b.entries = l ++ (p, x) :: r)
    (he : expandAt follow b p s = (.error e, s')) :
    ∃ id, x = .nonterminal id ∧ follow s id = (.error e, s') := by
  cases x with
  | terminal t =>
    rw [expandAt_terminal h] at he
    cases he
  | nonterminal id =>
    refine ⟨id, rfl, ?_⟩
    cases hf : follow s id with
    | mk answer s'' =>
      cases answer with
      | error e' =>
        rw [expandAt_error h hf] at he
        cases he
        rfl
      | ok word =>
        rw [expandAt_ok h hf] at he
        cases he

/-- What stands behind the position stays there, and a reference is replaced by terminals. -/
theorem entries_expandAt {x : Symbol T N} (h : b.entries = l ++ (p, x) :: r)
    (he : expandAt follow b p s = (.ok b', s')) :
    ∃ (fs : List (Position × Symbol T N)) (w : List T), b'.entries = l ++ fs ++ r ∧
      fs.map Prod.snd = w.map .terminal := by
  cases x with
  | terminal t =>
    rw [expandAt_terminal h] at he
    cases he
    exact ⟨[(p, .terminal t)], [t], by simp [h], rfl⟩
  | nonterminal id =>
    cases hf : follow s id with
    | mk answer s'' =>
      cases answer with
      | error e =>
        rw [expandAt_error h hf] at he
        cases he
      | ok word =>
        rw [expandAt_ok h hf] at he
        cases he
        obtain ⟨-, fs, hfs, -, hentries⟩ := b.entries_replaceAt h (word.map .terminal)
        exact ⟨fs, word, hentries, hfs⟩

/-- How many turns can be ahead of a cursor. -/
def ahead (b : Body T N) : Option Position → Nat
  | none => 0
  | some p => (b.entries.dropWhile fun e => e.1 ≠ p).length + 1

theorem ahead_some (h : b.entries = l ++ r) (hp : Chain.firstOf r = some p) :
    ahead b (some p) = r.length + 1 := by
  obtain ⟨x, r', rfl⟩ := Chain.exists_of_firstOf hp
  rw [ahead, Sequence.dropWhile_entries h]

/-- The position behind the one where a turn was made has fewer turns ahead. -/
theorem ahead_expandAt_lt (he : expandAt follow b p s = (.ok b', s')) :
    ahead b' (b.next p) < ahead b (some p) := by
  cases hn : b.next p with
  | none => exact Nat.succ_pos _
  | some q =>
    obtain ⟨n, hnode, -⟩ := Option.bind_eq_some_iff.mp hn
    obtain ⟨l, r, hentries, -⟩ := b.threads.split hnode
    rw [b.next_eq hentries] at hn
    obtain ⟨fs, w, hentries', -⟩ := entries_expandAt hentries he
    rw [ahead_some hentries' hn, ahead_some hentries rfl]
    simp

end

/-- The forward pass from a cursor on. The next position is the one in the working copy before the
splice. -/
def sweep (follow : σ → N → Except ε (List T) × σ) (b : Body T N) (cursor : Option Position)
    (s : σ) : Except ε (Body T N) × σ :=
  match cursor with
  | none => (.ok b, s)
  | some p =>
    match _turn : expandAt follow b p s with
    | (.error e, s) => (.error e, s)
    | (.ok b', s) => sweep follow b' (b.next p) s
termination_by ahead b cursor
decreasing_by exact ahead_expandAt_lt _turn

/-- The forward pass over a body. -/
def forward (follow : σ → N → Except ε (List T) × σ) (b : Body T N) (s : σ) :
    Except ε (Body T N) × σ :=
  sweep follow b b.first s

theorem Sequence.exists_of_findFirst {α : Type} {b : Sequence α} {f : α → Bool} {p : Position}
    (h : b.findFirst f = some p) : ∃ l x r, b.entries = l ++ (p, x) :: r ∧ f x = true := by
  obtain ⟨e, he, rfl⟩ := Option.map_eq_some_iff.mp h
  obtain ⟨hf, l, r, hentries, -⟩ := List.find?_eq_some_iff_append.mp he
  exact ⟨l, e.2, r, hentries, hf⟩

/-- Where there is a first reference, one reference gives way. -/
theorem countP_expandAt_lt {follow : σ → N → Except ε (List T) × σ} {b b' : Body T N}
    {p : Position} {s s' : σ} (hp : b.findFirst Symbol.isNonterminal = some p)
    (he : expandAt follow b p s = (.ok b', s')) :
    b'.toList.countP Symbol.isNonterminal < b.toList.countP Symbol.isNonterminal := by
  obtain ⟨l, x, r, hentries, hx⟩ := Sequence.exists_of_findFirst hp
  obtain ⟨fs, w, hentries', hfs⟩ := entries_expandAt hentries he
  have hletters : (w.map (.terminal : T → Symbol T N)).countP Symbol.isNonterminal = 0 := by
    simp [List.countP_eq_zero, Symbol.isNonterminal]
  rw [Sequence.toList, Sequence.toList, hentries, hentries', List.map_append, List.map_append,
    List.map_append, hfs, List.map_cons, List.countP_append, List.countP_append,
    List.countP_append, List.countP_cons_of_pos hx, hletters]
  omega

/-- The naive pass: find the first reference, put its word in its place, and start again. -/
def rescan (follow : σ → N → Except ε (List T) × σ) (b : Body T N) (s : σ) :
    Except ε (Body T N) × σ :=
  match _found : b.findFirst Symbol.isNonterminal with
  | none => (.ok b, s)
  | some p =>
    match _turn : expandAt follow b p s with
    | (.error e, s) => (.error e, s)
    | (.ok b', s) => rescan follow b' s
termination_by b.toList.countP Symbol.isNonterminal
decreasing_by exact countP_expandAt_lt _found _turn

/-! ### Equations -/

section

variable {follow : σ → N → Except ε (List T) × σ} {b b' : Body T N} {p : Position} {s s' : σ} {e : ε}

theorem sweep_none : sweep follow b none s = (.ok b, s) := by
  rw [sweep]

theorem sweep_of_error (h : expandAt follow b p s = (.error e, s')) :
    sweep follow b (some p) s = (.error e, s') := by
  rw [sweep]
  split
  · next h' => rw [h] at h'; cases h'; rfl
  · next h' => rw [h] at h'; cases h'

theorem sweep_of_ok (h : expandAt follow b p s = (.ok b', s')) :
    sweep follow b (some p) s = sweep follow b' (b.next p) s' := by
  rw [sweep]
  split
  · next h' => rw [h] at h'; cases h'
  · next h' => rw [h] at h'; cases h'; rfl

theorem rescan_done (h : b.findFirst Symbol.isNonterminal = none) :
    rescan follow b s = (.ok b, s) := by
  rw [rescan]
  split
  · rfl
  · next h' => rw [h] at h'; cases h'

theorem rescan_of_error (hp : b.findFirst Symbol.isNonterminal = some p)
    (h : expandAt follow b p s = (.error e, s')) : rescan follow b s = (.error e, s') := by
  rw [rescan]
  split
  · next h' => rw [hp] at h'; cases h'
  · next h' =>
    rw [hp] at h'
    cases h'
    split
    · next h'' => rw [h] at h''; cases h''; rfl
    · next h'' => rw [h] at h''; cases h''

theorem rescan_of_ok (hp : b.findFirst Symbol.isNonterminal = some p)
    (h : expandAt follow b p s = (.ok b', s')) : rescan follow b s = rescan follow b' s' := by
  rw [rescan]
  split
  · next h' => rw [hp] at h'; cases h'
  · next h' =>
    rw [hp] at h'
    cases h'
    split
    · next h'' => rw [h] at h''; cases h''
    · next h'' => rw [h] at h''; cases h''; rfl

end

/-! ## The passes agree -/

section

variable {b : Body T N} {w : List T} {rest : List (Position × Symbol T N)}

/-- Behind letters the first reference is the first one ahead. -/
theorem Spelt.findFirst_eq (h : Spelt b w rest) :
    b.findFirst Symbol.isNonterminal =
      (rest.find? fun e => e.2.isNonterminal).map Prod.fst := by
  obtain ⟨done, hentries, hdone⟩ := h
  have hletters : (done.find? fun e => e.2.isNonterminal) = none := by
    rw [List.find?_eq_none]
    intro e he
    have hmem : e.2 ∈ w.map (.terminal : T → Symbol T N) := hdone ▸ List.mem_map_of_mem he
    obtain ⟨t, -, ht⟩ := List.mem_map.mp hmem
    rw [← ht]
    exact Bool.false_ne_true
  rw [Sequence.findFirst, hentries, List.find?_append, hletters, Option.none_or]

/-- Behind letters it makes no difference whether a pass goes on or starts again. The induction is on
the entries ahead: a turn keeps letters behind itself, however many of them a word has. -/
theorem sweep_eq_rescan [DecidableEq N] (follow : σ → N → Except ε (List T) × σ)
    (h : Spelt b w rest) (s : σ) :
    sweep follow b (Chain.firstOf rest) s = rescan follow b s := by
  induction rest generalizing b w s with
  | nil =>
    rw [rescan_done h.findFirst_eq]
    exact sweep_none
  | cons entry rest ih =>
    obtain ⟨p, x⟩ := entry
    obtain ⟨done, hentries, -⟩ := id h
    have hnext := b.next_eq hentries
    rw [Chain.firstOf_cons]
    cases x with
    | terminal t =>
      rw [sweep_of_ok (expandAt_terminal hentries), hnext]
      exact ih (wordOf_measures.letter b w p t rest h) s
    | nonterminal id =>
      have hfirst : b.findFirst Symbol.isNonterminal = some p := h.findFirst_eq
      cases hf : follow s id with
      | mk answer s' =>
        cases answer with
        | error e =>
          have hturn := expandAt_error hentries hf
          rw [sweep_of_error hturn, rescan_of_error hfirst hturn]
        | ok word =>
          have hturn := expandAt_ok hentries hf
          rw [sweep_of_ok hturn, rescan_of_ok hfirst hturn, hnext]
          exact ih (wordOf_measures.reference b w p id word rest h) s'

/-- **One forward pass is as good as starting over**: it has the same result, and it asks for the
same words in the same order. -/
theorem forward_eq_rescan [DecidableEq N] (follow : σ → N → Except ε (List T) × σ) (b : Body T N)
    (s : σ) : forward follow b s = rescan follow b s := by
  rw [forward, b.first_eq]
  exact sweep_eq_rescan follow (wordOf_measures.enter b) s

/-- Reading the entries of the body is sweeping its working copy. -/
theorem walk_eq_sweep [DecidableEq N]
    {follow : Trail N (List T) → N → Except (GrammarError N) (List T) × Trail N (List T)}
    (h : Spelt b w rest) (t : Trail N (List T)) :
    wordOf.walk follow b t rest = sweep follow b (Chain.firstOf rest) t := by
  induction rest generalizing b w t with
  | nil => exact sweep_none.symm
  | cons entry rest ih =>
    obtain ⟨p, x⟩ := entry
    obtain ⟨done, hentries, -⟩ := id h
    have hnext := b.next_eq hentries
    rw [Chain.firstOf_cons]
    cases x with
    | terminal a =>
      rw [sweep_of_ok (expandAt_terminal hentries), hnext]
      exact ih (wordOf_measures.letter b w p a rest h) t
    | nonterminal id =>
      rw [Valuation.walk]
      cases hf : follow t id with
      | mk answer t' =>
        cases answer with
        | error e => rw [sweep_of_error (expandAt_error hentries hf)]
        | ok word =>
          rw [sweep_of_ok (expandAt_ok hentries hf), hnext]
          exact ih (wordOf_measures.reference b w p id word rest h) t'

theorem walk_eq_forward [DecidableEq N]
    (follow : Trail N (List T) → N → Except (GrammarError N) (List T) × Trail N (List T))
    (b : Body T N) (t : Trail N (List T)) :
    wordOf.walk follow (wordOf.enter b) t b.entries = forward follow b t := by
  rw [forward, b.first_eq]
  exact walk_eq_sweep (wordOf_measures.enter b) t

end

/-! ## Before every turn -/

/-- One turn of a forward pass: a working copy, a cursor and a state, before and after. -/
inductive Turns (follow : σ → N → Except ε (List T) × σ) :
    Body T N × Option Position × σ → Body T N × Option Position × σ → Prop
  | turn {b b' p s s'} : expandAt follow b p s = (.ok b', s') →
      Turns follow (b, some p, s) (b', b.next p, s')

/-- Every word that is returned is derived, provided the state is right. `Right asked s` says so
after the names `asked`. -/
def Faithful (P : Productions T N) (Right : List N → σ → Prop)
    (follow : σ → N → Except ε (List T) × σ) : Prop :=
  ∀ asked s id, Right asked s → Right (asked ++ [id]) (follow s id).2 ∧
    ∀ word, (follow s id).1 = .ok word → P.Derives id word

/-- The pass over `b` is somewhere between two turns. Before the cursor the working copy holds
letters alone, which are the word of the consumed symbols; from the cursor on it holds the other
symbols, at their own positions. -/
def Midway (P : Productions T N) (Right : List N → σ → Prop) (b : Body T N) :
    Body T N × Option Position × σ → Prop
  | (working, cursor, s) => ∃ consumed done rest w,
      b.entries = consumed ++ rest ∧ working.entries = done ++ rest ∧
      cursor = Chain.firstOf rest ∧ done.map Prod.snd = w.map .terminal ∧
      P.Yields (consumed.map Prod.snd) w ∧
      Right ((consumed.map Prod.snd).filterMap Symbol.nonterminal?) s

section

variable {P : Productions T N} {Right : List N → σ → Prop}
  {follow : σ → N → Except ε (List T) × σ} {b working : Body T N} {cursor : Option Position}
  {s : σ} {c c' : Body T N × Option Position × σ}

theorem midway_start (b : Body T N) (hs : Right [] s) : Midway P Right b (b, b.first, s) :=
  ⟨[], [], b.entries, [], rfl, rfl, b.first_eq, rfl, .nil, hs⟩

/-- **One turn keeps what holds between turns.** -/
theorem Midway.turn (hfollow : Faithful P Right follow) (h : Midway P Right b c)
    (hturn : Turns follow c c') : Midway P Right b c' := by
  obtain @⟨working, working', p, s, s', hexpand⟩ := hturn
  obtain ⟨consumed, done, rest, w, hb, hentries, hcursor, hdone, hword, hs⟩ := h
  obtain ⟨x, rest, rfl⟩ := Chain.exists_of_firstOf hcursor.symm
  -- read off before the splice, which leaves the entries behind the cursor alone
  have hnext := working.next_eq hentries
  have hconsumed : b.entries = (consumed ++ [(p, x)]) ++ rest := by
    rw [hb, List.append_assoc, List.singleton_append]
  cases x with
  | terminal t =>
    rw [expandAt_terminal hentries] at hexpand
    cases hexpand
    refine ⟨_, done ++ [(p, .terminal t)], rest, w ++ [t], hconsumed, by simp [hentries], hnext,
      by simp [hdone], ?_, by simpa [List.filterMap_cons, Symbol.nonterminal?] using hs⟩
    rw [List.map_append]
    exact hword.append (.terminal .nil)
  | nonterminal id =>
    obtain ⟨hright, hderives⟩ := hfollow _ s id hs
    cases hf : follow s id with
    | mk answer s'' =>
      rw [hf] at hright hderives
      cases answer with
      | error e =>
        rw [expandAt_error hentries hf] at hexpand
        cases hexpand
      | ok word =>
        rw [expandAt_ok hentries hf] at hexpand
        cases hexpand
        obtain ⟨-, fs, hfs, -, hspliced⟩ :=
          working.entries_replaceAt hentries (word.map .terminal)
        refine ⟨_, done ++ fs, rest, w ++ word, hconsumed, hspliced, hnext, by simp [hdone, hfs],
          ?_, by simpa [List.filterMap_cons, Symbol.nonterminal?] using hright⟩
        obtain ⟨body, hbody, hyields⟩ := hderives word rfl
        have hone : P.Yields [.nonterminal id] (word ++ []) := .reference hbody hyields .nil
        rw [List.append_nil] at hone
        rw [List.map_append]
        exact hword.append hone

/-- **It holds before every turn of a pass.** -/
theorem midway_of_turns (hfollow : Faithful P Right follow) (hs : Right [] s)
    (h : ReflTransGen (Turns follow) (b, b.first, s) c) : Midway P Right b c := by
  induction h with
  | refl => exact midway_start b hs
  | tail _ hturn ih => exact ih.turn hfollow hturn

/-- From anywhere between two turns a pass goes on to the word of the body, or stops at a reference,
and in both cases it leaves a right state. -/
theorem Midway.sweep (hfollow : Faithful P Right follow)
    (h : Midway P Right b (working, cursor, s)) :
    (∃ asked, Right asked (sweep follow working cursor s).2) ∧
    ∀ b', (sweep follow working cursor s).1 = .ok b' →
      ∃ w, b'.toList = w.map .terminal ∧ P.Yields b.toList w := by
  fun_induction StraightLine.sweep follow working cursor s with
  | case1 working s =>
    obtain ⟨consumed, done, rest, w, hb, hentries, hcursor, hdone, hword, hs⟩ := h
    obtain rfl : rest = [] := Chain.firstOf_eq_none_iff.mp hcursor.symm
    rw [List.append_nil] at hb hentries
    refine ⟨⟨_, hs⟩, fun b' hb' => ?_⟩
    cases hb'
    exact ⟨w, by rw [Sequence.toList, hentries, hdone], by rwa [Sequence.toList, hb]⟩
  | case2 working s p e s' hexpand =>
    refine ⟨?_, fun b' hb' => by cases hb'⟩
    obtain ⟨consumed, done, rest, w, -, hentries, hcursor, -, -, hs⟩ := h
    obtain ⟨x, rest, rfl⟩ := Chain.exists_of_firstOf hcursor.symm
    obtain ⟨id, rfl, hf⟩ := follow_of_expandAt_error hentries hexpand
    have hright := (hfollow _ s id hs).1
    rw [hf] at hright
    exact ⟨_, hright⟩
  | case3 working s p working' s' hexpand ih => exact ih (h.turn hfollow ⟨hexpand⟩)

/-- A whole pass leaves a right state, and if it succeeds it leaves the word of the body in letters.
-/
theorem Faithful.forward (hfollow : Faithful P Right follow) (hs : Right [] s) :
    (∃ asked, Right asked (forward follow b s).2) ∧
    ∀ b', (forward follow b s).1 = .ok b' →
      ∃ w, b'.toList = w.map .terminal ∧ P.Yields b.toList w :=
  (midway_start b hs).sweep hfollow

/-- The same answers, and a note of each name that is asked for. -/
def noted (follow : σ → N → Except ε (List T) × σ) :
    σ × List N → N → Except ε (List T) × (σ × List N)
  | (s, asked), id => ((follow s id).1, ((follow s id).2, asked ++ [id]))

theorem Faithful.noted {Right : σ → Prop} (h : Faithful P (fun _ s => Right s) follow) :
    Faithful P (fun asked s => Right s.1 ∧ s.2 = asked) (noted follow) := by
  rintro asked ⟨s, _⟩ id ⟨hs, rfl⟩
  obtain ⟨hright, hderives⟩ := h [] s id hs
  exact ⟨⟨hright, rfl⟩, hderives⟩

end

/-! ## Correct memos -/

section

variable [DecidableEq N]

/-- Every entry is the word that its name derives. -/
def Correct (P : Productions T N) (memo : OrderedMap N (List T)) : Prop :=
  ∀ x w, memo.get? x = some w → P.Derives x w

open Grammar

/-- With a correct memo a visit returns derived words only, and it leaves a correct memo behind. -/
theorem visit_faithful (rules : OrderedMap N (Body T N)) (path : List N) :
    Faithful (productionsOf rules)
      (fun _ (t : Trail N (List T)) => Correct (productionsOf rules) t.finished)
      (visit rules wordOf path) := by
  refine fun _ t id => visit_induction rules wordOf (motive := fun _ t id result =>
    Correct (productionsOf rules) t.finished → Correct (productionsOf rules) result.2.finished ∧
      ∀ word, result.1 = .ok word → (productionsOf rules).Derives id word)
    ?finished ?undefined ?onPath ?enter path t id
  case finished =>
    intro path t id word hf ht
    refine ⟨ht, fun w hw => ?_⟩
    cases hw
    exact ht id word hf
  case undefined =>
    intro path t id _ _ ht
    exact ⟨ht, fun w hw => by cases hw⟩
  case onPath =>
    intro path t id b _ _ _ ht
    exact ⟨ht, fun w hw => by cases hw⟩
  case enter =>
    intro path t id b _ hr _ ih ht
    have hfaithful : Faithful (productionsOf rules)
        (fun _ (t : Trail N (List T)) => Correct (productionsOf rules) t.finished)
        (visit rules wordOf (id :: path)) := fun _ t y => ih t y
    have hbody := hfaithful.forward (b := b) (s := (t.reach (path.length + 1)).enter id) ht
    rw [walk_eq_forward]
    cases hpass : forward (visit rules wordOf (id :: path)) b
        ((t.reach (path.length + 1)).enter id) with
    | mk answer t' =>
      rw [hpass] at hbody
      obtain ⟨⟨-, hmemo⟩, hword⟩ := hbody
      cases answer with
      | error e => exact ⟨hmemo, fun w hw => by cases hw⟩
      | ok b' =>
        obtain ⟨w, hletters, hyields⟩ := hword b' rfl
        have hleave : wordOf.leave b' = w := by
          show b'.toList.filterMap Symbol.terminal? = w
          rw [hletters, List.filterMap_map]
          exact List.filterMap_some
        have hderives : (productionsOf rules).Derives id w :=
          ⟨_, productionsOf_of_get? hr, hyields⟩
        rw [Valuation.conclude, hleave]
        refine ⟨OrderedMap.forall_insert hmemo hderives, fun u hu => ?_⟩
        cases hu
        exact hderives

end

/-! ## The recursion with either pass -/

/-- A pass over a working copy, given a way to get the words of references. -/
abbrev Pass (T N : Type) :=
  (Trail N (List T) → N → Except (GrammarError N) (List T) × Trail N (List T)) →
    Body T N → Trail N (List T) → Except (GrammarError N) (Body T N) × Trail N (List T)

namespace Grammar

variable [DecidableEq N]

/-- The word of `id` for a reference met on the given path. The body of a rule that is neither
memorised nor missing nor on the path is expanded by the pass, and its letters are collected. -/
def visitBy (pass : Pass T N) (rules : OrderedMap N (Body T N)) (path : List N)
    (trail : Trail N (List T)) (id : N) : Except (GrammarError N) (List T) × Trail N (List T) :=
  let trail := trail.reach (path.length + 1)
  match trail.finished.get? id with
  | some word => (.ok word, trail)
  | none =>
    match _defined : rules.get? id with
    | none => (.error (.undefinedNonterminal id), trail)
    | some body =>
      if _onPath : id ∈ path then (.error (.cycle id), trail)
      else wordOf.conclude id (pass (visitBy pass rules (id :: path)) body (trail.enter id))
termination_by rulesOff rules path
decreasing_by exact rulesOff_cons_lt (OrderedMap.mem_keys_of_get? _defined) _onPath

/-- An expansion that uses the given pass. -/
def expandBy (pass : Pass T N) (g : Grammar T N) (id : N) : Outcome T N (List T) :=
  let (answer, trail) := visitBy pass g.rules [] (.ofFinished g.memo) id
  ⟨answer, { g with memo := trail.finished }, trail.entered.map .expanding⟩

/-- Every pass that is equal to the forward one expands all rules alike. -/
theorem visit_eq_visitBy {pass : Pass T N}
    (hpass : ∀ follow b t, pass follow b t = forward follow b t) (rules : OrderedMap N (Body T N))
    (path : List N) : visit rules wordOf path = visitBy pass rules path := by
  funext trail id
  refine visit_induction rules wordOf (motive := fun path t id result =>
    result = visitBy pass rules path t id) ?finished ?undefined ?onPath ?enter path trail id
  case finished =>
    intro path t id word hf
    rw [visitBy]
    simp only [Trail.reach, hf]
  case undefined =>
    intro path t id hf hr
    rw [visitBy]
    simp only [Trail.reach, hf]
    split
    · rfl
    · next b hb => rw [hr] at hb; cases hb
  case onPath =>
    intro path t id b hf hr hp
    rw [visitBy]
    simp only [Trail.reach, hf]
    split
    · next hn => rw [hr] at hn; cases hn
    · rw [dif_pos hp]
  case enter =>
    intro path t id b hf hr hp ih
    have hvisits : visit rules wordOf (id :: path) = visitBy pass rules (id :: path) := by
      funext t y
      exact ih t y
    rw [visitBy]
    simp only [Trail.reach, hf]
    split
    · next hn => rw [hr] at hn; cases hn
    · next b' hb =>
      rw [hr] at hb
      cases hb
      rw [dif_neg hp, hvisits, walk_eq_forward, hpass]

theorem expand_eq_expandBy {pass : Pass T N}
    (hpass : ∀ follow b t, pass follow b t = forward follow b t) (g : Grammar T N) (id : N) :
    g.expand id = g.expandBy pass id := by
  rw [expand, expandBy, visit_eq_visitBy hpass]

/-- **An expansion is the naive one.** On every grammar an expansion goes through each working copy
once, and it has the word, the error, the memo and the reports of the algorithm that starts again
from the front after every splice.

The same holds for every single body, with any memo that is correct for the grammar: both passes
leave the same working copy, or stop with the same error, and they ask for the same words in the
same order. Before every turn of the forward pass all that stands before the cursor are letters,
and they are the word of the part of the body that was consumed, whose references are those that
words were asked for. From the cursor on stands the rest of the body, at its own positions. -/
theorem single_pass (g : Grammar T N) (hmemo : Correct g.productions g.memo) (id : N) :
    g.expand id = g.expandBy forward id ∧ g.expandBy forward id = g.expandBy rescan id ∧
    ∀ (path : List N) (trail : Trail N (List T)) (b : Body T N), trail.finished = g.memo →
      let follow := noted (visit g.rules wordOf path)
      forward follow b (trail, []) = rescan follow b (trail, []) ∧
      ∀ working cursor trail' asked,
        ReflTransGen (Turns follow) (b, b.first, (trail, [])) (working, cursor, (trail', asked)) →
        ∃ consumed done rest w,
          b.entries = consumed ++ rest ∧ working.entries = done ++ rest ∧
          cursor = Chain.firstOf rest ∧ done.map Prod.snd = w.map .terminal ∧
          g.productions.Yields (consumed.map Prod.snd) w ∧
          asked = (consumed.map Prod.snd).filterMap Symbol.nonterminal? := by
  have hforward : g.expand id = g.expandBy forward id := expand_eq_expandBy (fun _ _ _ => rfl) g id
  have hrescan : g.expand id = g.expandBy rescan id :=
    expand_eq_expandBy (fun follow b t => (forward_eq_rescan follow b t).symm) g id
  refine ⟨hforward, hforward.symm.trans hrescan, fun path trail b htrail => ?_⟩
  refine ⟨forward_eq_rescan _ b _, fun working cursor trail' asked hturns => ?_⟩
  have hstart : Correct g.productions trail.finished ∧ ([] : List N) = [] := ⟨htrail ▸ hmemo, rfl⟩
  obtain ⟨consumed, done, rest, w, hb, hworking, hcursor, hdone, hword, -, hasked⟩ :=
    midway_of_turns (visit_faithful g.rules path).noted hstart hturns
  exact ⟨consumed, done, rest, w, hb, hworking, hcursor, hdone, hword, hasked⟩

/-- The start symbol has two references in a row, the second one at the end and to an empty rule,
and the rule below was expanded before. -/
def emptyAtEnd : Grammar Char Nat :=
  run 0
    [.addRule 0 (.ofList [.nonterminal 1, .terminal '-', .nonterminal 1, .nonterminal 2]),
      .addRule 1 (.ofList [.nonterminal 3, .nonterminal 3, .terminal 'c']),
      .addRule 2 .empty, .addRule 3 (.ofList [.terminal 'a', .terminal 'b']), .expand 3]

/-- With one rule in the memo, starting over finds the word that the forward pass finds. -/
theorem single_pass_emptyAtEnd :
    emptyAtEnd.memo.keys = [3] ∧ Correct emptyAtEnd.productions emptyAtEnd.memo ∧
      (emptyAtEnd.expandBy rescan 0).answer = .ok "ababc-ababc".toList := by
  have hmemo : Correct emptyAtEnd.productions emptyAtEnd.memo := by
    intro x w hx
    obtain ⟨u, hu, rfl⟩ := (settled_run 0 _).sound x w hx
    exact hu
  obtain ⟨hforward, hrescan, -⟩ := single_pass emptyAtEnd hmemo 0
  refine ⟨by cbv, hmemo, ?_⟩
  rw [← hrescan, ← hforward]
  cbv

end Grammar

end StraightLine
