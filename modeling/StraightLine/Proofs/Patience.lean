import StraightLine.Proofs.LazyWalk

/-!
# A lazy walk is patient on every grammar

`Walk.next` makes a bounded number of moves. On a grammar with loops the unfolding need not end, and
yet the bound cuts off no call that would answer: before the answer no body is entered inside
itself, because from there on everything would repeat, and the call would never end.

* `Productions.Delays` — how many moves it takes to come to the first letter or gap among symbols,
  or to their end if there is none. `Delays.unique` — the number is determined, so a name that lies
  inside itself has none.
* `delays_le` — therefore it is bounded, on every grammar.
* `Walk.Answers.next_eq` — **a call that ends is not cut off**. `Walk.Gives.calls_eq` and
  `Walk.gives_of_calls` — so the calls of a walk are those that may take as many moves as they like.
-/

namespace StraightLine

variable {T N : Type}

namespace Productions

/-! ## Moves up to an answer -/

/-- In so many moves the first answer among the symbols is `found`, or else their end is reached.
Two moves are counted for a body, one to enter it and one to leave it. -/
inductive Delays (P : Productions T N) : (found : Bool) → List (Symbol T N) → Nat → Prop
  | nil : Delays P false [] 0
  | terminal {t ss} : Delays P true (.terminal t :: ss) 1
  | gap {id ss} : P id = none → Delays P true (.nonterminal id :: ss) 1
  | inside {id b ss j} : P id = some b → Delays P true b j →
      Delays P true (.nonterminal id :: ss) (j + 2)
  | behind {id b ss j found k} : P id = some b → Delays P false b j → Delays P found ss k →
      Delays P found (.nonterminal id :: ss) (j + k + 2)

namespace Delays

variable {P : Productions T N} {found found' : Bool} {ss ss' : List (Symbol T N)} {k k' m n : Nat}

/-- **The number of moves is determined.** -/
theorem unique (h : Delays P found ss k) (h' : Delays P found' ss k') :
    found = found' ∧ k = k' := by
  induction h generalizing found' k' with
  | nil =>
    cases h'
    exact ⟨rfl, rfl⟩
  | terminal =>
    cases h'
    exact ⟨rfl, rfl⟩
  | gap hn =>
    cases h' with
    | gap _ => exact ⟨rfl, rfl⟩
    | inside hb _ | behind hb _ _ => rw [hn] at hb; cases hb
  | inside hb _ ih =>
    cases h' with
    | gap hn => rw [hb] at hn; cases hn
    | inside hb' h' =>
      rw [hb] at hb'
      cases hb'
      exact ⟨rfl, by rw [(ih h').2]⟩
    | behind hb' h' _ =>
      rw [hb] at hb'
      cases hb'
      cases (ih h').1
  | behind hb _ _ ihb ih =>
    cases h' with
    | gap hn => rw [hb] at hn; cases hn
    | inside hb' h' =>
      rw [hb] at hb'
      cases hb'
      cases (ihb h').1
    | behind hb' hj hk =>
      rw [hb] at hb'
      cases hb'
      exact ⟨(ih hk).1, by rw [(ihb hj).2, (ih hk).2]⟩

/-- The answer is found in the first part, or the first part is read to its end. -/
theorem of_append (h : Delays P found (ss ++ ss') n) :
    (found = true ∧ Delays P true ss n) ∨
      ∃ k k', n = k + k' ∧ Delays P false ss k ∧ Delays P found ss' k' := by
  induction ss generalizing n with
  | nil => exact .inr ⟨0, n, (Nat.zero_add n).symm, .nil, h⟩
  | cons s ss ih =>
    cases h with
    | terminal => exact .inl ⟨rfl, .terminal⟩
    | gap hn => exact .inl ⟨rfl, .gap hn⟩
    | inside hb hj => exact .inl ⟨rfl, .inside hb hj⟩
    | @behind _ _ _ j _ _ hb hj h =>
      rcases ih h with ⟨hfound, h⟩ | ⟨k, k', rfl, hk, hk'⟩
      · exact .inl ⟨hfound, .behind hb hj h⟩
      · exact .inr ⟨j + k + 2, k', by omega, .behind hb hj hk, hk'⟩

/-- If no reference among the symbols takes more than `m` moves, the symbols take at most `m` moves
each. -/
theorem le_mul (h : Delays P found ss k) (hm : 1 ≤ m)
    (href : ∀ id, .nonterminal id ∈ ss → ∀ f j, j ≤ k → Delays P f [.nonterminal id] j → j ≤ m) :
    k ≤ ss.length * m := by
  induction h with
  | nil => exact Nat.zero_le _
  | terminal | gap _ =>
    rw [List.length_cons, Nat.succ_mul]
    omega
  | @inside id b ss j hb hj _ =>
    have hfirst := href id List.mem_cons_self true (j + 2) (Nat.le_refl _) (.inside hb hj)
    rw [List.length_cons, Nat.succ_mul]
    omega
  | @behind id b ss j f k hb hj _ _ ih =>
    have hfirst := href id List.mem_cons_self false (j + 0 + 2) (by omega) (.behind hb hj .nil)
    have hrest := ih fun y hy f' i hi => href y (List.mem_cons_of_mem _ hy) f' i (by omega)
    rw [List.length_cons, Nat.succ_mul]
    omega

end Delays

end Productions

open Productions

section

variable [DecidableEq N] {rules : OrderedMap N (Body T N)}

/-- **On every grammar a reference brings an answer, or is read to its end, soon or never.** The
path holds names whose own number of moves is greater. -/
theorem delays_le {longest : Nat}
    (hlong : ∀ id b, productionsOf rules id = some b → b.length ≤ longest) {path : List N} {id : N}
    {found : Bool} {k : Nat}
    (hpath : ∀ p ∈ path, ∃ f i, (productionsOf rules).Delays f [.nonterminal p] i ∧ k < i)
    (hk : (productionsOf rules).Delays found [.nonterminal id] k) :
    k ≤ (longest + 2) ^ Grammar.rulesOff rules path := by
  induction path using path_induction rules generalizing id found k with
  | step path ih =>
    have hone := Nat.one_le_pow (Grammar.rulesOff rules path) (longest + 2) (by omega)
    -- a name on its own path would have two numbers
    have hnew : id ∉ path := by
      intro hid
      obtain ⟨f, i, hi, hlt⟩ := hpath id hid
      rw [(hk.unique hi).2] at hlt
      exact Nat.lt_irrefl i hlt
    have hbody : ∀ {b f j}, productionsOf rules id = some b → (productionsOf rules).Delays f b j →
        j < k → j + 2 ≤ (longest + 2) ^ Grammar.rulesOff rules path := by
      intro b f j hb hj hlt
      have hkey : id ∈ rules.keys := mem_keys_of_productionsOf hb
      have hinner : j ≤ b.length * (longest + 2) ^ Grammar.rulesOff rules (id :: path) := by
        refine hj.le_mul (Nat.one_le_pow _ _ (by omega)) fun y hy f' i hi hyi => ?_
        refine ih id hkey hnew (fun p hp => ?_) hyi
        rcases List.mem_cons.mp hp with rfl | hp
        · exact ⟨found, k, hk, by omega⟩
        · obtain ⟨f'', i', hi', hlt'⟩ := hpath p hp
          exact ⟨f'', i', hi', by omega⟩
      exact Nat.le_trans (add_two_le_pow (hlong id b hb) hinner)
        (Nat.pow_le_pow_right (by omega) (Grammar.rulesOff_cons_lt hkey hnew))
    cases hk with
    | gap _ => exact hone
    | inside hb hj => exact hbody hb hj (by omega)
    | behind hb hj hnil =>
      cases hnil
      exact hbody hb hj (by omega)

namespace Walk

/-! ## Patience -/

/-- The moves up to an answer below one open body, and the one that leaves it. -/
theorem delays_body_le {b : Body T N} {done rest : List (Position × Symbol T N)} {found : Bool}
    {k : Nat} (hb : b ∈ rules.values) (he : b.entries = done ++ rest)
    (hk : (productionsOf rules).Delays found (rest.map Prod.snd) k) :
    k + 1 ≤ (longest rules + 2) ^ (rules.size + 1) := by
  refine succ_le_room hb he (hk.le_mul (Nat.one_le_pow _ _ (by omega)) fun id _ f j _ hj => ?_)
  exact Nat.le_trans
    (delays_le (fun _ _ h => length_le_longest_of_production h) (List.forall_mem_nil _) hj)
    (pow_rulesOff_le [])

/-- **The patience of a walk is more than the moves up to the next answer.** -/
theorem patient_of_delays {stack : List (Cursor T N)} {ss : List (Symbol T N)} {found : Bool} {k : Nat}
    (h : Ahead rules stack ss) (hk : (productionsOf rules).Delays found ss k) :
    k + stack.length < patience ⟨rules, stack⟩ := by
  apply lt_patience_of_le
  induction h generalizing k with
  | nil =>
    cases hk
    exact Nat.zero_le _
  | @cons _ below _ _ done hbody hentries _ _ ih =>
    rw [List.length_cons, Nat.succ_mul]
    rcases hk.of_append with ⟨-, hj⟩ | ⟨j, i, rfl, hj, hi⟩
    · have hfirst := delays_body_le hbody hentries hj
      have hbelow := Nat.le_mul_of_pos_right below.length
        (Nat.one_le_pow (rules.size + 1) (longest rules + 2) (by omega))
      omega
    · have hfirst := delays_body_le hbody hentries hj
      have hrest := ih hi
      omega

end Walk

/-! ## Calls -/

/-- What a call answers when a move brings this, unless it goes on moving. -/
def Sight.answer? : Sight T → Option (Option T)
  | letter t => some (some t)
  | gap | finished => some none
  | silent => none

namespace Walk

/-- A call that comes to an end before its patience does: if it may make so many moves it answers,
and to be allowed more makes no difference. -/
structure Concludes (rules : OrderedMap N (Body T N)) (stack : List (Cursor T N))
    (ss : List (Symbol T N)) (answer : Option T) (w' : Walk T N) (moves : Nat) : Prop where
  delays : ∃ found k, (productionsOf rules).Delays found ss k ∧ moves ≤ k + stack.length + 1
  enough : ∀ m, moves ≤ m → nextWithin m ⟨rules, stack⟩ = (answer, w')
  rules_eq : w'.rules = rules
  ahead : ∃ ss', Ahead rules w'.stack ss'

section

variable {stack stack' : List (Cursor T N)} {ss ss' : List (Symbol T N)} {sight : Sight T}
  {answer : Option T} {w' : Walk T N} {moves : Nat}

/-- What is known of a move that was made. -/
theorem moves_of_move (hahead : Ahead rules stack ss) (hmove : move ⟨rules, stack⟩ = (sight, w')) :
    ∃ stack' ss', w' = ⟨rules, stack'⟩ ∧ Moves rules stack ss sight stack' ss' ∧
      Ahead rules stack' ss' := by
  obtain ⟨_, stack', ss', hmove', hmoves, h'⟩ := move_moves hahead
  rw [hmove] at hmove'
  cases hmove'
  exact ⟨stack', ss', rfl, hmoves, h'⟩

/-- A move that brings the answer. -/
theorem Concludes.one {found : Bool} {k : Nat}
    (hmove : move ⟨rules, stack⟩ = (sight, ⟨rules, stack'⟩)) (h' : Ahead rules stack' ss')
    (hsight : sight.answer? = some answer) (hk : (productionsOf rules).Delays found ss k) :
    Concludes rules stack ss answer ⟨rules, stack'⟩ 1 := by
  refine ⟨⟨found, k, hk, by omega⟩, fun m hm => ?_, rfl, ss', h'⟩
  obtain ⟨m, rfl⟩ := Nat.exists_eq_add_of_le' hm
  rw [nextWithin, hmove]
  cases sight <;> cases hsight <;> rfl

/-- A silent move in front of a call that ends. -/
theorem Concludes.silent (hmove : move ⟨rules, stack⟩ = (.silent, ⟨rules, stack'⟩))
    (h : Concludes rules stack' ss' answer w' moves)
    (hk : ∃ found k, (productionsOf rules).Delays found ss k ∧ moves ≤ k + stack.length) :
    Concludes rules stack ss answer w' (moves + 1) := by
  obtain ⟨found, k, hk, hle⟩ := hk
  refine ⟨⟨found, k, hk, by omega⟩, fun m hm => ?_, h.rules_eq, h.ahead⟩
  obtain ⟨m, rfl⟩ := Nat.exists_eq_add_of_le' (Nat.le_trans (Nat.le_add_left 1 moves) hm)
  rw [nextWithin, hmove]
  exact h.enough m (by omega)

/-- **A call that ends does so in as many moves as its delay says.** -/
theorem Answers.exists_concludes {w : Walk T N} (h : Answers w answer w')
    (hahead : Ahead w.rules w.stack ss) :
    ∃ moves, Concludes w.rules w.stack ss answer w' moves := by
  induction h generalizing ss with
  | @letter w _ t hmove =>
    obtain ⟨rules, stack⟩ := w
    obtain ⟨stack', ss', rfl, hmoves, h'⟩ := moves_of_move hahead hmove
    cases hmoves with
    | letter => exact ⟨1, .one hmove h' rfl .terminal⟩
  | @gap w _ hmove =>
    obtain ⟨rules, stack⟩ := w
    obtain ⟨stack', ss', rfl, hmoves, h'⟩ := moves_of_move hahead hmove
    cases hmoves with
    | gap hnone => exact ⟨1, .one hmove h' rfl (.gap (productionsOf_eq_none_iff.mpr hnone))⟩
  | @finished w _ hmove =>
    obtain ⟨rules, stack⟩ := w
    obtain ⟨stack', ss', rfl, hmoves, h'⟩ := moves_of_move hahead hmove
    cases hmoves with
    | finished => exact ⟨1, .one hmove h' rfl .nil⟩
  | @silent w _ _ _ hmove _ ih =>
    obtain ⟨rules, stack⟩ := w
    obtain ⟨stack', ss', rfl, hmoves, h'⟩ := moves_of_move hahead hmove
    obtain ⟨moves, hcall⟩ := ih h'
    obtain ⟨found, k, hk, hle⟩ := hcall.delays
    refine ⟨moves + 1, hcall.silent hmove ?_⟩
    cases hmoves with
    | leave => exact ⟨found, k, hk, hle⟩
    | enter hsome =>
      have hbody := productionsOf_of_get? hsome
      simp only [List.length_cons] at hle ⊢
      rcases hk.of_append with ⟨rfl, hj⟩ | ⟨j, i, rfl, hj, hi⟩
      · exact ⟨true, k + 2, .inside hbody hj, by omega⟩
      · exact ⟨found, j + i + 2, .behind hbody hj hi, by omega⟩

end

variable {w w' : Walk T N} {ss : List (Symbol T N)} {answer : Option T}

/-- **A call that ends is not cut off.** -/
theorem Answers.next_eq (h : Answers w answer w') (hahead : Ahead w.rules w.stack ss) :
    w.next = (answer, w') := by
  obtain ⟨moves, hcall⟩ := h.exists_concludes hahead
  obtain ⟨found, k, hk, hle⟩ := hcall.delays
  have hpatient : k + w.stack.length < w.patience := patient_of_delays hahead hk
  exact hcall.enough w.patience (by omega)

/-- A letter that a call brings is an answer, however often the call may move. -/
theorem answers_of_nextWithin {moves : Nat} {t : T} (h : w.nextWithin moves = (some t, w')) :
    Answers w (some t) w' := by
  induction moves generalizing w with
  | zero => cases h
  | succ moves ih =>
    rw [nextWithin] at h
    rcases hmove : w.move with ⟨_ | _ | _ | _, v⟩ <;> rw [hmove] at h
    · cases h
      exact .letter hmove
    · cases h
    · cases h
    · exact .silent hmove (ih h)

/-- **Calls that end answer as they would if no bound were set.** -/
theorem Gives.calls_eq {answers : List (Option T)} (h : Gives w answers)
    (hahead : Ahead w.rules w.stack ss) : w.calls answers.length = answers := by
  induction h generalizing ss with
  | nil => rfl
  | cons hcall _ ih =>
    obtain ⟨_, hend⟩ := hcall.exists_concludes hahead
    obtain ⟨ss', h'⟩ := hend.ahead
    rw [← hend.rules_eq] at h'
    rw [List.length_cons, calls, hcall.next_eq hahead]
    exact congrArg _ (ih h')

/-- **As long as letters come, every call comes to an end.** -/
theorem gives_of_calls {letters : List T} (h : w.calls letters.length = letters.map some) :
    Gives w (letters.map some) := by
  induction letters generalizing w with
  | nil => exact .nil
  | cons t letters ih =>
    rw [List.length_cons, List.map_cons, calls] at h
    obtain ⟨hanswer, hrest⟩ := List.cons.inj h
    exact .cons (answers_of_nextWithin (Prod.ext hanswer rfl)) (ih hrest)

end Walk

end

end StraightLine
