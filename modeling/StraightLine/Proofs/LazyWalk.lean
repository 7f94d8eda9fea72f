import StraightLine.Proofs.Cursors
import StraightLine.Proofs.Unfolds

/-!
# A lazy walk reads the unfolding

Where the start symbol can be unfolded, a `Walk` reads the unfolding from left to right: a letter
for a letter, `none` for a name without a rule, and `none` for ever at the end.

* `Productions.Effort` — how many moves it takes to read symbols with all the bodies below them,
  and `effort_le` — in a finite unfolding no body lies inside itself, which bounds them.
* `Walk.succ_le_room` — what one open body takes, and `Walk.patient` — the patience of a walk is
  more than the moves that are left.
* `Walk.Reads` — what one call of `next` does, and `Walk.next_reads` — it does so.
* `Walk.calls_eq` — all calls together: the unfolding, then `none`; every call ends.
-/

namespace StraightLine

variable {T N : Type}

namespace Productions

/-! ## The number of moves -/

/-- The moves that it takes to read `ss`, the bodies of references included: one for each symbol,
and one more to leave a body. -/
inductive Effort (P : Productions T N) : List (Symbol T N) → Nat → Prop
  | nil : Effort P [] 0
  | terminal {t ss k} : Effort P ss k → Effort P (.terminal t :: ss) (k + 1)
  | keep {id ss k} : P id = none → Effort P ss k → Effort P (.nonterminal id :: ss) (k + 1)
  | replace {id b j ss k} : P id = some b → Effort P b j → Effort P ss k →
      Effort P (.nonterminal id :: ss) (j + k + 2)

variable {P : Productions T N}

/-- What can be unfolded is read in finitely many moves. -/
theorem Unfolds.effort {ss us : List (Symbol T N)} (h : Unfolds P ss us) : ∃ k, Effort P ss k := by
  induction h with
  | nil => exact ⟨0, .nil⟩
  | terminal _ ih =>
    obtain ⟨k, hk⟩ := ih
    exact ⟨k + 1, .terminal hk⟩
  | keep hn _ ih =>
    obtain ⟨k, hk⟩ := ih
    exact ⟨k + 1, .keep hn hk⟩
  | replace hb _ _ ihb ih =>
    obtain ⟨j, hj⟩ := ihb
    obtain ⟨k, hk⟩ := ih
    exact ⟨j + k + 2, .replace hb hj hk⟩

namespace Effort

theorem unfolds {ss : List (Symbol T N)} {k : Nat} (h : Effort P ss k) : ∃ us, Unfolds P ss us := by
  induction h with
  | nil => exact ⟨[], .nil⟩
  | terminal _ ih =>
    obtain ⟨us, hus⟩ := ih
    exact ⟨_, .terminal hus⟩
  | keep hn _ ih =>
    obtain ⟨us, hus⟩ := ih
    exact ⟨_, .keep hn hus⟩
  | replace hb _ _ ihb ih =>
    obtain ⟨v, hv⟩ := ihb
    obtain ⟨us, hus⟩ := ih
    exact ⟨v ++ us, .replace hb hv hus⟩

theorem append {ss ss' : List (Symbol T N)} {k k' : Nat} (h : Effort P ss k)
    (h' : Effort P ss' k') : Effort P (ss ++ ss') (k + k') := by
  induction h with
  | nil => rwa [Nat.zero_add]
  | @terminal _ _ k _ ih =>
    rw [Nat.add_right_comm]
    exact .terminal ih
  | @keep _ _ k hn _ ih =>
    rw [Nat.add_right_comm]
    exact .keep hn ih
  | @replace _ _ j _ k hb hj _ _ ih =>
    rw [show j + k + 2 + k' = j + (k + k') + 2 by omega]
    exact .replace hb hj ih

theorem of_append {ss ss' : List (Symbol T N)} {n : Nat} (h : Effort P (ss ++ ss') n) :
    ∃ k k', n = k + k' ∧ Effort P ss k ∧ Effort P ss' k' := by
  induction ss generalizing n with
  | nil => exact ⟨0, n, (Nat.zero_add n).symm, .nil, h⟩
  | cons s ss ih =>
    cases h with
    | terminal h =>
      obtain ⟨k, k', rfl, hk, hk'⟩ := ih h
      exact ⟨k + 1, k', by omega, .terminal hk, hk'⟩
    | keep hn h =>
      obtain ⟨k, k', rfl, hk, hk'⟩ := ih h
      exact ⟨k + 1, k', by omega, .keep hn hk, hk'⟩
    | @replace _ _ j _ _ hb hj h =>
      obtain ⟨k, k', rfl, hk, hk'⟩ := ih h
      exact ⟨j + k + 2, k', by omega, .replace hb hj hk, hk'⟩

/-- If no symbol takes more than `m` moves, the symbols take at most `m` moves each. -/
theorem le_mul {ss : List (Symbol T N)} {k m : Nat} (h : Effort P ss k) (hm : 1 ≤ m)
    (href : ∀ id, .nonterminal id ∈ ss → ∀ j, Effort P [.nonterminal id] j → j ≤ m) :
    k ≤ ss.length * m := by
  induction h with
  | nil => exact Nat.zero_le _
  | terminal _ ih =>
    have := ih fun id hid => href id (List.mem_cons_of_mem _ hid)
    rw [List.length_cons, Nat.succ_mul]
    omega
  | keep _ _ ih =>
    have := ih fun id hid => href id (List.mem_cons_of_mem _ hid)
    rw [List.length_cons, Nat.succ_mul]
    omega
  | @replace id b j ss k hb hj _ _ ih =>
    have hrest := ih fun id hid => href id (List.mem_cons_of_mem _ hid)
    have hfirst := href id List.mem_cons_self (j + 0 + 2) (.replace hb hj .nil)
    rw [List.length_cons, Nat.succ_mul]
    omega

/-- No more symbols are read than moves are made. -/
theorem length_le {ss us : List (Symbol T N)} {k : Nat} (h : Effort P ss k)
    (hu : Unfolds P ss us) : us.length ≤ k := by
  induction h generalizing us with
  | nil =>
    cases hu
    exact Nat.le_refl 0
  | terminal _ ih =>
    cases hu with
    | terminal hu => exact Nat.succ_le_succ (ih hu)
  | keep hn _ ih =>
    cases hu with
    | keep _ hu => exact Nat.succ_le_succ (ih hu)
    | replace hb _ _ => rw [hn] at hb; cases hb
  | replace hb _ _ ihb ih =>
    cases hu with
    | keep hn _ => rw [hb] at hn; cases hn
    | replace hb' hv hu =>
      rw [hb] at hb'
      cases hb'
      have hbody := ihb hv
      have hrest := ih hu
      rw [List.length_append]
      omega

end Effort

end Productions

open Productions

/-- To enter and leave a body of at most `longest` symbols takes one power more than each symbol. -/
theorem add_two_le_pow {n longest r j : Nat} (hn : n ≤ longest)
    (hj : j ≤ n * (longest + 2) ^ r) : j + 2 ≤ (longest + 2) ^ (r + 1) :=
  calc j + 2 ≤ longest * (longest + 2) ^ r + 2 * (longest + 2) ^ r := by
        have hone := Nat.one_le_pow r (longest + 2) (by omega)
        have := Nat.mul_le_mul_right ((longest + 2) ^ r) hn
        omega
    _ = (longest + 2) ^ (r + 1) := by rw [← Nat.add_mul, Nat.pow_succ, Nat.mul_comm]

section

variable [DecidableEq N] {rules : OrderedMap N (Body T N)}

/-- **A reference in a finite unfolding takes few moves.** No body lies inside itself, so at most as
many bodies lie inside each other as there are rules off the path that leads there. -/
theorem effort_le {longest : Nat}
    (hlong : ∀ id b, productionsOf rules id = some b → b.length ≤ longest) {path : List N} {id : N}
    {k : Nat} (hpath : (productionsOf rules).Leads path id)
    (hk : (productionsOf rules).Effort [.nonterminal id] k) :
    k ≤ (longest + 2) ^ Grammar.rulesOff rules path := by
  induction path using path_induction rules generalizing id k with
  | step path ih =>
    obtain ⟨us, hus⟩ := hk.unfolds
    cases hk with
    | keep _ hk =>
      cases hk
      exact Nat.one_le_pow _ _ (by omega)
    | @replace _ b j _ _ hb hj hk =>
      cases hk
      have hkey : id ∈ rules.keys := mem_keys_of_productionsOf hb
      have hnew : id ∉ path := fun hid =>
        hus.not_loops List.mem_cons_self (.refl id) (hpath.loops_of_mem hid)
      have hbody : j ≤ b.length * (longest + 2) ^ Grammar.rulesOff rules (id :: path) :=
        hj.le_mul (Nat.one_le_pow _ _ (by omega)) fun y hy _ hi =>
          ih id hkey hnew (hpath.cons ⟨b, hb, hy⟩) hi
      exact Nat.le_trans (add_two_le_pow (hlong id b hb) hbody)
        (Nat.pow_le_pow_right (by omega) (Grammar.rulesOff_cons_lt hkey hnew))

/-! ## Patience -/

namespace Walk

/-- The length of the longest body. -/
def longest (rules : OrderedMap N (Body T N)) : Nat := (rules.values.map Sequence.size).foldl max 0

omit [DecidableEq N] in
theorem length_le_longest {b : Body T N} (hb : b ∈ rules.values) :
    b.entries.length ≤ longest rules := by
  have key : ∀ (sizes : List Nat) (m n : Nat), n ≤ m ∨ n ∈ sizes → n ≤ sizes.foldl max m := by
    intro sizes
    induction sizes with
    | nil =>
      rintro m n (h | h)
      · exact h
      · cases h
    | cons size sizes ih =>
      rintro m n (h | h)
      · exact ih _ n (.inl (Nat.le_trans h (Nat.le_max_left m size)))
      · rcases List.mem_cons.mp h with rfl | h
        · exact ih _ n (.inl (Nat.le_max_right m n))
        · exact ih _ n (.inr h)
  rw [← Sequence.size_eq]
  exact key _ 0 b.size (.inr (List.mem_map_of_mem hb))

theorem length_le_longest_of_production {id : N} {ss : List (Symbol T N)}
    (h : productionsOf rules id = some ss) : ss.length ≤ longest rules := by
  obtain ⟨b, hb, rfl⟩ := productionsOf_eq_some_iff.mp h
  have hmem : b ∈ rules.values := List.mem_map_of_mem (OrderedMap.get?_eq_some_iff.mp hb)
  rw [Sequence.toList, List.length_map]
  exact length_le_longest hmem

/-- No path is left by more names than there are rules. -/
theorem pow_rulesOff_le (path : List N) :
    (longest rules + 2) ^ Grammar.rulesOff rules path ≤ (longest rules + 2) ^ rules.size := by
  refine Nat.pow_le_pow_right (by omega) ?_
  rw [OrderedMap.size_eq_length_keys]
  exact List.countP_le_length

omit [DecidableEq N] in
/-- The room of one open body is enough for what it still holds, and for the move that leaves it. -/
theorem succ_le_room {b : Body T N} {done rest : List (Position × Symbol T N)} {k : Nat}
    (hb : b ∈ rules.values) (he : b.entries = done ++ rest)
    (hk : k ≤ (rest.map Prod.snd).length * (longest rules + 2) ^ rules.size) :
    k + 1 ≤ (longest rules + 2) ^ (rules.size + 1) := by
  have hrest : (rest.map Prod.snd).length ≤ longest rules := by
    have := length_le_longest hb
    rw [he, List.length_append] at this
    rw [List.length_map]
    omega
  exact Nat.le_of_succ_le (add_two_le_pow hrest hk)

/-- The moves below one open body, and the one that leaves it. -/
theorem effort_body_le {b : Body T N} {done rest : List (Position × Symbol T N)} {k : Nat}
    (hb : b ∈ rules.values) (he : b.entries = done ++ rest)
    (hk : (productionsOf rules).Effort (rest.map Prod.snd) k) :
    k + 1 ≤ (longest rules + 2) ^ (rules.size + 1) := by
  refine succ_le_room hb he (hk.le_mul (Nat.one_le_pow _ _ (by omega)) fun id _ j hj => ?_)
  exact Nat.le_trans (effort_le (fun _ _ h => length_le_longest_of_production h) (.nil id) hj)
    (pow_rulesOff_le [])

omit [DecidableEq N] in
/-- There is room for every open body, and for one more. -/
theorem lt_patience_of_le {stack : List (Cursor T N)} {n : Nat}
    (h : n ≤ stack.length * (longest rules + 2) ^ (rules.size + 1)) :
    n < patience ⟨rules, stack⟩ := by
  have hone := Nat.one_le_pow (rules.size + 1) (longest rules + 2) (by omega)
  show n < (stack.length + 1) * (longest rules + 2) ^ (rules.size + 1)
  rw [Nat.succ_mul]
  omega

/-- **The patience of a walk is more than the moves that are left.** -/
theorem patient {stack : List (Cursor T N)} {ss : List (Symbol T N)} {k : Nat}
    (h : Ahead rules stack ss) (hk : (productionsOf rules).Effort ss k) :
    k + stack.length < patience ⟨rules, stack⟩ := by
  apply lt_patience_of_le
  induction h generalizing k with
  | nil =>
    cases hk
    exact Nat.zero_le _
  | cons done hbody hentries _ _ ih =>
    obtain ⟨j, i, rfl, hj, hi⟩ := hk.of_append
    have hfirst := effort_body_le hbody hentries hj
    have hrest := ih hi
    rw [List.length_cons, Nat.succ_mul]
    omega

/-! ## Calls -/

/-- What a call does where the symbols ahead unfold to `us`: it answers with the first of them, a
name without a rule being no letter, and the others are what it leaves ahead. -/
structure Reads (rules : OrderedMap N (Body T N)) (w : Walk T N) (us : List (Symbol T N))
    (result : Option T × Walk T N) : Prop where
  answer : result.1 = us.head?.bind Symbol.terminal?
  answers : Answers w result.1 result.2
  rules_eq : result.2.rules = rules
  ahead : ∃ ss, Ahead rules result.2.stack ss ∧ (productionsOf rules).Unfolds ss us.tail

/-- **A call reads one symbol of the unfolding**, if it may move often enough. -/
theorem nextWithin_reads {stack : List (Cursor T N)} {ss us : List (Symbol T N)} {k moves : Nat}
    (h : Ahead rules stack ss) (hu : (productionsOf rules).Unfolds ss us)
    (hk : (productionsOf rules).Effort ss k) (hm : k + stack.length < moves) :
    Reads rules ⟨rules, stack⟩ us (nextWithin moves ⟨rules, stack⟩) := by
  induction moves generalizing stack ss k with
  | zero => omega
  | succ moves ih =>
    obtain ⟨sight, stack', ss', hmove, hmoves, h'⟩ := move_moves h
    rw [nextWithin, hmove]
    cases hmoves with
    | finished =>
      cases hu
      exact ⟨rfl, .finished hmove, rfl, [], .nil, .nil⟩
    | leave =>
      have hrest := ih h' hu hk (by rw [List.length_cons] at hm; omega)
      exact ⟨hrest.answer, .silent hmove hrest.answers, hrest.rules_eq, hrest.ahead⟩
    | letter =>
      cases hu with
      | terminal hu => exact ⟨rfl, .letter hmove, rfl, _, h', hu⟩
    | gap hnone =>
      rw [← productionsOf_eq_none_iff] at hnone
      cases hu with
      | keep _ hu => exact ⟨rfl, .gap hmove, rfl, _, h', hu⟩
      | replace hb _ _ => rw [hnone] at hb; cases hb
    | enter hsome =>
      have hP := productionsOf_of_get? hsome
      cases hu with
      | keep hn _ => rw [hP] at hn; cases hn
      | replace hb hv hu =>
        rw [hP] at hb
        cases hb
        cases hk with
        | keep hn _ => rw [hP] at hn; cases hn
        | replace hb hj hk =>
          rw [hP] at hb
          cases hb
          have hrest := ih h' (hv.append hu) (hj.append hk) (by
            rw [List.length_cons] at hm ⊢
            rw [List.length_cons]
            omega)
          exact ⟨hrest.answer, .silent hmove hrest.answers, hrest.rules_eq, hrest.ahead⟩

/-- A call of `next` is patient enough. -/
theorem next_reads {w : Walk T N} {ss us : List (Symbol T N)} (h : Ahead w.rules w.stack ss)
    (hu : (productionsOf w.rules).Unfolds ss us) : Reads w.rules w us w.next := by
  obtain ⟨k, hk⟩ := hu.effort
  exact nextWithin_reads h hu hk (patient h hk)

/-- **All calls together read the unfolding**, and then they find nothing for ever: the answer of
each call is the symbol at its place, a name without a rule or a place behind the end being no
letter. -/
theorem calls_eq {w : Walk T N} {ss us : List (Symbol T N)} (h : Ahead w.rules w.stack ss)
    (hu : (productionsOf w.rules).Unfolds ss us) (n : Nat) :
    w.calls n = (List.range n).map (fun i => us[i]?.bind Symbol.terminal?) ∧
      w.Gives (w.calls n) := by
  induction n generalizing w ss us with
  | zero => exact ⟨rfl, .nil⟩
  | succ n ih =>
    have hnext := next_reads h hu
    obtain ⟨ss', h', hu'⟩ := hnext.ahead
    rw [← hnext.rules_eq] at h' hu'
    obtain ⟨hcalls, hgives⟩ := ih h' hu'
    refine ⟨?_, .cons hnext.answers hgives⟩
    show w.next.1 :: w.next.2.calls n = _
    rw [hcalls, hnext.answer, List.range_succ_eq_map, List.map_cons, List.map_map,
      List.head?_eq_getElem?]
    refine congrArg _ (List.map_congr_left fun i _ => ?_)
    rw [List.getElem?_tail]
    rfl

end Walk

/-- The answers of a fresh walk, where the start symbol can be unfolded. -/
theorem Grammar.calls_walk {g : Grammar T N} {us : List (Symbol T N)}
    (hu : g.productions.Unfolds [.nonterminal g.start] us) (n : Nat) :
    g.walk.calls n = (List.range n).map (fun i => us[i]?.bind Symbol.terminal?) ∧
      g.walk.Gives (g.walk.calls n) := by
  have hahead := Walk.ahead_ofGrammar g
  rw [← Walk.rules_ofGrammar g] at hahead
  cases hP : g.productions g.start with
  | some b =>
    have hbody := hu.of_reference hP
    rw [hP, Option.getD_some] at hahead
    rw [Grammar.productions, ← Walk.rules_ofGrammar g] at hbody
    exact Walk.calls_eq hahead hbody n
  | none =>
    -- nothing is ahead, and the reference that is left is no letter
    obtain rfl := hu.unique (.keep hP .nil)
    rw [hP, Option.getD_none] at hahead
    obtain ⟨hcalls, hgives⟩ := Walk.calls_eq hahead .nil n
    refine ⟨?_, hgives⟩
    show (Walk.ofGrammar g).calls n = _
    rw [hcalls]
    apply List.map_congr_left
    intro i _
    cases i <;> rfl

end

end StraightLine
