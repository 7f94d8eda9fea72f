import Mathlib.Tactic.Choose
import StraightLine.Proofs.History
import StraightLine.Proofs.LazyWalk

/-!
# All the answers of a lazy walk

Where the start symbol reaches no loop, the answers of a walk can be told from the rules: a letter
answers with itself, a name without a rule with one `none`, and any other name with what its body
answers from left to right.

* `Productions.Lists` — these equations, for a name and all that it reaches. They have a solution
  where no loop is within reach (`exists_lists`), and at a name that can be unfolded it is the
  unfolding (`Productions.Lists.eq_map`), so there is no other.
* `Walk.take_eq` — to collect letters is to cut the answers off at the first `none`, and
  `Grammar.toList_walk` — a walk is patient enough to collect them all.
* `Grammar.walk_answers` — **a lazy walk and an expansion read the same unfolding**, and the walk
  goes on behind a fault.
-/

namespace StraightLine

variable {T N : Type}

/-- The answers that a symbol stands for, where `D` has those of the names. -/
def Symbol.answers (D : N → List (Option T)) : Symbol T N → List (Option T)
  | terminal t => [some t]
  | nonterminal id => D id

namespace Productions

/-! ## The equations -/

/-- `D` has the answers of `x` and of every name that `x` reaches: a name without a rule has the
single answer `none`, any other one the answers of the symbols of its body, from left to right. -/
def Lists (P : Productions T N) (D : N → List (Option T)) (x : N) : Prop :=
  ∀ y, P.Reaches x y → D y =
    match P y with
    | none => [none]
    | some ss => ss.flatMap (Symbol.answers D)

variable {P : Productions T N} {D : N → List (Option T)} {x y : N}

theorem Lists.of_reaches (hD : P.Lists D x) (hxy : P.Reaches x y) : P.Lists D y :=
  fun z hyz => hD z (hxy.trans hyz)

theorem Lists.eq_of_none (hD : P.Lists D x) (hx : P x = none) : D x = [none] := by
  rw [hD x (.refl x), hx]

theorem Lists.eq_of_some (hD : P.Lists D x) {b : List (Symbol T N)} (hx : P x = some b) :
    D x = b.flatMap (Symbol.answers D) := by
  rw [hD x (.refl x), hx]

/-- Symbols answer as their unfolding does if each reference among them does. -/
theorem Unfolds.flatMap_answers {ss us : List (Symbol T N)} (h : P.Unfolds ss us)
    (hD : ∀ id, .nonterminal id ∈ ss → ∀ v, P.Unfolds [.nonterminal id] v →
      D id = v.map Symbol.terminal?) :
    ss.flatMap (Symbol.answers D) = us.map Symbol.terminal? := by
  induction h with
  | nil => rfl
  | terminal _ ih =>
    have hrest := ih fun id hid => hD id (List.mem_cons_of_mem _ hid)
    rw [List.flatMap_cons, hrest]
    rfl
  | @keep id _ _ hn _ ih =>
    have hrest := ih fun id hid => hD id (List.mem_cons_of_mem _ hid)
    have hfirst : D id = [none] := hD id List.mem_cons_self _ (.keep hn .nil)
    rw [List.flatMap_cons, hrest, Symbol.answers, hfirst]
    rfl
  | @replace id _ _ _ _ hb hv _ _ ih =>
    have hrest := ih fun id hid => hD id (List.mem_cons_of_mem _ hid)
    rw [List.flatMap_cons, hrest, Symbol.answers, hD id List.mem_cons_self _ (.reference hb hv),
      List.map_append]

/-- **The solution of the equations is read off the unfolding.** -/
theorem Lists.eq_map (hD : P.Lists D x) {us : List (Symbol T N)}
    (h : P.Unfolds [.nonterminal x] us) : D x = us.map Symbol.terminal? := by
  -- the induction is along references: where a name unfolds, every chain of them ends
  have hacc : Acc (fun y x => P.Refers x y) x := h.acc List.mem_cons_self
  induction hacc generalizing us with
  | intro x _ ih =>
    cases hx : P x with
    | none =>
      rw [hD.eq_of_none hx, h.unique (.keep hx .nil)]
      rfl
    | some b =>
      rw [hD.eq_of_some hx]
      refine (h.of_reference hx).flatMap_answers fun y hy v hv => ?_
      have hxy : P.Refers x y := ⟨b, hx, hy⟩
      exact ih y hxy (hD.of_reaches (.single hxy)) hv

end Productions

/-- **Where no loop is within reach the equations have a solution.** -/
theorem exists_lists [DecidableEq N] {rules : OrderedMap N (Body T N)} {x : N}
    (hx : (productionsOf rules).Clear x) : ∃ D, (productionsOf rules).Lists D x := by
  have hread : ∀ y, ∃ answers : List (Option T), ∀ us,
      (productionsOf rules).Unfolds [.nonterminal y] us → answers = us.map Symbol.terminal? := by
    intro y
    by_cases h : ∃ us, (productionsOf rules).Unfolds [.nonterminal y] us
    · obtain ⟨us, hus⟩ := h
      exact ⟨us.map Symbol.terminal?, fun us' hus' => by rw [hus.unique hus']⟩
    · exact ⟨[], fun us hus => absurd ⟨us, hus⟩ h⟩
  choose D hD using hread
  refine ⟨D, fun y hxy => ?_⟩
  cases hy : productionsOf rules y with
  | none => exact hD y _ (.keep hy .nil)
  | some b =>
    obtain ⟨us, hus⟩ := exists_unfolds_of_clear (hx.of_reaches hxy)
    rw [hD y us hus]
    exact ((hus.of_reference hy).flatMap_answers fun id _ => hD id).symm

/-! ## Collecting letters -/

/-- What is read at the first `n` places, if there is nothing behind the end. -/
theorem map_range_eq_take {α β : Type} (us : List α) (f : α → Option β) (n : Nat) :
    (List.range n).map (fun i => us[i]?.bind f) =
      (us.map f ++ List.replicate n none).take n := by
  refine List.ext_getElem ?_ fun i _ _ => ?_
  · rw [List.length_map, List.length_range, List.length_take, List.length_append,
      List.length_replicate]
    omega
  · rw [List.getElem_map, List.getElem_range, List.getElem_take, List.getElem_append]
    split
    · next hi =>
      rw [List.length_map] at hi
      rw [List.getElem?_eq_getElem hi, List.getElem_map]
      rfl
    · next hi =>
      rw [List.length_map] at hi
      rw [List.getElem?_eq_none (Nat.le_of_not_lt hi), List.getElem_replicate]
      rfl

theorem takeWhile_append_replicate_none {α : Type} (answers : List (Option α)) (n : Nat) :
    (answers ++ List.replicate n none).takeWhile Option.isSome =
      answers.takeWhile Option.isSome := by
  induction answers with
  | nil => cases n <;> rfl
  | cons answer answers ih =>
    cases answer with
    | none => rfl
    | some t => simpa [List.takeWhile_cons] using ih

theorem takeWhile_letters {α : Type} (w : List α) (rest : List (Option α)) :
    (w.map some ++ rest).takeWhile Option.isSome =
      w.map some ++ rest.takeWhile Option.isSome := by
  refine List.takeWhile_append_of_pos fun answer hanswer => ?_
  obtain ⟨t, -, rfl⟩ := List.mem_map.mp hanswer
  rfl

section

variable [DecidableEq N]

/-- **To collect letters is to cut the answers off at the first `none`.** -/
theorem Walk.take_eq (w : Walk T N) (n : Nat) :
    (w.take n).map some = (w.calls n).takeWhile Option.isSome := by
  induction n generalizing w with
  | zero => rfl
  | succ n ih =>
    rw [take, calls]
    rcases w.next with ⟨_ | t, w'⟩
    · rfl
    · show some t :: (w'.take n).map some = some t :: (w'.calls n).takeWhile Option.isSome
      rw [ih]

namespace Grammar

variable {g : Grammar T N} {us : List (Symbol T N)}

/-- The patience of a fresh walk is enough for the whole unfolding. -/
theorem length_le_patience (hu : g.productions.Unfolds [.nonterminal g.start] us) :
    us.length ≤ g.walk.patience := by
  have hahead := Walk.ahead_ofGrammar g
  cases hstart : g.productions g.start with
  | none =>
    rw [hstart, Option.getD_none] at hahead
    have hpatient := Walk.patient hahead .nil
    rw [hu.unique (.keep hstart .nil), List.length_singleton]
    rw [← Walk.rules_ofGrammar g] at hpatient
    exact Nat.one_le_of_lt hpatient
  | some b =>
    rw [hstart, Option.getD_some] at hahead
    have hbody := hu.of_reference hstart
    obtain ⟨k, hk⟩ := hbody.effort
    have hpatient := Walk.patient hahead hk
    rw [← Walk.rules_ofGrammar g] at hpatient
    calc us.length ≤ k := hk.length_le hbody
      _ ≤ k + (Walk.ofGrammar g).stack.length := Nat.le_add_right ..
      _ ≤ g.walk.patience := Nat.le_of_lt hpatient

/-- The answers of a fresh walk, padded with `none`. -/
theorem calls_walk_eq_take (hu : g.productions.Unfolds [.nonterminal g.start] us) (n : Nat) :
    g.walk.calls n = (us.map Symbol.terminal? ++ List.replicate n none).take n := by
  rw [(calls_walk hu n).1, map_range_eq_take]

/-- The letters that are collected: all of them up to the first name without a rule. -/
theorem toList_walk {w : List T} {rest : List (Symbol T N)}
    (hu : g.productions.Unfolds [.nonterminal g.start] (w.map .terminal ++ rest))
    (hrest : (rest.map Symbol.terminal?).takeWhile Option.isSome = []) : g.walk.toList = w := by
  have hlength := length_le_patience hu
  have hanswers : (w.map Symbol.terminal ++ rest).map Symbol.terminal? =
      w.map some ++ rest.map Symbol.terminal? := by
    rw [List.map_append, List.map_map]
    rfl
  rw [← List.length_map Symbol.terminal?, hanswers] at hlength
  have hcollected : g.walk.toList.map some = w.map some := by
    rw [Walk.toList, Walk.take_eq, calls_walk_eq_take hu, hanswers, List.take_append,
      List.take_of_length_le hlength, List.take_replicate, takeWhile_append_replicate_none,
      takeWhile_letters, hrest, List.append_nil]
  exact (List.map_inj_right fun _ _ ht => Option.some.inj ht).mp hcollected

/-! ## The walk and the expansion -/

/-- **A lazy walk reads the unfolding to its end, also past faults.** On every grammar with a
history whose start symbol reaches no loop, `D` is the solution of the equations for the answers;
names without a rule, empty bodies and a start symbol without a rule are allowed. Every call on a
fresh walk ends, and the calls, one after the other, answer with `D` of the start symbol and then
with `none` for ever. So the letters up to the first `none` are the word of an expansion, and if
the expansion fails they are those to the left of the first name without a rule. -/
theorem walk_answers (start : N) (calls : List (Operation T N))
    (hclear : (run start calls).productions.Clear (run start calls).start) :
    let g : Grammar T N := run start calls
    (∃ D, g.productions.Lists D g.start) ∧
    ∀ D, g.productions.Lists D g.start →
      (∀ n, g.walk.calls n = (D g.start ++ List.replicate n none).take n ∧
        g.walk.Gives (g.walk.calls n)) ∧
      (∀ w, g.expandStart.answer = .ok w → D g.start = w.map some ∧ g.walk.toList = w) ∧
      (∀ e, g.expandStart.answer = .error e →
        ∃ w rest, D g.start = w.map some ++ none :: rest ∧ g.walk.toList = w) := by
  intro g
  refine ⟨exists_lists hclear, fun D hD => ?_⟩
  obtain ⟨us, hus⟩ := exists_unfolds_of_clear hclear
  have hlist : D g.start = us.map Symbol.terminal? := hD.eq_map hus
  have hword : g.expandStart.answer = readWord us := expand_of_unfolds (settled_run start calls) hus
  refine ⟨fun n => ⟨?_, (calls_walk hus n).2⟩, ?_⟩
  · rw [hlist]
    exact calls_walk_eq_take hus n
  · rcases letters_or_gap us with ⟨w, rfl⟩ | ⟨w, m, rest, rfl⟩
    · have htoList : g.walk.toList = w := by
        rw [← List.append_nil (w.map Symbol.terminal)] at hus
        exact toList_walk hus rfl
      rw [hword, readWord_terminals, hlist, List.map_map]
      refine ⟨fun w' hw => ?_, nofun⟩
      cases hw
      exact ⟨rfl, htoList⟩
    · have htoList : g.walk.toList = w := toList_walk hus rfl
      rw [hword, readWord_gap, hlist, List.map_append, List.map_map]
      exact ⟨nofun, fun e _ => ⟨w, rest.map Symbol.terminal?, rfl, htoList⟩⟩

/-- The word has a gap in the middle, where the name `3` has no rule, an empty body before it, and a
rule that refers to itself beside it. -/
def gapBesideLoop : List (Operation Char Nat) :=
  [.addRule 0 (.ofList [.nonterminal 1, .terminal 'b', .nonterminal 2, .nonterminal 3,
      .nonterminal 1]),
    .addRule 1 (.ofList [.terminal 'a']),
    .addRule 2 (.ofList []),
    .addRule 4 (.ofList [.nonterminal 4])]

/-- The walk goes on behind the gap, and the loop that is not reached does not matter. -/
theorem walk_answers_gapBesideLoop :
    let g := run 0 gapBesideLoop
    g.productions.Clear g.start ∧ g.productions.Loops 4 ∧
      ∃ D, g.productions.Lists D 0 ∧
        (D 0 ++ List.replicate 6 none).take 6 =
          [some 'a', some 'b', none, some 'a', none, none] := by
  intro g
  have h0 : g.productions 0 = some [.nonterminal 1, .terminal 'b', .nonterminal 2, .nonterminal 3,
      .nonterminal 1] := by decide +kernel
  have h1 : g.productions 1 = some [.terminal 'a'] := by decide +kernel
  have h2 : g.productions 2 = some [] := by decide +kernel
  have h3 : g.productions 3 = none := by decide +kernel
  have h4 : g.productions 4 = some [.nonterminal 4] := by decide +kernel
  have hunfolds : g.productions.Unfolds [.nonterminal 0] _ :=
    .reference h0 (.replace h1 (.terminal .nil) (.terminal (.replace h2 .nil (.keep h3
      (.replace h1 (.terminal .nil) .nil)))))
  have hclear : g.productions.Clear g.start := fun y hy => hunfolds.not_loops List.mem_cons_self hy
  obtain ⟨⟨D, hD⟩, hall⟩ := walk_answers 0 gapBesideLoop hclear
  refine ⟨hclear, .single ⟨_, h4, List.mem_cons_self⟩, D, hD, ?_⟩
  have hcalls := ((hall D hD).1 6).1
  rw [show g.start = 0 from rfl] at hcalls
  rw [← hcalls]
  decide +kernel

end Grammar

end

end StraightLine
