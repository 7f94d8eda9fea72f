import StraightLine.Grammar.Reduction
import StraightLine.Proofs.Unfolds

/-!
# What inlining a rule does

`Grammar.inlineRule` takes a rule away and puts its body where the rule was referred to. On lists
this is `spliced`, and on all rules at once `Productions.inlined`.

* `Productions.Unfolds.spliced` — splicing is one stage of unfolding.
* `Productions.refers_inlined`, `Productions.acyclic_inlined` and
  `Productions.reaches_inlined_iff` — a new reference shortens a path through the name that goes
  away, so the names that stay reach the same names as before and no loop is closed.
* `Grammar.inlineRule_of_get?` — a rule that is not the start symbol's and does not refer to
  itself can be inlined; `Grammar.Inlined` — the rules that are there afterwards.
* `Grammar.productions_substitute`, `Grammar.productions_dropRule` — the two halves of an inlining,
  one by one.
-/

namespace StraightLine

open Relation (ReflTransGen TransGen)

variable {T N : Type} [DecidableEq N]

/-! ## One body -/

/-- The symbols `ss` with `xs` in the place of every reference to `id`. -/
def spliced (id : N) (xs ss : List (Symbol T N)) : List (Symbol T N) :=
  ss.flatMap fun s => if s.refersTo id then xs else [s]

@[simp] theorem spliced_nil (id : N) (xs : List (Symbol T N)) : spliced id xs [] = [] := rfl

@[simp] theorem spliced_terminal (id : N) (xs ss : List (Symbol T N)) (t : T) :
    spliced id xs (.terminal t :: ss) = .terminal t :: spliced id xs ss := rfl

@[simp] theorem spliced_self (id : N) (xs ss : List (Symbol T N)) :
    spliced id xs (.nonterminal id :: ss) = xs ++ spliced id xs ss := by
  simp [spliced]

theorem spliced_of_ne {id y : N} (h : y ≠ id) (xs ss : List (Symbol T N)) :
    spliced id xs (.nonterminal y :: ss) = .nonterminal y :: spliced id xs ss := by
  simp [spliced, h]

/-- A reference after a splice was there before, or comes with what is put in. -/
theorem mem_spliced {id y : N} {xs ss : List (Symbol T N)} :
    .nonterminal y ∈ spliced id xs ss ↔
      (y ≠ id ∧ .nonterminal y ∈ ss) ∨ (.nonterminal id ∈ ss ∧ .nonterminal y ∈ xs) := by
  rw [spliced, List.mem_flatMap]
  constructor
  · rintro ⟨s, hs, hy⟩
    split at hy
    · next hid => exact .inr ⟨Symbol.refersTo_iff.mp hid ▸ hs, hy⟩
    · next hid =>
      obtain rfl := List.mem_singleton.mp hy
      exact .inl ⟨fun he => hid (Symbol.refersTo_iff.mpr (he ▸ rfl)), hs⟩
  · rintro (⟨hne, hy⟩ | ⟨hid, hy⟩)
    · exact ⟨_, hy, by simp [hne]⟩
    · exact ⟨_, hid, by simpa using hy⟩

/-- Without a reference to the name a splice changes nothing. -/
theorem spliced_of_not_mem {id : N} {xs ss : List (Symbol T N)} (h : .nonterminal id ∉ ss) :
    spliced id xs ss = ss := by
  induction ss with
  | nil => rfl
  | cons s ss ih =>
    have ih' := ih fun hid => h (List.mem_cons_of_mem _ hid)
    cases s with
    | terminal t => rw [spliced_terminal, ih']
    | nonterminal y =>
      have hy : y ≠ id := fun he => h (he ▸ List.mem_cons_self)
      rw [spliced_of_ne hy, ih']

theorem spliced_ne_nil {id : N} {xs ss : List (Symbol T N)} (hxs : xs ≠ []) (hss : ss ≠ []) :
    spliced id xs ss ≠ [] := by
  obtain ⟨s, ss, rfl⟩ := List.exists_cons_of_ne_nil hss
  cases s with
  | terminal t => simp
  | nonterminal y =>
    by_cases hy : y = id
    · subst hy
      simp [hxs]
    · simp [spliced_of_ne hy]

/-- Splicing in what a name unfolds to unfolds the symbols, if no other name has a body. -/
theorem Productions.Unfolds.spliced {Q : Productions T N} {id : N} {xs ss : List (Symbol T N)}
    (hid : Q.Unfolds [.nonterminal id] xs)
    (hrest : ∀ y, .nonterminal y ∈ ss → y ≠ id → Q y = none) :
    Q.Unfolds ss (spliced id xs ss) := by
  induction ss with
  | nil => exact .nil
  | cons s ss ih =>
    have ih' := ih fun y hy => hrest y (List.mem_cons_of_mem _ hy)
    cases s with
    | terminal t => exact .terminal ih'
    | nonterminal y =>
      by_cases hy : y = id
      · subst hy
        rw [spliced_self]
        exact hid.append ih'
      · rw [spliced_of_ne hy]
        exact .keep (hrest y List.mem_cons_self hy) ih'

/-! ## All rules -/

namespace Productions

/-- The rules without the one for `id`, whose body `xs` is put in its place everywhere. -/
def inlined (P : Productions T N) (id : N) (xs : List (Symbol T N)) : Productions T N :=
  fun x => if x = id then none else (P x).map (spliced id xs)

variable {P : Productions T N} {id : N} {xs : List (Symbol T N)}

/-- The references afterwards: the old ones that do not concern `id`, and those that went through
`id`. -/
theorem refers_inlined (hid : P id = some xs) {x y : N} :
    (P.inlined id xs).Refers x y ↔
      x ≠ id ∧ ((y ≠ id ∧ P.Refers x y) ∨ (P.Refers x id ∧ P.Refers id y)) := by
  unfold Refers inlined
  by_cases hx : x = id
  · simp [hx]
  · cases hP : P x with
    | none => simp [hx]
    | some ss => simp [hx, hid, mem_spliced]

theorem transGen_of_refers_inlined (hid : P id = some xs) {x y : N}
    (h : (P.inlined id xs).Refers x y) : TransGen P.Refers x y := by
  rcases (refers_inlined hid).mp h with ⟨-, ⟨-, hxy⟩ | ⟨hx, hy⟩⟩
  · exact .single hxy
  · exact .tail (.single hx) hy

/-- Inlining closes no loop. -/
theorem acyclic_inlined (hac : P.Acyclic) (hid : P id = some xs) : (P.inlined id xs).Acyclic :=
  hac.of_refers fun _ _ => transGen_of_refers_inlined hid

/-- A path through `id` is shortened at the name that it comes from. -/
theorem reaches_inlined_of_reaches (hid : P id = some xs) (hself : ¬ P.Refers id id) {x y : N}
    (hy : y ≠ id) (h : P.Reaches x y) :
    (x ≠ id → (P.inlined id xs).Reaches x y) ∧
      (x = id → ∀ w, w ≠ id → P.Refers w id → (P.inlined id xs).Reaches w y) := by
  induction h using ReflTransGen.head_induction_on with
  | refl => exact ⟨fun _ => .refl y, fun he => absurd he hy⟩
  | @head x z hxz _ ih =>
    constructor
    · intro hx
      by_cases hz : z = id
      · exact ih.2 hz x hx (hz ▸ hxz)
      · exact .head ((refers_inlined hid).mpr ⟨hx, .inl ⟨hz, hxz⟩⟩) (ih.1 hz)
    · rintro rfl w hw hwx
      have hz : z ≠ x := fun he => hself (he ▸ hxz)
      exact .head ((refers_inlined hid).mpr ⟨hw, .inr ⟨hwx, hxz⟩⟩) (ih.1 hz)

/-- **The names that stay reach the same names as before.** -/
theorem reaches_inlined_iff (hid : P id = some xs) (hself : ¬ P.Refers id id) {x y : N}
    (hx : x ≠ id) (hy : y ≠ id) : (P.inlined id xs).Reaches x y ↔ P.Reaches x y := by
  constructor
  · intro h
    clear hy
    induction h with
    | refl => exact .refl x
    | tail _ hzy ih => exact ih.trans (transGen_of_refers_inlined hid hzy).to_reflTransGen
  · intro h
    exact (reaches_inlined_of_reaches hid hself hy h).1 hx

end Productions

/-! ## The rules of a grammar -/

namespace Grammar

variable {g : Grammar T N} {id : N} {b : Body T N}

/-- A rule can be inlined if it is not the start symbol's and does not refer to itself. -/
theorem inlineRule_of_get? (hb : g.rules.get? id = some b) (hs : id ≠ g.start)
    (hself : ¬ g.productions.Refers id id) :
    g.inlineRule id =
      ⟨.ok ((g.dropRule id).substitute id b.toList).1, ((g.dropRule id).substitute id b.toList).2,
        [.inlined id ((g.dropRule id).substitute id b.toList).1]⟩ := by
  have hr : ¬ Body.refersTo b id = true := by
    intro h
    exact hself (refers_of_mem_references hb (Body.refersTo_iff.mp h))
  unfold inlineRule
  split
  · next hn => rw [hb] at hn; cases hn
  · next b' hb' =>
    rw [hb] at hb'
    cases hb'
    rw [if_neg hs, if_neg hr]

/-- All that is known when an inlining is accepted. -/
theorem inlineRule_eq_ok {sites : Nat} (h : (g.inlineRule id).answer = .ok sites) :
    (∃ b, g.rules.get? id = some b) ∧ id ≠ g.start ∧ ¬ g.productions.Refers id id := by
  unfold inlineRule at h
  split at h
  · cases h
  · next b hb =>
    split at h
    · cases h
    · next hs =>
      split at h
      · cases h
      · next hr =>
        refine ⟨⟨b, hb⟩, hs, fun hself => hr ?_⟩
        obtain ⟨b', hb', hid⟩ := refers_productionsOf_iff.mp hself
        rw [hb] at hb'
        cases hb'
        exact Body.refersTo_iff.mpr hid

/-- What the rules are after an inlining. -/
structure Inlined (g : Grammar T N) (id : N) (b : Body T N) (g' : Grammar T N) : Prop where
  start : g'.start = g.start
  keys : g'.rules.keys = g.rules.keys.filter fun x => x ≠ id
  entries : g'.rules.entries = (g.rules.entries.filter fun r => r.1 ≠ id).map
    fun r => (r.1, (Body.substitute r.2 id b.toList).2)
  productions : g'.productions = g.productions.inlined id b.toList

theorem entries_substitute (g : Grammar T N) (id : N) (xs : List (Symbol T N)) :
    (g.substitute id xs).2.rules.entries =
      g.rules.entries.map fun r => (r.1, (Body.substitute r.2 id xs).2) := by
  show List.map _ (List.map _ g.rules.entries) = _
  rw [List.map_map]
  rfl

theorem keys_substitute (g : Grammar T N) (id : N) (xs : List (Symbol T N)) :
    (g.substitute id xs).2.rules.keys = g.rules.keys := by
  show ((g.rules.map _).map _).keys = _
  rw [OrderedMap.keys_map, OrderedMap.keys_map]

/-- Every body is spliced, that of the name itself included. -/
theorem productions_substitute (g : Grammar T N) (id : N) (xs : List (Symbol T N)) (x : N) :
    (g.substitute id xs).2.productions x = (g.productions x).map (spliced id xs) := by
  show (((g.rules.map _).map _).get? x).map Sequence.toList = _
  rw [OrderedMap.get?_map, OrderedMap.get?_map, Grammar.productions, productionsOf]
  cases g.rules.get? x with
  | none => rfl
  | some c => exact congrArg some (Body.toList_substitute c id xs)

theorem productions_dropRule (g : Grammar T N) (id x : N) :
    (g.dropRule id).productions x = if x = id then none else g.productions x := by
  show ((g.rules.erase id).get? x).map Sequence.toList = _
  rw [OrderedMap.get?_erase]
  split <;> rfl

theorem keys_substitute_dropRule (g : Grammar T N) (id : N) (xs : List (Symbol T N)) :
    ((g.dropRule id).substitute id xs).2.rules.keys = g.rules.keys.filter fun x => x ≠ id := by
  rw [keys_substitute]
  exact g.rules.keys_erase id

/-- Symbols are put in the place of a rule that is dropped. -/
theorem productions_substitute_dropRule (g : Grammar T N) (id : N) (xs : List (Symbol T N)) :
    ((g.dropRule id).substitute id xs).2.productions = g.productions.inlined id xs := by
  funext x
  rw [productions_substitute, productions_dropRule, Productions.inlined]
  split <;> rfl

theorem inlined_inlineRule (hb : g.rules.get? id = some b) (hs : id ≠ g.start)
    (hself : ¬ g.productions.Refers id id) : g.Inlined id b (g.inlineRule id).grammar := by
  rw [inlineRule_of_get? hb hs hself]
  exact ⟨rfl, keys_substitute_dropRule g id _, entries_substitute (g.dropRule id) id _,
    productions_substitute_dropRule g id _⟩

end Grammar

end StraightLine
