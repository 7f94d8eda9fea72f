import StraightLine.Grammar.Expansion
import StraightLine.Grammar.Validity
import StraightLine.Proofs.Evaluation

/-!
# A memo makes no difference to a walk

`Grammar.visit` remembers the value of every finished rule, `Grammar.evaluate` remembers nothing.
This file proves that they agree for every valuation that measures words, errors included.

* `visit_of_finished`, `visit_undefined`, `visit_onPath`, `visit_enter` — the four things a visit
  can do, and `visit_induction` — the induction with these four cases.
* `Valuation.Measures` — the state of a walk represents the word of the symbols read so far;
  `wordOf_measures` and `lengthOf_measures` are the two instances.
* `Coherent` — the invariant of the finished rules: each has the measure of the word it derives,
  and whatever it refers to is finished too.
* `Visited` — what one visit does: it answers as the evaluation does, keeps the invariant, loses
  no finished rule, and finishes its own on success. `walk_visited` carries this over one body,
  `visit_visited` over the whole recursion.

The point of the proof is the memo hit. A finished name derives a word, so it is in no loop, and a
path that leads to it cannot be met below it: evaluation finds neither a fault nor a cycle there.
-/

namespace StraightLine

variable {T N σ β : Type}

/-! ## Valuations of words -/

/-- `v` computes `measure` of the word of a rule. `Holds s w rest` says that the state `s` stands
for the word `w` of what was read, with the entries `rest` still ahead. -/
structure Valuation.Measures (v : Valuation T N σ β) (measure : List T → β)
    (Holds : σ → List T → List (Position × Symbol T N) → Prop) : Prop where
  enter : ∀ b : Body T N, Holds (v.enter b) [] b.entries
  letter : ∀ s w p t rest, Holds s w ((p, .terminal t) :: rest) →
    Holds (v.letter s p t) (w ++ [t]) rest
  reference : ∀ s w p id u rest, Holds s w ((p, .nonterminal id) :: rest) →
    Holds (v.reference s p (measure u)) (w ++ u) rest
  leave : ∀ s w, Holds s w [] → v.leave s = measure w
  missing : ∀ id, v.missing id = .error (.undefinedNonterminal id)

/-- The working copy: before the entries that are still ahead it has the letters of `w` and nothing
else. -/
def Spelt (b : Body T N) (w : List T) (rest : List (Position × Symbol T N)) : Prop :=
  ∃ done, b.entries = done ++ rest ∧ done.map Prod.snd = w.map .terminal

theorem Spelt.toList_eq {b : Body T N} {w : List T} (h : Spelt b w []) :
    b.toList = w.map .terminal := by
  obtain ⟨done, hb, hw⟩ := h
  rw [Sequence.toList, hb, List.append_nil, hw]

/-- Splicing the words of the references into a copy of the body computes the word. -/
theorem wordOf_measures [DecidableEq N] :
    (wordOf (T := T) (N := N)).Measures (fun w => w) Spelt where
  enter b := ⟨[], rfl, rfl⟩
  letter := by
    rintro b w p t rest ⟨done, hb, hw⟩
    refine ⟨done ++ [(p, .terminal t)], ?_, by simp [hw]⟩
    show b.entries = _
    rw [hb, List.append_assoc, List.singleton_append]
  reference := by
    rintro b w p id u rest ⟨done, hb, hw⟩
    obtain ⟨-, fs, hfs, -, he⟩ := b.entries_replaceAt hb (u.map .terminal)
    exact ⟨done ++ fs, he, by simp [hw, hfs]⟩
  leave := by
    intro b w h
    show b.toList.filterMap Symbol.terminal? = w
    rw [h.toList_eq, List.filterMap_map]
    exact List.filterMap_some
  missing _ := rfl

/-- Adding up the lengths computes the length of the word. -/
theorem lengthOf_measures [DecidableEq N] :
    (lengthOf (T := T) (N := N)).Measures List.length fun n w _ => n = w.length where
  enter _ := rfl
  letter := by
    rintro _ w p t rest rfl
    simp [lengthOf]
  reference := by
    rintro _ w p id u rest rfl
    simp [lengthOf]
  leave _ _ h := h
  missing _ := rfl

/-- Whatever the references are followed by, the state represents a word all along. -/
theorem Valuation.Measures.walk_holds {v : Valuation T N σ β} {measure : List T → β}
    {Holds : σ → List T → List (Position × Symbol T N) → Prop} (hv : v.Measures measure Holds)
    {follow : Trail N β → N → Except (GrammarError N) β × Trail N β}
    (hfollow : ∀ t id value, (follow t id).1 = .ok value → ∃ u, value = measure u)
    {rest : List (Position × Symbol T N)} {s s' : σ} {w : List T} {t : Trail N β}
    (hs : Holds s w rest) (h : (v.walk follow s t rest).1 = .ok s') : ∃ w', Holds s' w' [] := by
  induction rest generalizing s w t with
  | nil =>
    cases h
    exact ⟨w, hs⟩
  | cons entry rest ih =>
    obtain ⟨p, x⟩ := entry
    cases x with
    | terminal a => exact ih (hv.letter s w p a rest hs) h
    | nonterminal id =>
      rw [Valuation.walk] at h
      cases hf : follow t id with
      | mk answer t' =>
        rw [hf] at h
        cases answer with
        | error e => cases h
        | ok value =>
          obtain ⟨u, rfl⟩ := hfollow t id value (by rw [hf])
          exact ih (hv.reference s w p id u rest hs) h

/-- **No symbol is lost.** When the letters are collected from a working copy, it holds nothing but
letters. -/
theorem toList_of_walk_wordOf [DecidableEq N]
    {follow : Trail N (List T) → N → Except (GrammarError N) (List T) × Trail N (List T)}
    {t : Trail N (List T)} {b b' : Body T N}
    (h : (wordOf.walk follow (wordOf.enter b) t b.entries).1 = .ok b') :
    b'.toList = (wordOf.leave b').map .terminal := by
  obtain ⟨w, hw⟩ := wordOf_measures.walk_holds (fun _ _ u _ => ⟨u, rfl⟩) (wordOf_measures.enter b) h
  rw [hw.toList_eq, wordOf_measures.leave b' w hw]

/-! ## What a visit does -/

section

variable [DecidableEq N] {rules : OrderedMap N (Body T N)} {v : Valuation T N σ β}
  {path : List N} {trail : Trail N β} {id : N}

open Grammar

theorem visit_of_finished {value : β} (h : trail.finished.get? id = some value) :
    visit rules v path trail id = (.ok value, trail.reach (path.length + 1)) := by
  rw [visit]
  simp only [Trail.reach, h]

theorem visit_undefined (hf : trail.finished.get? id = none) (h : rules.get? id = none) :
    visit rules v path trail id = (v.missing id, trail.reach (path.length + 1)) := by
  rw [visit]
  simp only [Trail.reach, hf]
  split
  · rfl
  · next b hb => rw [h] at hb; cases hb

theorem visit_onPath {b : Body T N} (hf : trail.finished.get? id = none)
    (h : rules.get? id = some b) (hp : id ∈ path) :
    visit rules v path trail id = (.error (.cycle id), trail.reach (path.length + 1)) := by
  rw [visit]
  simp only [Trail.reach, hf]
  split
  · next hn => rw [h] at hn; cases hn
  · rw [dif_pos hp]

/-- What a visit makes of the walk of its body: on success the rule is finished. -/
def Valuation.conclude (v : Valuation T N σ β) (id : N) :
    Except (GrammarError N) σ × Trail N β → Except (GrammarError N) β × Trail N β
  | (.error e, trail) => (.error e, trail)
  | (.ok state, trail) => (.ok (v.leave state), trail.finish id (v.leave state))

theorem visit_enter {b : Body T N} (hf : trail.finished.get? id = none)
    (h : rules.get? id = some b) (hp : id ∉ path) :
    visit rules v path trail id =
      v.conclude id (v.walk (visit rules v (id :: path)) (v.enter b)
        ((trail.reach (path.length + 1)).enter id) b.entries) := by
  rw [visit]
  simp only [Trail.reach, hf]
  split
  · next hn => rw [h] at hn; cases hn
  · next b' hb' =>
    rw [h] at hb'
    cases hb'
    rw [dif_neg hp]
    rfl

/-- Induction along a visit, with a case for each of the four things that it can do. Where a body is
entered, all visits with its rule on the path are covered. -/
theorem visit_induction (rules : OrderedMap N (Body T N)) (v : Valuation T N σ β)
    {motive : List N → Trail N β → N → Except (GrammarError N) β × Trail N β → Prop}
    (finished : ∀ path t id value, t.finished.get? id = some value →
      motive path t id (.ok value, t.reach (path.length + 1)))
    (undefined : ∀ path t id, t.finished.get? id = none → rules.get? id = none →
      motive path t id (v.missing id, t.reach (path.length + 1)))
    (onPath : ∀ path t id b, t.finished.get? id = none → rules.get? id = some b → id ∈ path →
      motive path t id (.error (.cycle id), t.reach (path.length + 1)))
    (enter : ∀ path t id b, t.finished.get? id = none → rules.get? id = some b → id ∉ path →
      (∀ t y, motive (id :: path) t y (visit rules v (id :: path) t y)) →
      motive path t id (v.conclude id (v.walk (visit rules v (id :: path)) (v.enter b)
        ((t.reach (path.length + 1)).enter id) b.entries)))
    (path : List N) (t : Trail N β) (id : N) : motive path t id (visit rules v path t id) := by
  induction path using path_induction rules generalizing t id with
  | step path ih =>
    cases hf : t.finished.get? id with
    | some value =>
      rw [visit_of_finished hf]
      exact finished path t id value hf
    | none =>
      cases hr : rules.get? id with
      | none =>
        rw [visit_undefined hf hr]
        exact undefined path t id hf hr
      | some b =>
        by_cases hp : id ∈ path
        · rw [visit_onPath hf hr hp]
          exact onPath path t id b hf hr hp
        · rw [visit_enter hf hr hp]
          exact enter path t id b hf hr hp (ih id (OrderedMap.mem_keys_of_get? hr) hp)

/-! ## The invariant of the finished rules -/

/-- Every finished rule has the measure of the word it derives, and what it refers to is finished
too. -/
structure Coherent (P : Productions T N) (measure : List T → β) (finished : OrderedMap N β) :
    Prop where
  sound : ∀ x value, finished.get? x = some value → ∃ w, P.Derives x w ∧ value = measure w
  closed : ∀ x y, x ∈ finished.keys → P.Refers x y → y ∈ finished.keys

variable {P : Productions T N} {measure : List T → β}

theorem Coherent.empty : Coherent P measure (.empty : OrderedMap N β) where
  sound x value h := by cases h
  closed x y h := by cases h

/-- A rule is finished after the rules it refers to. -/
theorem Coherent.insert {finished : OrderedMap N β} (h : Coherent P measure finished) {w : List T}
    (hw : P.Derives id w) (hrefs : ∀ y, P.Refers id y → y ∈ finished.keys) :
    Coherent P measure (finished.insert id (measure w)) where
  sound := OrderedMap.forall_insert h.sound ⟨w, hw, rfl⟩
  closed := by
    intro x y hx hxy
    rw [OrderedMap.mem_keys_insert] at hx ⊢
    rcases hx with rfl | hx
    · exact .inr (hrefs y hxy)
    · exact .inr (h.closed x y hx hxy)

/-- The finished rules `after` keep those of `before`, and the invariant. -/
structure Extended (P : Productions T N) (measure : List T → β) (before after : OrderedMap N β) :
    Prop where
  coherent : Coherent P measure after
  grows : ∀ x ∈ before.keys, x ∈ after.keys

theorem Extended.refl {m : OrderedMap N β} (h : Coherent P measure m) : Extended P measure m m :=
  ⟨h, fun _ hx => hx⟩

theorem Extended.trans {m m' m'' : OrderedMap N β} (h : Extended P measure m m')
    (h' : Extended P measure m' m'') : Extended P measure m m'' :=
  ⟨h'.coherent, fun x hx => h'.grows x (h.grows x hx)⟩

/-! ## One body -/

/-- What a visit of `id` does, where `expected` is the word that it should find. -/
structure Visited (P : Productions T N) (measure : List T → β)
    (expected : Except (GrammarError N) (List T)) (id : N) (before : OrderedMap N β)
    (result : Except (GrammarError N) β × Trail N β) : Prop where
  answer : result.1 = expected.map measure
  extended : Extended P measure before result.2.finished
  finishes : ∀ value, result.1 = .ok value → id ∈ result.2.finished.keys

/-- What the walk of the entries `rest` does, where `expected` is the word that it should find and
`w` is the word of what was read before. -/
structure Walked (P : Productions T N) (v : Valuation T N σ β) (measure : List T → β)
    (expected : Except (GrammarError N) (List T)) (w : List T)
    (rest : List (Position × Symbol T N)) (before : OrderedMap N β)
    (result : Except (GrammarError N) σ × Trail N β) : Prop where
  answer : result.1.map v.leave = expected.map fun u => measure (w ++ u)
  extended : Extended P measure before result.2.finished
  finishes : ∀ state, result.1 = .ok state →
    ∀ id, .nonterminal id ∈ rest.map Prod.snd → id ∈ result.2.finished.keys

/-- If every reference of a body is followed rightly, the body is walked rightly. -/
theorem walk_visited {Holds : σ → List T → List (Position × Symbol T N) → Prop}
    (hv : v.Measures measure Holds)
    {follow : Trail N β → N → Except (GrammarError N) β × Trail N β}
    {word : N → Except (GrammarError N) (List T)} {rest : List (Position × Symbol T N)}
    (hfollow : ∀ id, .nonterminal id ∈ rest.map Prod.snd → ∀ t : Trail N β,
      Coherent P measure t.finished → Visited P measure (word id) id t.finished (follow t id))
    {state : σ} {w : List T} {t : Trail N β} (hs : Holds state w rest)
    (ht : Coherent P measure t.finished) :
    Walked P v measure (joinWords word (rest.map Prod.snd)) w rest t.finished
      (v.walk follow state t rest) := by
  induction rest generalizing state w t with
  | nil =>
    refine ⟨?_, .refl ht, fun _ _ _ hid => by cases hid⟩
    show Except.ok (v.leave state) = Except.ok (measure (w ++ []))
    rw [hv.leave state w hs, List.append_nil]
  | cons entry rest ih =>
    have ih' := @ih fun id hid => hfollow id (List.mem_cons_of_mem _ hid)
    obtain ⟨p, s⟩ := entry
    cases s with
    | terminal a =>
      have h := ih' (hv.letter state w p a rest hs) ht
      rw [List.map_cons, joinWords, Valuation.walk]
      refine ⟨?_, h.extended, fun s' hs' id hid => h.finishes s' hs' id (by simpa using hid)⟩
      rw [h.answer]
      cases joinWords word (rest.map Prod.snd) <;> simp [Except.map]
    | nonterminal id =>
      have h := hfollow id List.mem_cons_self t ht
      rw [List.map_cons, joinWords, Valuation.walk]
      cases hw : word id with
      | error e =>
        have ha : (follow t id).1 = .error e := by rw [h.answer, hw]; rfl
        rw [show follow t id = (.error e, (follow t id).2) from Prod.ext ha rfl]
        exact ⟨rfl, h.extended, fun _ he => by cases he⟩
      | ok u =>
        have ha : (follow t id).1 = .ok (measure u) := by rw [h.answer, hw]; rfl
        rw [show follow t id = (.ok (measure u), (follow t id).2) from Prod.ext ha rfl]
        have h' := ih' (hv.reference state w p id u rest hs) h.extended.coherent
        refine ⟨?_, h.extended.trans h'.extended, fun s' hs' y hy => ?_⟩
        · rw [h'.answer]
          cases joinWords word (rest.map Prod.snd) <;> simp [Except.map]
        · rcases List.mem_cons.mp hy with he | hy
          · cases he
            exact h'.extended.grows id (h.finishes _ ha)
          · exact h'.finishes s' hs' y hy

/-- A rule is finished when its body was walked. -/
theorem Walked.visited {b : Body T N} {before : OrderedMap N β} {path : List N}
    {result : Except (GrammarError N) σ × Trail N β} (hP : productionsOf rules id = some b.toList)
    (h : Walked (productionsOf rules) v measure (evaluate rules path id) [] b.entries before
      result) :
    Visited (productionsOf rules) measure (evaluate rules path id) id before
      (v.conclude id result) := by
  obtain ⟨answer, after⟩ := result
  have ha := h.answer
  cases answer with
  | error e =>
    refine ⟨?_, h.extended, fun _ he => by cases he⟩
    cases hw : evaluate rules path id with
    | error e' => rw [hw] at ha; exact ha
    | ok w => rw [hw] at ha; cases ha
  | ok state =>
    cases hw : evaluate rules path id with
    | error e => rw [hw] at ha; cases ha
    | ok w =>
      rw [hw] at ha
      have hleave : v.leave state = measure w := Except.ok.inj ha
      rw [Valuation.conclude, hleave]
      have hrefs : ∀ y, (productionsOf rules).Refers id y → y ∈ after.finished.keys := by
        rintro y ⟨ss, hss, hy⟩
        rw [hP] at hss
        cases hss
        exact h.finishes state rfl y hy
      refine ⟨rfl, ⟨h.extended.coherent.insert (evaluate_sound hw) hrefs, fun x hx => ?_⟩,
        fun _ _ => (OrderedMap.mem_keys_insert ..).mpr (.inl rfl)⟩
      exact (OrderedMap.mem_keys_insert ..).mpr (.inr (h.extended.grows x hx))

/-! ## The whole recursion -/

/-- **A memo makes no difference.** With right values for the finished rules, on a path that leads
to the name, a visit answers as the evaluation without a memo does. -/
theorem visit_visited {Holds : σ → List T → List (Position × Symbol T N) → Prop}
    (hv : v.Measures measure Holds) (hpath : (productionsOf rules).Leads path id)
    (ht : Coherent (productionsOf rules) measure trail.finished) :
    Visited (productionsOf rules) measure (evaluate rules path id) id trail.finished
      (visit rules v path trail id) := by
  refine visit_induction rules v (motive := fun path t id result =>
    (productionsOf rules).Leads path id → Coherent (productionsOf rules) measure t.finished →
      Visited (productionsOf rules) measure (evaluate rules path id) id t.finished result)
    ?finished ?undefined ?onPath ?enter path trail id hpath ht
  case finished =>
    intro path t id value hf hpath ht
    -- the memo hit: what derives a word is in no loop, so no path leads into it
    obtain ⟨w, hw, rfl⟩ := ht.sound id value hf
    rw [(evaluate_eq_ok_iff hpath).mpr hw]
    exact ⟨rfl, .refl ht, fun _ _ => OrderedMap.mem_keys_of_get? hf⟩
  case undefined =>
    intro path t id _ hr _ ht
    rw [evaluate_undefined (productionsOf_eq_none_iff.mpr hr), hv.missing]
    exact ⟨rfl, .refl ht, fun _ he => by cases he⟩
  case onPath =>
    intro path t id b _ hr hp _ ht
    rw [evaluate_onPath (productionsOf_of_get? hr) hp]
    exact ⟨rfl, .refl ht, fun _ he => by cases he⟩
  case enter =>
    intro path t id b _ hr hp ih hpath ht
    have hP := productionsOf_of_get? hr
    have hwalk := walk_visited hv (t := (t.reach (path.length + 1)).enter id)
      (fun y hy t ht => ih t y (hpath.cons ⟨_, hP, hy⟩) ht) (hv.enter b) ht
    have heval : joinWords (evaluate rules (id :: path)) (b.entries.map Prod.snd) =
        evaluate rules path id := (evaluate_enter hP hp).symm
    rw [heval] at hwalk
    exact hwalk.visited hP

end

end StraightLine
