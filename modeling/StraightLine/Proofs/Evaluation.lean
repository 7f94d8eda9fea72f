import StraightLine.Proofs.Derivation

/-!
# Evaluation without a memo

`Grammar.evaluate` is the plain reading of a grammar: the word of a rule is put together from left
to right, the word of each reference is evaluated when it is met, and nothing is remembered. The
first reference without a word decides the error.

* `Grammar.evaluate_sound` — a word that it returns is derived.
* `Grammar.evaluate_of_unfolds` — a name that can be unfolded evaluates to what is read off the
  result, whatever the path is: its letters, or the first name without a rule in it
  (`Productions.readWord`). In particular every derived word is returned
  (`Grammar.evaluate_eq_ok_iff`).
* `Grammar.evaluate_error` — an error names a reachable name without a rule, or a reachable one
  that loops.
-/

namespace StraightLine

variable {T N : Type}

/-! ## Words from left to right -/

/-- The letters and the words of the references, joined from left to right; the first reference
without a word decides. -/
def joinWords (word : N → Except (GrammarError N) (List T)) :
    List (Symbol T N) → Except (GrammarError N) (List T)
  | [] => .ok []
  | .terminal t :: ss => (joinWords word ss).map (t :: ·)
  | .nonterminal id :: ss =>
    match word id with
    | .error e => .error e
    | .ok u => (joinWords word ss).map (u ++ ·)

/-- The word that symbols spell, if none of them is a reference; else the first reference is a name
that has no rule. -/
def readWord (us : List (Symbol T N)) : Except (GrammarError N) (List T) :=
  joinWords (fun id => .error (.undefinedNonterminal id)) us

theorem joinWords_append (word : N → Except (GrammarError N) (List T))
    (ss ss' : List (Symbol T N)) :
    joinWords word (ss ++ ss') =
      match joinWords word ss with
      | .error e => .error e
      | .ok u => (joinWords word ss').map (u ++ ·) := by
  induction ss with
  | nil =>
    show joinWords word ss' = (joinWords word ss').map ([] ++ ·)
    cases joinWords word ss' <;> rfl
  | cons s ss ih =>
    cases s with
    | terminal t =>
      rw [List.cons_append, joinWords, joinWords, ih]
      cases joinWords word ss with
      | error e => rfl
      | ok u => cases joinWords word ss' <;> rfl
    | nonterminal id =>
      rw [List.cons_append, joinWords, joinWords, ih]
      cases word id with
      | error e => rfl
      | ok v =>
        cases joinWords word ss with
        | error e => rfl
        | ok u => cases joinWords word ss' <;> simp [Except.map]

@[simp] theorem readWord_terminals (w : List T) :
    readWord (N := N) (w.map .terminal) = .ok w := by
  induction w with
  | nil => rfl
  | cons t w ih =>
    rw [readWord] at ih ⊢
    rw [List.map_cons, joinWords, ih]
    rfl

/-- Symbols spell a word, or there is a first reference among them. -/
theorem letters_or_gap (us : List (Symbol T N)) :
    (∃ w : List T, us = w.map .terminal) ∨
      ∃ (w : List T) (m : N) (rest : List (Symbol T N)),
        us = w.map .terminal ++ .nonterminal m :: rest := by
  induction us with
  | nil => exact .inl ⟨[], rfl⟩
  | cons s us ih =>
    cases s with
    | nonterminal m => exact .inr ⟨[], m, us, rfl⟩
    | terminal t =>
      rcases ih with ⟨w, rfl⟩ | ⟨w, m, rest, rfl⟩
      · exact .inl ⟨t :: w, rfl⟩
      · exact .inr ⟨t :: w, m, rest, rfl⟩

theorem readWord_gap (w : List T) (m : N) (rest : List (Symbol T N)) :
    readWord (w.map .terminal ++ .nonterminal m :: rest) = .error (.undefinedNonterminal m) := by
  have hletters := readWord_terminals (N := N) w
  rw [readWord] at hletters ⊢
  rw [joinWords_append, hletters, joinWords]
  rfl

/-- An answer for the whole comes from answers for the references. -/
theorem yields_of_joinWords {P : Productions T N} {word : N → Except (GrammarError N) (List T)}
    {ss : List (Symbol T N)} {w : List T}
    (hword : ∀ id u, .nonterminal id ∈ ss → word id = .ok u → P.Derives id u)
    (h : joinWords word ss = .ok w) : P.Yields ss w := by
  induction ss generalizing w with
  | nil =>
    cases h
    exact .nil
  | cons s ss ih =>
    have ih' := fun w => ih (w := w) fun id u hid => hword id u (List.mem_cons_of_mem _ hid)
    cases s with
    | terminal t =>
      rw [joinWords] at h
      cases hj : joinWords word ss with
      | error e => rw [hj] at h; cases h
      | ok u =>
        rw [hj] at h
        cases h
        exact .terminal (ih' u hj)
    | nonterminal id =>
      rw [joinWords] at h
      cases hw : word id with
      | error e => rw [hw] at h; cases h
      | ok v =>
        rw [hw] at h
        cases hj : joinWords word ss with
        | error e => rw [hj] at h; cases h
        | ok u =>
          rw [hj] at h
          cases h
          obtain ⟨b, hb, hv⟩ := hword id v List.mem_cons_self hw
          exact .reference hb hv (ih' u hj)

/-- The error of the whole is the error of a reference. -/
theorem exists_of_joinWords_error {word : N → Except (GrammarError N) (List T)}
    {ss : List (Symbol T N)} {e : GrammarError N} (h : joinWords word ss = .error e) :
    ∃ id, .nonterminal id ∈ ss ∧ word id = .error e := by
  induction ss with
  | nil => cases h
  | cons s ss ih =>
    have ih' : joinWords word ss = .error e →
        ∃ id, .nonterminal id ∈ s :: ss ∧ word id = .error e := by
      intro hj
      obtain ⟨id, hid, hw⟩ := ih hj
      exact ⟨id, List.mem_cons_of_mem _ hid, hw⟩
    cases s with
    | terminal t =>
      rw [joinWords] at h
      cases hj : joinWords word ss with
      | error e' => rw [hj] at h; cases h; exact ih' hj
      | ok u => rw [hj] at h; cases h
    | nonterminal id =>
      rw [joinWords] at h
      cases hw : word id with
      | error e' =>
        rw [hw] at h
        cases h
        exact ⟨id, List.mem_cons_self, hw⟩
      | ok v =>
        rw [hw] at h
        cases hj : joinWords word ss with
        | error e' => rw [hj] at h; cases h; exact ih' hj
        | ok u => rw [hj] at h; cases h

/-! ## Evaluation -/

namespace Grammar

variable [DecidableEq N]

/-- The word of `id` for a reference met on the given path: a name without a rule is undefined, a
name on the path closes a cycle, and any other rule is evaluated from left to right. -/
def evaluate (rules : OrderedMap N (Body T N)) (path : List N) (id : N) :
    Except (GrammarError N) (List T) :=
  match _defined : rules.get? id with
  | none => .error (.undefinedNonterminal id)
  | some b =>
    if _onPath : id ∈ path then .error (.cycle id)
    else joinWords (evaluate rules (id :: path)) b.toList
termination_by rulesOff rules path
decreasing_by exact rulesOff_cons_lt (OrderedMap.mem_keys_of_get? _defined) _onPath

variable {rules : OrderedMap N (Body T N)} {path : List N} {id : N}

theorem evaluate_undefined (h : productionsOf rules id = none) :
    evaluate rules path id = .error (.undefinedNonterminal id) := by
  rw [productionsOf_eq_none_iff] at h
  rw [evaluate]
  split
  · rfl
  · next b hb => rw [h] at hb; cases hb

theorem evaluate_onPath {ss : List (Symbol T N)} (h : productionsOf rules id = some ss)
    (hp : id ∈ path) : evaluate rules path id = .error (.cycle id) := by
  obtain ⟨b, hb, -⟩ := productionsOf_eq_some_iff.mp h
  rw [evaluate]
  split
  · next hn => rw [hb] at hn; cases hn
  · rw [dif_pos hp]

theorem evaluate_enter {ss : List (Symbol T N)} (h : productionsOf rules id = some ss)
    (hp : id ∉ path) : evaluate rules path id = joinWords (evaluate rules (id :: path)) ss := by
  obtain ⟨b, hb, rfl⟩ := productionsOf_eq_some_iff.mp h
  rw [evaluate]
  split
  · next hn => rw [hb] at hn; cases hn
  · next b' hb' =>
    rw [hb] at hb'
    cases hb'
    rw [dif_neg hp]

/-- **A word that is returned is derived.** -/
theorem evaluate_sound {w : List T} (h : evaluate rules path id = .ok w) :
    (productionsOf rules).Derives id w := by
  induction path using path_induction rules generalizing id w with
  | step path ih =>
    cases hP : productionsOf rules id with
    | none => rw [evaluate_undefined hP] at h; cases h
    | some ss =>
      by_cases hp : id ∈ path
      · rw [evaluate_onPath hP hp] at h; cases h
      · rw [evaluate_enter hP hp] at h
        have hkey : id ∈ rules.keys := mem_keys_of_productionsOf hP
        exact ⟨ss, hP, yields_of_joinWords (fun y u _ hy => ih id hkey hp hy) h⟩

/-- On symbols that can be unfolded the evaluation of the references reads off the result. -/
theorem joinWords_evaluate {ss us : List (Symbol T N)}
    (h : (productionsOf rules).Unfolds ss us)
    (hpath : ∀ y, .nonterminal y ∈ ss → (productionsOf rules).Leads path y) :
    joinWords (evaluate rules path) ss = readWord us := by
  induction h generalizing path with
  | nil => rfl
  | terminal _ ih =>
    have hj := ih fun y hy => hpath y (List.mem_cons_of_mem _ hy)
    rw [readWord] at hj ⊢
    rw [joinWords, joinWords, hj]
  | @keep id ss us hn _ ih =>
    rw [readWord, joinWords, joinWords, evaluate_undefined hn]
  | @replace id b v ss us hb hv _ ihb ih =>
    have hlead := hpath id List.mem_cons_self
    have hloop : ¬ (productionsOf rules).Loops id :=
      (Productions.Unfolds.reference hb hv).not_loops List.mem_cons_self (.refl id)
    have hp : id ∉ path := fun hid => hloop (hlead.loops_of_mem hid)
    have hbody := @ihb (id :: path) fun y hy => hlead.cons ⟨b, hb, hy⟩
    have hrest := ih fun y hy => hpath y (List.mem_cons_of_mem _ hy)
    rw [readWord] at hbody hrest ⊢
    rw [joinWords, evaluate_enter hb hp, hbody, hrest, joinWords_append]

/-- **Evaluation reads off the unfolding**, on every path that leads to the name. -/
theorem evaluate_of_unfolds {us : List (Symbol T N)}
    (h : (productionsOf rules).Unfolds [.nonterminal id] us)
    (hpath : (productionsOf rules).Leads path id) : evaluate rules path id = readWord us := by
  have hj : joinWords (evaluate rules path) [.nonterminal id] = readWord us := by
    apply joinWords_evaluate h
    intro y hy
    obtain rfl : y = id := by simpa using hy
    exact hpath
  rw [← hj, joinWords]
  cases evaluate rules path id with
  | error e => rfl
  | ok u =>
    show Except.ok u = Except.ok (u ++ [])
    rw [List.append_nil]

theorem evaluate_eq_ok_iff {w : List T} (hpath : (productionsOf rules).Leads path id) :
    evaluate rules path id = .ok w ↔ (productionsOf rules).Derives id w := by
  refine ⟨evaluate_sound, fun h => ?_⟩
  rw [evaluate_of_unfolds (Productions.derives_iff_unfolds.mp h) hpath, readWord_terminals]

/-- **An error has its cause below the name**: a name without a rule, or a loop. -/
theorem evaluate_error {e : GrammarError N} (hpath : (productionsOf rules).Leads path id)
    (h : evaluate rules path id = .error e) :
    (∃ m, e = .undefinedNonterminal m ∧ productionsOf rules m = none ∧
        (productionsOf rules).Reaches id m) ∨
      ∃ c, e = .cycle c ∧ (productionsOf rules).Reaches id c ∧ (productionsOf rules).Loops c := by
  induction path using path_induction rules generalizing id with
  | step path ih =>
    cases hP : productionsOf rules id with
    | none =>
      rw [evaluate_undefined hP] at h
      cases h
      exact .inl ⟨id, rfl, hP, .refl id⟩
    | some ss =>
      by_cases hp : id ∈ path
      · rw [evaluate_onPath hP hp] at h
        cases h
        exact .inr ⟨id, rfl, .refl id, hpath.loops_of_mem hp⟩
      · rw [evaluate_enter hP hp] at h
        obtain ⟨y, hy, he⟩ := exists_of_joinWords_error h
        have hkey : id ∈ rules.keys := mem_keys_of_productionsOf hP
        have hxy : (productionsOf rules).Refers id y := ⟨ss, hP, hy⟩
        rcases ih id hkey hp (hpath.cons hxy) he with ⟨m, hm, hn, hym⟩ | ⟨c, hc, hyc, hloop⟩
        · exact .inl ⟨m, hm, hn, .head hxy hym⟩
        · exact .inr ⟨c, hc, .head hxy hyc, hloop⟩

end Grammar

end StraightLine
