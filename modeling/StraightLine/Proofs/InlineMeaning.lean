import StraightLine.Proofs.Derivation
import StraightLine.Proofs.Substitution

/-!
# What inlining a rule does to the words

To inline a rule is to use it everywhere at once, so the other rules stand for what they stood for.
This holds on every grammar: a rule that is on a loop, or that has no word, has none afterwards.

* `Productions.Yields.spliced_iff` — to put the body of a rule in the place of a reference to it
  makes no difference.
* `Productions.derives_inlined_iff` — every other name derives the same words from the rules that
  an inlining leaves. A derivation there is one with the old rules in which the body is put back
  (`Yields.of_inlined`), and the other way round (`Yields.inlined`).
* `Grammar.inlineRule_cases` — the four ways in which an inlining can end, in the order of the tests.
* `Grammar.inlining` — what an accepted inlining leaves, and when one is refused.
-/

namespace StraightLine

variable {T N : Type} [DecidableEq N]

namespace Productions

variable {P : Productions T N} {id : N} {xs : List (Symbol T N)}

/-! ## Words -/

/-- **To put a body in the place of a reference to its rule makes no difference.** -/
theorem Yields.spliced_iff (hid : P id = some xs) {ss : List (Symbol T N)} {w : List T} :
    P.Yields (spliced id xs ss) w ↔ P.Yields ss w := by
  induction ss generalizing w with
  | nil => exact Iff.rfl
  | cons s ss ih =>
    cases s with
    | terminal t =>
      rw [spliced_terminal]
      constructor
      · rintro (_ | ⟨h⟩)
        exact .terminal (ih.mp h)
      · rintro (_ | ⟨h⟩)
        exact .terminal (ih.mpr h)
    | nonterminal y =>
      by_cases hy : y = id
      · subst hy
        have hbody : ∀ u, P.Yields xs u ↔ P.Derives y u := by
          intro u
          constructor
          · intro hu
            exact ⟨xs, hid, hu⟩
          · rintro ⟨b, hb, hu⟩
            rw [hid] at hb
            cases hb
            exact hu
        rw [spliced_self, Yields.append_iff, Yields.cons_iff]
        simp only [hbody, ih]
      · rw [spliced_of_ne hy, Yields.cons_iff, Yields.cons_iff]
        simp only [ih]

/-- What the new rules yield, the old ones do. -/
theorem Yields.of_inlined (hid : P id = some xs) {ss : List (Symbol T N)} {w : List T}
    (h : (P.inlined id xs).Yields ss w) : P.Yields ss w := by
  induction h with
  | nil => exact .nil
  | terminal _ ih => exact .terminal ih
  | @reference y b u ss w hb _ _ ihb ih =>
    rw [inlined] at hb
    split at hb
    · cases hb
    · obtain ⟨c, hc, rfl⟩ := Option.map_eq_some_iff.mp hb
      exact .reference hc ((Yields.spliced_iff hid).mp ihb) ih

/-- What the old rules yield, the new ones do once the body is put in. -/
theorem Yields.inlined (hid : P id = some xs) (hself : ¬ P.Refers id id) {ss : List (Symbol T N)}
    {w : List T} (h : P.Yields ss w) : (P.inlined id xs).Yields (spliced id xs ss) w := by
  induction h with
  | nil => exact .nil
  | terminal _ ih => exact .terminal ih
  | @reference y b u ss w hb _ _ ihb ih =>
    by_cases hy : y = id
    · subst hy
      rw [hid] at hb
      cases hb
      -- the body that is put in is already free of references to its rule
      rw [spliced_of_not_mem fun hmem => hself ⟨_, hid, hmem⟩] at ihb
      rw [spliced_self]
      exact ihb.append ih
    · have hrule : P.inlined id xs y = some (spliced id xs b) := by
        rw [Productions.inlined, if_neg hy, hb]
        rfl
      rw [spliced_of_ne hy]
      exact .reference hrule ihb ih

/-- **Every other name derives the same words.** -/
theorem derives_inlined_iff (hid : P id = some xs) (hself : ¬ P.Refers id id) {x : N} (hx : x ≠ id)
    (w : List T) : (P.inlined id xs).Derives x w ↔ P.Derives x w := by
  constructor
  · rintro ⟨b, hb, hw⟩
    rw [Productions.inlined, if_neg hx] at hb
    obtain ⟨c, hc, rfl⟩ := Option.map_eq_some_iff.mp hb
    exact ⟨c, hc, (Yields.spliced_iff hid).mp (hw.of_inlined hid)⟩
  · rintro ⟨c, hc, hw⟩
    refine ⟨spliced id xs c, ?_, hw.inlined hid hself⟩
    rw [Productions.inlined, if_neg hx, hc]
    rfl

/-- No body refers to the name any more. -/
theorem not_refers_inlined (hid : P id = some xs) (hself : ¬ P.Refers id id) (x : N) :
    ¬ (P.inlined id xs).Refers x id := by
  intro hx
  rcases (refers_inlined hid).mp hx with ⟨-, ⟨hne, -⟩ | ⟨-, hloop⟩⟩
  · exact hne rfl
  · exact hself hloop

end Productions

namespace Grammar

/-! ## The inlining of a grammar -/

/-- The places are the references in the other bodies. -/
theorem substitute_dropRule_fst (g : Grammar T N) (id : N) (xs : List (Symbol T N)) :
    ((g.dropRule id).substitute id xs).1 = g.outerOccurrences id := by
  rw [substitute_fst, occurrences, outerOccurrences, OrderedMap.values, List.map_map]
  rfl

/-- **An inlining ends in one of four ways**, which are told apart in this order: there is no rule,
it is the start symbol's, it refers to itself, or it is inlined. -/
theorem inlineRule_cases (g : Grammar T N) (id : N) :
    (g.rules.get? id = none ∧ g.inlineRule id = .refuse g (.undefinedNonterminal id)) ∨
    ∃ b, g.rules.get? id = some b ∧
      ((id = g.start ∧ g.inlineRule id = .refuse g (.startSymbol id)) ∨
        (id ≠ g.start ∧ g.productions.Refers id id ∧ g.inlineRule id = .refuse g (.cycle id)) ∨
        (id ≠ g.start ∧ ¬ g.productions.Refers id id ∧
          (g.inlineRule id).answer = .ok (g.outerOccurrences id) ∧
          g.Inlined id b (g.inlineRule id).grammar)) := by
  cases hb : g.rules.get? id with
  | none =>
    left
    refine ⟨rfl, ?_⟩
    unfold inlineRule
    rw [hb]
  | some b =>
    right
    refine ⟨b, rfl, ?_⟩
    by_cases hs : id = g.start
    · left
      refine ⟨hs, ?_⟩
      unfold inlineRule
      rw [hb]
      exact if_pos hs
    · right
      by_cases hself : g.productions.Refers id id
      · left
        refine ⟨hs, hself, ?_⟩
        obtain ⟨c, hc, hid⟩ := refers_productionsOf_iff.mp hself
        rw [hb] at hc
        cases hc
        unfold inlineRule
        rw [hb]
        exact (if_neg hs).trans (if_pos (Body.refersTo_iff.mpr hid))
      · right
        refine ⟨hs, hself, ?_, inlined_inlineRule hb hs hself⟩
        rw [inlineRule_of_get? hb hs hself, substitute_dropRule_fst]

/-- The contents after an inlining. -/
theorem Inlined.contents_eq {g g' : Grammar T N} {id : N} {b : Body T N} (h : g.Inlined id b g') :
    g'.contents = (g.contents.filter fun r => r.1 ≠ id).map fun r =>
      (r.1, spliced id b.toList r.2) := by
  rw [contents, contents, h.entries, List.filter_map, List.map_map, List.map_map]
  refine List.map_congr_left fun r _ => ?_
  exact congrArg (Prod.mk r.1) (Body.toList_substitute r.2 id b.toList)

/-- An inlining is refused for one of three causes, and for the first of them that there is. -/
theorem inlineRule_eq_error_iff (g : Grammar T N) (id : N) (e : GrammarError N) :
    (g.inlineRule id).answer = .error e ↔
      (e = .undefinedNonterminal id ∧ g.contains id = false) ∨
      (e = .startSymbol id ∧ g.contains id = true ∧ id = g.start) ∨
      (e = .cycle id ∧ g.contains id = true ∧ id ≠ g.start ∧ g.productions.Refers id id) := by
  rcases inlineRule_cases g id with ⟨hn, hr⟩ | ⟨b, hb, hcases⟩
  · have hc : g.contains id = false := by
      rw [contains, OrderedMap.contains, hn]
      rfl
    simp [hr, Outcome.refuse, hc, eq_comm]
  · have hc : g.contains id = true := by
      rw [contains, OrderedMap.contains, hb]
      rfl
    rcases hcases with ⟨hs, hr⟩ | ⟨hs, hself, hr⟩ | ⟨hs, hself, ha, -⟩
    · simp [hr, Outcome.refuse, hc, ← hs, eq_comm]
    · simp [hr, Outcome.refuse, hc, hs, hself, eq_comm]
    · simp [ha, hc, hs, hself]

/-- **What inlining a rule does**, on every grammar. If it is accepted, the rule is gone and no body
refers to it; the answer is the number of references that other bodies had to it; the other rules
keep their places, and in their bodies the old body of the rule stands for every reference to it;
the start symbol stays; and every other name derives the words that it derived before. It is refused
exactly if there is no rule, or it is the start symbol's, or it refers to itself, and the first of
these is the error. -/
theorem inlining (g : Grammar T N) (id : N) :
    (∀ n, (g.inlineRule id).answer = .ok n →
      let g' := (g.inlineRule id).grammar
      ∃ ss, g.productions id = some ss ∧
        g'.contains id = false ∧
        (∀ x, ¬ g'.productions.Refers x id) ∧
        n = g.outerOccurrences id ∧
        g'.contents = (g.contents.filter fun r => r.1 ≠ id).map
          (fun r => (r.1, spliced id ss r.2)) ∧
        g'.start = g.start ∧
        ∀ x, x ≠ id → ∀ w, g'.productions.Derives x w ↔ g.productions.Derives x w) ∧
    ∀ e, (g.inlineRule id).answer = .error e ↔
      (e = .undefinedNonterminal id ∧ g.contains id = false) ∨
      (e = .startSymbol id ∧ g.contains id = true ∧ id = g.start) ∨
      (e = .cycle id ∧ g.contains id = true ∧ id ≠ g.start ∧ g.productions.Refers id id) := by
  refine ⟨fun n hn => ?_, inlineRule_eq_error_iff g id⟩
  obtain ⟨⟨b, hb⟩, hs, hself⟩ := inlineRule_eq_ok hn
  have hi := inlined_inlineRule hb hs hself
  have hid : g.productions id = some b.toList := productionsOf_of_get? hb
  have hsites : n = g.outerOccurrences id := by
    rw [inlineRule_of_get? hb hs hself, substitute_dropRule_fst] at hn
    exact (Except.ok.inj hn).symm
  have hgone : id ∉ (g.inlineRule id).grammar.rules.keys := by
    rw [hi.keys, List.mem_filter]
    simp
  refine ⟨b.toList, hid, ?_, ?_, hsites, hi.contents_eq, hi.start, ?_⟩
  · rw [← Bool.not_eq_true, contains, OrderedMap.contains_iff]
    exact hgone
  · rw [hi.productions]
    exact Productions.not_refers_inlined hid hself
  · rw [hi.productions]
    exact fun x hx => Productions.derives_inlined_iff hid hself hx

end Grammar

end StraightLine
