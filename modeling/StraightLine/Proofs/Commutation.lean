import StraightLine.Proofs.Acyclicity
import StraightLine.Proofs.InlineMeaning

/-!
# Inlinings commute

Two rules can be inlined in either order. The edits are different ones if one of the bodies refers
to the other name: either the body is completed first and then copied to all its places, or it is
copied with the reference in it, and the reference is replaced in every copy later on. What is left
in the end is the same.

* `spliced_spliced` — two splices, one after the other, are one pass over the symbols.
* `spliced_comm` — so they can change places, if each body is first spliced with the other one, and
  at most one of the two refers to the other name.
* `Productions.inlined_comm` — the same for all rules at once.
* `Grammar.inlineRule_twice` — without loops the second inlining is accepted too.
* `Grammar.inlinings_commute` — **the order of two inlinings makes no difference.**
-/

namespace StraightLine

variable {T N : Type} [DecidableEq N]

/-! ## One body -/

/-- **Two splices are one pass**: what is put in first is spliced in its turn. -/
theorem spliced_spliced (a b : N) (xs ys ss : List (Symbol T N)) :
    spliced b ys (spliced a xs ss) = ss.flatMap fun s =>
      if s.refersTo a then spliced b ys xs else if s.refersTo b then ys else [s] := by
  induction ss with
  | nil => rfl
  | cons s ss ih =>
    have hhead : spliced b ys (if s.refersTo a then xs else [s]) =
        if s.refersTo a then spliced b ys xs else if s.refersTo b then ys else [s] := by
      split
      · rfl
      · exact List.append_nil _
    rw [List.flatMap_cons, ← ih, ← hhead]
    exact List.flatMap_append

/-- **Splices change places.** The body of each name is spliced with that of the other one first.
One of the two does not refer to the other name, or this would never come to an end. -/
theorem spliced_comm {a b : N} (hab : a ≠ b) {xs ys : List (Symbol T N)}
    (h : .nonterminal b ∉ xs ∨ .nonterminal a ∉ ys) (ss : List (Symbol T N)) :
    spliced b (spliced a xs ys) (spliced a xs ss) =
      spliced a (spliced b ys xs) (spliced b ys ss) := by
  have hxs : spliced b (spliced a xs ys) xs = spliced b ys xs := by
    rcases h with hb | ha
    · rw [spliced_of_not_mem hb, spliced_of_not_mem hb]
    · rw [spliced_of_not_mem ha]
  have hys : spliced a (spliced b ys xs) ys = spliced a xs ys := by
    rcases h with hb | ha
    · rw [spliced_of_not_mem hb]
    · rw [spliced_of_not_mem ha, spliced_of_not_mem ha]
  rw [spliced_spliced, spliced_spliced, hxs, hys]
  -- no symbol refers to both names, so it does not matter which one is looked for first
  refine List.flatMap_congr fun s _ => ?_
  by_cases ha : s.refersTo a = true
  · have hb : ¬ s.refersTo b = true := by
      rw [Symbol.refersTo_iff] at ha ⊢
      rw [ha]
      exact fun he => hab (Symbol.nonterminal.inj he)
    rw [if_pos ha, if_neg hb, if_pos ha]
  · rw [if_neg ha, if_neg ha]

/-! ## All rules -/

/-- **The rules are the same after both orders.** The second of the two bodies is the one that the
first inlining has left. -/
theorem Productions.inlined_comm {P : Productions T N} {a b : N} (hab : a ≠ b)
    {xs ys : List (Symbol T N)} (h : .nonterminal b ∉ xs ∨ .nonterminal a ∉ ys) :
    (P.inlined a xs).inlined b (spliced a xs ys) =
      (P.inlined b ys).inlined a (spliced b ys xs) := by
  funext x
  unfold inlined
  by_cases hxa : x = a
  · rw [if_pos hxa, if_pos hxa, Option.map_none, ite_self]
  · by_cases hxb : x = b
    · rw [if_pos hxb, if_pos hxb, Option.map_none, ite_self]
    · rw [if_neg hxa, if_neg hxb, if_neg hxa, if_neg hxb, Option.map_map, Option.map_map]
      cases P x with
      | none => rfl
      | some ss => exact congrArg some (spliced_comm hab h ss)

/-! ## The rules of a grammar -/

namespace Grammar

/-- Without loops the first inlining leaves the second one possible, and the second one takes the
body that the first one has left. -/
theorem inlineRule_twice {g : Grammar T N} (hac : g.productions.Acyclic) {a b : N} (hab : a ≠ b)
    (has : a ≠ g.start) (hbs : b ≠ g.start) {xs ys : List (Symbol T N)}
    (ha : g.productions a = some xs) (hb : g.productions b = some ys) :
    let once := g.inlineRule a
    let twice := once.grammar.inlineRule b
    (∃ n, once.answer = .ok n) ∧ (∃ n, twice.answer = .ok n) ∧
    twice.grammar.start = g.start ∧
    twice.grammar.rules.keys = (g.rules.keys.filter fun x => x ≠ a).filter (fun x => x ≠ b) ∧
    twice.grammar.productions = (g.productions.inlined a xs).inlined b (spliced a xs ys) := by
  intro once twice
  obtain ⟨c, hc, rfl⟩ := productionsOf_eq_some_iff.mp ha
  have hself : ¬ g.productions.Refers a a := hac.not_refers_self a
  have hfirst : g.Inlined a c once.grammar := inlined_inlineRule hc has hself
  have hac' : once.grammar.productions.Acyclic := by
    rw [hfirst.productions]
    exact Productions.acyclic_inlined hac ha
  -- the second rule is still there, with the first body put in
  have hb' : once.grammar.productions b = some (spliced a c.toList ys) := by
    rw [hfirst.productions, Productions.inlined, if_neg hab.symm, hb]
    rfl
  obtain ⟨d, hd, hdlist⟩ := productionsOf_eq_some_iff.mp hb'
  have hbs' : b ≠ once.grammar.start := by rwa [hfirst.start]
  have hself' : ¬ once.grammar.productions.Refers b b := hac'.not_refers_self b
  have hsecond : once.grammar.Inlined b d twice.grammar := inlined_inlineRule hd hbs' hself'
  refine ⟨⟨_, congrArg Outcome.answer (inlineRule_of_get? hc has hself)⟩,
    ⟨_, congrArg Outcome.answer (inlineRule_of_get? hd hbs' hself')⟩, ?_, ?_, ?_⟩
  · rw [hsecond.start, hfirst.start]
  · rw [hsecond.keys, hfirst.keys]
  · rw [hsecond.productions, hfirst.productions, hdlist]

/-- **Inlinings commute.** On every grammar without loops, also with references to names that have
no rule, two rules other than the start symbol's can be inlined one after the other, in both orders.
Both times all four inlinings are accepted, and in the end there are the same start symbol and the
same rules, with the same bodies and in the same order. The bodies of the two rules may refer to
each other's names, from the one to the other, as often as they like. -/
theorem inlinings_commute (g : Grammar T N) (hac : g.productions.Acyclic) (a b : N) (hab : a ≠ b)
    (ha : g.contains a = true) (hb : g.contains b = true) (has : a ≠ g.start) (hbs : b ≠ g.start) :
    let ab := (g.inlineRule a).grammar.inlineRule b
    let ba := (g.inlineRule b).grammar.inlineRule a
    (∃ n, (g.inlineRule a).answer = .ok n) ∧ (∃ n, ab.answer = .ok n) ∧
    (∃ n, (g.inlineRule b).answer = .ok n) ∧ (∃ n, ba.answer = .ok n) ∧
    ab.grammar.start = ba.grammar.start ∧ ab.grammar.contents = ba.grammar.contents := by
  intro ab ba
  have hbody : ∀ x, g.contains x = true → ∃ ss, g.productions x = some ss := by
    intro x hx
    exact Option.isSome_iff_exists.mp (isSome_productionsOf_iff.mpr (OrderedMap.contains_iff.mp hx))
  obtain ⟨xs, hxs⟩ := hbody a ha
  obtain ⟨ys, hys⟩ := hbody b hb
  obtain ⟨hfirst, hsecond, hstart, hkeys, hP⟩ := inlineRule_twice hac hab has hbs hxs hys
  obtain ⟨hfirst', hsecond', hstart', hkeys', hP'⟩ := inlineRule_twice hac hab.symm hbs has hys hxs
  -- references in both directions would be a loop
  have honce : .nonterminal b ∉ xs ∨ .nonterminal a ∉ ys := by
    by_contra hboth
    rw [not_or, not_not, not_not] at hboth
    exact hac a (.tail (.single ⟨xs, hxs, hboth.1⟩) ⟨ys, hys, hboth.2⟩)
  refine ⟨hfirst, hsecond, hfirst', hsecond', hstart.trans hstart'.symm, ?_⟩
  rw [contents_eq ab.grammar, contents_eq ba.grammar, hkeys, hkeys', hP, hP',
    Productions.inlined_comm hab honce, List.filter_filter, List.filter_filter]
  simp only [Bool.and_comm]

/-- One of two rules refers twice to the other one, and to a name without a rule. -/
def nestedUse : Grammar Char Nat :=
  let g := ofStart 0
  let g := (g.addRule 2 (.ofList [.terminal 'a', .terminal 'b'])).2
  let g := (g.addRule 0 (.ofList [.nonterminal 1, .nonterminal 2, .nonterminal 1])).2
  (g.addRule 1 (.ofList [.nonterminal 2, .nonterminal 9, .nonterminal 2])).2

/-- The two orders rewrite different numbers of places and leave the same rule. -/
theorem inlinings_commute_nestedUse :
    let outer := nestedUse.inlineRule 1
    let inner := nestedUse.inlineRule 2
    nestedUse.productions.Acyclic ∧
      outer.answer = .ok 2 ∧ (outer.grammar.inlineRule 2).answer = .ok 5 ∧
      inner.answer = .ok 3 ∧ (inner.grammar.inlineRule 1).answer = .ok 2 ∧
      (outer.grammar.inlineRule 2).grammar.contents =
        (inner.grammar.inlineRule 1).grammar.contents := by
  intro outer inner
  have hac : nestedUse.productions.Acyclic := (checkAcyclic_eq_ok_iff nestedUse).mp (by cbv)
  obtain ⟨-, -, -, -, -, hcontents⟩ := inlinings_commute nestedUse hac 1 2 (by decide)
    (by decide +kernel) (by decide +kernel) (by decide +kernel) (by decide +kernel)
  exact ⟨hac, by decide +kernel, by decide +kernel, by decide +kernel, by decide +kernel, hcontents⟩

end Grammar

end StraightLine
