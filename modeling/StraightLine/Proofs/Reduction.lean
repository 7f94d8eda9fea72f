import StraightLine.Proofs.Acyclicity
import StraightLine.Proofs.Occurrences

/-!
# What a reduction leaves

`Grammar.reduce` inlines one rule after the other, and each inlining changes how often the other
rules are referred to. The counts over the live rules do not change, and so the result can be told
beforehand.

* `Grammar.Survives` — the rules that stay: the start symbol's, and those that the live rules
  refer to at least twice. `Grammar.dissolving` are the bodies of the others.
* `Grammar.nextReducible_eq` — the loop picks its rules by the census, which for all names but the
  start symbol's is the number of references.
* `Grammar.Partway` — the invariant of the loop: how the rules that are there come from the rules
  at the beginning. One inlining keeps it (`Grammar.Partway.inlined`), so a run does
  (`Grammar.Partway.inlineAll`), and no inlining in it is refused.
* `Grammar.reaches_of_irreducible` — where the loop ends every rule is live: an unreached one
  would need another one that refers to it, and so on for ever.
* `Grammar.reduce_reduced` — what a reduction leaves, and `Grammar.reduce_closed_form` — the whole
  result, which depends on the start symbol and the bodies alone and not on the order of the
  rules.
-/

namespace StraightLine

-- which rules survive is not a test that a program makes here
open scoped Classical

variable {T N : Type} [DecidableEq N]

namespace Grammar

/-! ## The rules that stay -/

/-- A reduction keeps the start symbol's rule and the rules that live rules refer to at least twice.
-/
def Survives (g : Grammar T N) (id : N) : Prop := id = g.start ∨ 2 ≤ g.liveOccurrences id

/-- The bodies of the rules that a reduction does not keep. -/
noncomputable def dissolving (g : Grammar T N) : Productions T N :=
  fun id => if g.Survives id then none else g.productions id

/-- The bodies of the rules of `g₀` that are no longer rules of `g`. -/
def dissolved (g₀ g : Grammar T N) : Productions T N :=
  fun id => if id ∈ g.rules.keys then none else g₀.productions id

/-! ## The loop -/

/-- The census of the other names than the start symbol's is the number of references to them. -/
theorem nextReducible_eq (g : Grammar T N) :
    g.nextReducible = g.rules.keys.find? fun id => id ≠ g.start && g.occurrences id ≤ 1 := by
  show g.rules.keys.find? (fun id => id ≠ g.start && g.referenceCount id ≤ 1) = _
  congr 1
  funext id
  by_cases hs : id = g.start
  · simp [hs]
  · rw [g.referenceCount_of_ne hs]

/-- The first reducible rule has a body, and it can be inlined if there are no loops. -/
theorem nextReducible_eq_some {g : Grammar T N} {id : N} (h : g.nextReducible = some id) :
    (∃ b, g.rules.get? id = some b) ∧ id ≠ g.start ∧ g.occurrences id ≤ 1 := by
  rw [nextReducible_eq] at h
  have hkey : id ∈ g.rules.keys := List.mem_of_find?_eq_some h
  have htest := List.find?_some h
  simp only [ne_eq, Bool.and_eq_true, decide_eq_true_eq, decide_not, Bool.not_eq_true',
    decide_eq_false_iff_not] at htest
  exact ⟨Option.isSome_iff_exists.mp (OrderedMap.contains_iff.mpr hkey), htest⟩

theorem inlineAll_of_none {g : Grammar T N} (h : g.nextReducible = none) :
    g.inlineAll = ⟨.ok 0, g, []⟩ := by
  rw [inlineAll]
  split
  · rfl
  · next id hid => rw [h] at hid; cases hid

/-- One turn of the loop. -/
theorem inlineAll_of_some {g : Grammar T N} {id : N} {sites : Nat} (h : g.nextReducible = some id)
    (hok : (g.inlineRule id).answer = .ok sites) :
    g.inlineAll =
      ⟨(g.inlineRule id).grammar.inlineAll.answer.map (· + 1),
        (g.inlineRule id).grammar.inlineAll.grammar,
        (g.inlineRule id).records ++ (g.inlineRule id).grammar.inlineAll.records⟩ := by
  rw [inlineAll]
  split
  · next hnone => rw [h] at hnone; cases hnone
  · next id' hid =>
    rw [h] at hid
    cases hid
    dsimp only
    split
    · next e he => rw [hok] at he; cases he
    · rfl

/-- On the way from `g₀` to its reduction: `g` has some of the rules, in their order, and in their
bodies the rules that are gone are unfolded. None of those that are gone survives, and no count over
the live rules has changed. -/
structure Partway (g₀ g : Grammar T N) : Prop where
  start : g.start = g₀.start
  keys : g.rules.keys = g₀.rules.keys.filter fun x => x ∈ g.rules.keys
  acyclic : g.productions.Acyclic
  gone : ∀ x ∈ g₀.rules.keys, x ∉ g.rules.keys → ¬ g₀.Survives x
  live : ∀ x ∈ g.rules.keys, g.liveOccurrences x = g₀.liveOccurrences x
  bodies : ∀ x us, g.productions x = some us →
    ∃ ss, g₀.productions x = some ss ∧ (g₀.dissolved g).Unfolds ss us

theorem Partway.refl {g : Grammar T N} (hac : g.productions.Acyclic) : g.Partway g where
  start := rfl
  keys := (List.filter_eq_self.mpr fun _ hx => decide_eq_true hx).symm
  acyclic := hac
  gone x hx hn := absurd hx hn
  live _ _ := rfl
  bodies := by
    intro x us hx
    refine ⟨us, hx, .self fun y _ => ?_⟩
    rw [dissolved]
    split
    · rfl
    · next hy => exact productionsOf_eq_none_iff.mpr (OrderedMap.get?_eq_none_iff.mpr hy)

variable {g₀ g g' : Grammar T N} {id : N} {b : Body T N}

theorem Inlined.mem_keys (h : g.Inlined id b g') {x : N} :
    x ∈ g'.rules.keys ↔ x ∈ g.rules.keys ∧ x ≠ id := by
  rw [h.keys, List.mem_filter, decide_eq_true_eq]

/-- The bodies on the way, after one more inlining. -/
theorem Partway.bodies_inlined (h : g₀.Partway g) (hi : g.Inlined id b g')
    (hb : g.rules.get? id = some b) {x : N} {us : List (Symbol T N)}
    (hx : g'.productions x = some us) :
    ∃ ss, g₀.productions x = some ss ∧ (g₀.dissolved g').Unfolds ss us := by
  have hself := h.acyclic.not_refers_self id
  have hextends : (g₀.dissolved g').Extends (g₀.dissolved g) := by
    intro y c hy
    rw [dissolved] at hy ⊢
    split at hy
    · cases hy
    · next hn => rwa [if_neg fun hy' => hn (hi.mem_keys.mp hy').1]
  have hrest : ∀ y, y ≠ id → g₀.dissolved g y = none → g₀.dissolved g' y = none := by
    intro y hne hy
    rw [dissolved] at hy ⊢
    split
    · rfl
    · next hn => rwa [if_neg fun hy' => hn (hi.mem_keys.mpr ⟨hy', hne⟩)] at hy
  -- the rule that goes away is itself unfolded as far as it can be
  obtain ⟨ss, hss, hus⟩ := h.bodies id b.toList (productionsOf_of_get? hb)
  have hid : g₀.dissolved g' id = some ss := by
    rw [dissolved, if_neg fun hk => (hi.mem_keys.mp hk).2 rfl, hss]
  have hown : (g₀.dissolved g').Unfolds b.toList b.toList := by
    refine .self fun y hy => hrest y ?_ (hus.stuck hy)
    rintro rfl
    exact hself ⟨_, productionsOf_of_get? hb, hy⟩
  have hput : (g₀.dissolved g').Unfolds [.nonterminal id] b.toList :=
    .reference hid ((Productions.Unfolds.iff_of_extends hextends hus _).mpr hown)
  -- and so is the body that it is put into
  rw [hi.productions, Productions.inlined] at hx
  split at hx
  · cases hx
  · obtain ⟨vs, hvs, rfl⟩ := Option.map_eq_some_iff.mp hx
    obtain ⟨ts, hts, huts⟩ := h.bodies x vs hvs
    refine ⟨ts, hts, (Productions.Unfolds.iff_of_extends hextends huts _).mpr ?_⟩
    exact hput.spliced fun y hy hne => hrest y hne (huts.stuck hy)

/-- **One inlining keeps the invariant.** -/
theorem Partway.inlined (h : g₀.Partway g) (hi : g.Inlined id b g')
    (hb : g.rules.get? id = some b) (hs : id ≠ g.start) (hone : g.occurrences id ≤ 1) :
    g₀.Partway g' where
  start := by rw [hi.start, h.start]
  keys := by
    have hkeys : g.rules.keys.filter (fun x => x ≠ id) =
        g₀.rules.keys.filter fun x => x ∈ g'.rules.keys := by
      rw [h.keys, List.filter_filter]
      apply List.filter_congr
      intro x _
      rw [← Bool.decide_and, decide_eq_decide, hi.mem_keys, and_comm]
    exact hi.keys.trans hkeys
  acyclic := by
    rw [hi.productions]
    exact Productions.acyclic_inlined h.acyclic (productionsOf_of_get? hb)
  gone := by
    intro x hx hn
    by_cases hg : x ∈ g.rules.keys
    · by_cases he : x = id
      · -- it is the rule that was inlined now
        subst he
        have hle := g.liveOccurrences_le x
        rw [h.live x hg] at hle
        rintro (he | htwo)
        · exact hs (he.trans h.start.symm)
        · omega
      · exact absurd (hi.mem_keys.mpr ⟨hg, he⟩) hn
    · exact h.gone x hx hg
  live := by
    intro x hx
    obtain ⟨hg, hne⟩ := hi.mem_keys.mp hx
    have hself := h.acyclic.not_refers_self id
    rw [hi.liveOccurrences_eq hb hs hself hone hne, h.live x hg]
  bodies _ _ hx := h.bodies_inlined hi hb hx

/-- On the way the next reducible rule is never refused. -/
theorem Partway.inlineRule (h : g₀.Partway g) (hid : g.nextReducible = some id) :
    (∃ sites, (g.inlineRule id).answer = .ok sites) ∧ g₀.Partway (g.inlineRule id).grammar := by
  obtain ⟨⟨b, hb⟩, hs, hone⟩ := nextReducible_eq_some hid
  have hself := h.acyclic.not_refers_self id
  refine ⟨?_, h.inlined (inlined_inlineRule hb hs hself) hb hs hone⟩
  rw [inlineRule_of_get? hb hs hself]
  exact ⟨_, rfl⟩

/-- **A run of the loop keeps the invariant, and it is never refused.** -/
theorem Partway.inlineAll (h : g₀.Partway g) :
    ∃ n, g.inlineAll.answer = .ok n ∧ n + g.inlineAll.grammar.size = g.size ∧
      g₀.Partway g.inlineAll.grammar ∧ g.inlineAll.grammar.nextReducible = none := by
  fun_induction Grammar.inlineAll g with
  | case1 g hnone => exact ⟨0, rfl, Nat.zero_add _, h, hnone⟩
  | case2 g id hid step e he =>
    obtain ⟨⟨sites, hok⟩, -⟩ := h.inlineRule hid
    rw [he] at hok
    cases hok
  | case3 g id hid step sites hok rest ih =>
    obtain ⟨n, hn, hsize, hpart, hend⟩ := ih (h.inlineRule hid).2
    have hless := size_inlineRule hok
    refine ⟨n + 1, ?_, ?_, hpart, hend⟩
    · show rest.answer.map (· + 1) = _
      rw [hn]
      rfl
    · show n + 1 + step.grammar.inlineAll.grammar.size = g.size
      have : step.grammar.size + 1 = g.size := hless
      omega

/-! ## Where the loop ends -/

theorem two_le_occurrences_of_irreducible (hend : g.nextReducible = none) {x : N}
    (hx : x ∈ g.rules.keys) (hs : x ≠ g.start) : 2 ≤ g.occurrences x := by
  rw [nextReducible_eq] at hend
  have htest := List.find?_eq_none.mp hend x hx
  simp only [ne_eq, decide_not, Bool.and_eq_true, Bool.not_eq_true', decide_eq_false_iff_not,
    decide_eq_true_eq, not_and, Nat.not_le] at htest
  exact htest hs

/-- **Where the loop ends every rule is live.** A rule that no rule refers to would be reducible,
and going back from rule to rule ends, without loops, at the start symbol. -/
theorem reaches_of_irreducible (hac : g.productions.Acyclic) (hend : g.nextReducible = none) {x : N}
    (hx : x ∈ g.rules.keys) : g.productions.Reaches g.start x := by
  have key : ∀ path : List N, ∀ y ∈ g.rules.keys,
      (∀ p ∈ path, Relation.TransGen g.productions.Refers y p) →
        g.productions.Reaches g.start y := by
    refine path_induction g.rules fun path ih => ?_
    intro y hy hpath
    by_cases hs : y = g.start
    · rw [hs]
      exact .refl _
    · have htwo := two_le_occurrences_of_irreducible hend hy hs
      have hpos : 0 < g.occurrences y := by omega
      rw [occurrences_eq, occurrencesWhere_pos_iff] at hpos
      obtain ⟨⟨z, b⟩, hr, -, hyb⟩ := hpos
      have hb : g.rules.get? z = some b := OrderedMap.get?_eq_some_iff.mpr hr
      have hzy : g.productions.Refers z y := refers_of_mem_references hb hyb
      have hnew : y ∉ path := fun hy => hac y (hpath y hy)
      refine (ih y hy hnew z (OrderedMap.mem_keys_of_get? hb) fun p hp => ?_).tail hzy
      rcases List.mem_cons.mp hp with rfl | hp
      · exact .single hzy
      · exact .head hzy (hpath p hp)
  exact key [] x hx nofun

theorem survives_of_irreducible (hac : g.productions.Acyclic) (hend : g.nextReducible = none)
    {x : N} (hx : x ∈ g.rules.keys) : g.Survives x := by
  by_cases hs : x = g.start
  · exact .inl hs
  · have hlive : g.liveOccurrences x = g.occurrences x := by
      rw [occurrences_eq]
      refine occurrencesWhere_congr fun r hr => decide_eq_true ?_
      exact reaches_of_irreducible hac hend (List.mem_map_of_mem hr)
    exact .inr (hlive ▸ two_le_occurrences_of_irreducible hend hx hs)

/-! ## The result -/

/-- `g'` is what a reduction leaves of `g`: the rules that survive, in their order, each with its
old body in which the rules that do not survive are unfolded. -/
structure Reduced (g g' : Grammar T N) : Prop where
  start : g'.start = g.start
  keys : g'.rules.keys = g.rules.keys.filter fun x => g.Survives x
  bodies : ∀ x us, g'.productions x = some us ↔
    g.Survives x ∧ ∃ ss, g.productions x = some ss ∧ g.dissolving.Unfolds ss us

/-- At the end of the loop exactly the rules that do not survive are gone. -/
theorem Partway.mem_keys_iff (h : g₀.Partway g) (hend : g.nextReducible = none) {x : N} :
    x ∈ g.rules.keys ↔ x ∈ g₀.rules.keys ∧ g₀.Survives x := by
  constructor
  · intro hx
    have hold : x ∈ g₀.rules.keys := by
      rw [h.keys] at hx
      exact (List.mem_filter.mp hx).1
    rcases survives_of_irreducible h.acyclic hend hx with hs | htwo
    · exact ⟨hold, .inl (hs.trans h.start)⟩
    · rw [h.live x hx] at htwo
      exact ⟨hold, .inr htwo⟩
  · rintro ⟨hold, hs⟩
    by_cases hx : x ∈ g.rules.keys
    · exact hx
    · exact absurd hs (h.gone x hold hx)

theorem Partway.dissolved_eq (h : g₀.Partway g) (hend : g.nextReducible = none) :
    g₀.dissolved g = g₀.dissolving := by
  funext x
  by_cases hold : x ∈ g₀.rules.keys
  · by_cases hs : g₀.Survives x
    · rw [dissolved, dissolving, if_pos ((h.mem_keys_iff hend).mpr ⟨hold, hs⟩), if_pos hs]
    · rw [dissolved, dissolving, if_neg fun hx => hs ((h.mem_keys_iff hend).mp hx).2, if_neg hs]
  · have hnone : g₀.productions x = none :=
      productionsOf_eq_none_iff.mpr (OrderedMap.get?_eq_none_iff.mpr hold)
    rw [dissolved, dissolving, hnone, ite_self, ite_self]

theorem Partway.reduced (h : g₀.Partway g) (hend : g.nextReducible = none) : g₀.Reduced g where
  start := h.start
  keys := by
    refine h.keys.trans (List.filter_congr fun x hx => ?_)
    rw [decide_eq_decide, h.mem_keys_iff hend]
    exact and_iff_right hx
  bodies := by
    intro x us
    rw [← h.dissolved_eq hend]
    constructor
    · intro hx
      have hkey : x ∈ g.rules.keys := mem_keys_of_productionsOf hx
      exact ⟨((h.mem_keys_iff hend).mp hkey).2, h.bodies x us hx⟩
    · rintro ⟨hs, ss, hss, hus⟩
      have hold : x ∈ g₀.rules.keys := mem_keys_of_productionsOf hss
      have hkey : x ∈ g.rules.keys := (h.mem_keys_iff hend).mpr ⟨hold, hs⟩
      obtain ⟨vs, hvs⟩ := Option.isSome_iff_exists.mp (isSome_productionsOf_iff.mpr hkey)
      obtain ⟨ss', hss', hvs'⟩ := h.bodies x vs hvs
      rw [hss] at hss'
      cases hss'
      rw [hus.unique hvs']
      exact hvs

/-- Without loops a reduction is its loop, and a report of the sizes. -/
theorem reduce_of_acyclic (hac : g.productions.Acyclic) {n : Nat}
    (hn : g.inlineAll.answer = .ok n) :
    g.reduce = ⟨.ok n, g.inlineAll.grammar,
      g.inlineAll.records ++ [.reduced g.size g.inlineAll.grammar.size n]⟩ := by
  rw [reduce, (checkAcyclic_eq_ok_iff g).mpr hac]
  simp only [hn]

/-- A reduction of a grammar without loops runs to the end. -/
theorem reduce_partway (hac : g.productions.Acyclic) :
    ∃ n, g.reduce.answer = .ok n ∧ n + g.reduce.grammar.size = g.size ∧
      g.Partway g.reduce.grammar ∧ g.reduce.grammar.nextReducible = none := by
  obtain ⟨n, hn, hsize, hpart, hend⟩ := (Partway.refl hac).inlineAll
  rw [reduce_of_acyclic hac hn]
  exact ⟨n, rfl, hsize, hpart, hend⟩

/-- A reduction that is not refused had no loops to deal with. -/
theorem acyclic_of_reduce {n : Nat} (h : g.reduce.answer = .ok n) : g.productions.Acyclic := by
  rw [← checkAcyclic_eq_ok_iff]
  unfold reduce at h
  split at h
  · cases h
  · assumption

/-- **What a reduction answers and what it leaves.** -/
theorem reduce_reduced (hac : g.productions.Acyclic) :
    g.reduce.answer = .ok (g.rules.keys.filter fun x => ¬ g.Survives x).length ∧
      g.Reduced g.reduce.grammar := by
  obtain ⟨n, hn, hsize, hpart, hend⟩ := reduce_partway hac
  have hred := hpart.reduced hend
  refine ⟨?_, hred⟩
  have hsplit :=
    List.length_eq_countP_add_countP (fun x => decide (g.Survives x)) (l := g.rules.keys)
  rw [size, size, OrderedMap.size_eq_length_keys, OrderedMap.size_eq_length_keys,
    hred.keys] at hsize
  have hcount : n = (g.rules.keys.filter fun x => ¬ g.Survives x).length := by
    rw [← List.countP_eq_length_filter] at hsize ⊢
    simp only [decide_not, Bool.decide_eq_true] at hsplit ⊢
    omega
  rw [hn, hcount]

/-! ## The order of the rules -/

/-- Rules with the same bodies have the same names, perhaps in another order. -/
theorem perm_keys {rules rules' : OrderedMap N (Body T N)}
    (h : productionsOf rules = productionsOf rules') : rules.keys.Perm rules'.keys := by
  apply (List.perm_ext_iff_of_nodup rules.nodup_keys rules'.nodup_keys).mpr
  intro x
  rw [← isSome_productionsOf_iff, ← isSome_productionsOf_iff, h]

/-- Which rules survive is a matter of the start symbol and the bodies alone. -/
theorem survives_congr (hs : g.start = g'.start)
    (h : productionsOf g.rules = productionsOf g'.rules) : g.Survives = g'.Survives := by
  have hlive : ∀ x, g.liveOccurrences x = g'.liveOccurrences x := by
    intro x
    rw [liveOccurrences, liveOccurrences, occurrencesWhere_eq_keys, occurrencesWhere_eq_keys, hs,
      productions, productions, h]
    exact (((perm_keys h).filter _).map _).sum_nat
  funext x
  rw [Survives, Survives, hs, hlive]

/-- **The closed form of a reduction.** On a grammar without loops, also on one with names that have
no rule, without a rule for the start symbol or with rules that it does not reach, the answer is the
number of rules that do not survive. The others stay in their order, and their bodies are the old
ones in which the rules that do not survive are unfolded. So the answer and the rules that are left
do not depend on the order of the rules. -/
theorem reduce_closed_form (g : Grammar T N) (hac : g.productions.Acyclic) :
    g.reduce.answer = .ok (g.rules.keys.filter fun x => ¬ g.Survives x).length ∧
    g.reduce.grammar.start = g.start ∧
    g.reduce.grammar.rules.keys = g.rules.keys.filter (fun x => g.Survives x) ∧
    (∀ x us, g.reduce.grammar.productions x = some us ↔
      g.Survives x ∧ ∃ ss, g.productions x = some ss ∧ g.dissolving.Unfolds ss us) ∧
    ∀ g' : Grammar T N, g'.start = g.start → g'.productions = g.productions →
      g'.reduce.answer = g.reduce.answer ∧ g'.reduce.grammar.start = g.reduce.grammar.start ∧
        g'.reduce.grammar.productions = g.reduce.grammar.productions := by
  obtain ⟨hanswer, hred⟩ := reduce_reduced hac
  refine ⟨hanswer, hred.start, hred.keys, hred.bodies, fun g' hs hP => ?_⟩
  have hac' : g'.productions.Acyclic := by rwa [hP]
  obtain ⟨hanswer', hred'⟩ := reduce_reduced hac'
  have hsurvives : g'.Survives = g.Survives := survives_congr hs hP
  refine ⟨?_, ?_, ?_⟩
  · rw [hanswer, hanswer', hsurvives, ((perm_keys hP).filter _).length_eq]
  · rw [hred.start, hred'.start, hs]
  · have hdissolving : g'.dissolving = g.dissolving := by
      funext x
      rw [dissolving, dissolving, hsurvives, hP]
    funext x
    apply Option.ext
    intro us
    rw [hred.bodies x us, hred'.bodies x us, hsurvives, hdissolving, hP]

/-- Two references to `1`, one to `2`, a name without a rule and a rule that is not reached. -/
def sharedLetter : Grammar Char Nat :=
  let g := ofStart 0
  let g := (g.addRule 3 (.ofList [.nonterminal 1])).2
  let g := (g.addRule 0 (.ofList [.nonterminal 1, .nonterminal 2, .nonterminal 1])).2
  let g := (g.addRule 1 (.ofList [.terminal 'a'])).2
  (g.addRule 2 (.ofList [.nonterminal 9, .terminal 'b'])).2

/-- The run shows which rules survive, although being live is not a test that a program makes. -/
theorem reduce_closed_form_sharedLetter :
    sharedLetter.productions.Acyclic ∧
      ∀ x ∈ sharedLetter.rules.keys, sharedLetter.Survives x ↔ x ∈ [0, 1] := by
  have hac : sharedLetter.productions.Acyclic :=
    (checkAcyclic_eq_ok_iff sharedLetter).mp (by cbv)
  refine ⟨hac, fun x hx => ?_⟩
  obtain ⟨-, -, hkeys, -⟩ := reduce_closed_form sharedLetter hac
  have hrun : sharedLetter.reduce.grammar.rules.keys = [0, 1] := by decide +kernel
  rw [← hrun, hkeys, List.mem_filter, decide_eq_true_eq]
  exact (and_iff_right hx).symm

end Grammar

end StraightLine
