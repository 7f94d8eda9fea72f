import StraightLine.Proofs.InlineMeaning
import StraightLine.Proofs.Refusal

/-!
# The accounts of an inlining and of a reduction

Three quantities are kept by different means: the number of symbols in all bodies, the census of the
references, and the number of places that an inlining answers. This file ties them together. The
accounts are stated without subtraction first, so that nothing in them can be cut off at zero.

* `Grammar.symbols_inlineRule` — the symbols: the body of the rule goes away, and every place gives
  up one symbol and receives the body.
* `Grammar.referenceCount_inlineRule` — the census: every place but one adds what the body refers to.
* `Grammar.pass_account` — in a pass of a reduction there is at most one place, so nothing grows.
  `Grammar.passes_account` carries what is saved along all passes.
* `Grammar.size_accounting` — **all accounts together.**
-/

namespace StraightLine

open Relation (ReflTransGen)

variable {T N : Type} [DecidableEq N]

namespace Grammar

/-! ## The symbols of a grammar -/

omit [DecidableEq N] in
theorem symbols_eq (g : Grammar T N) :
    g.stats.symbols = (g.rules.entries.map fun r => r.2.size).sum := by
  show (g.rules.values.map Sequence.size).sum = _
  rw [OrderedMap.values, List.map_map]
  rfl

/-- Every reference that is replaced gives up its own place and takes that of the new symbols. -/
theorem size_substitute (b : Body T N) (id : N) (xs : List (Symbol T N)) :
    (Body.substitute b id xs).2.size + Body.count b id =
      b.size + Body.count b id * xs.length := by
  rw [Sequence.size_eq_length_toList, Sequence.size_eq_length_toList, Body.toList_substitute,
    Body.count]
  induction b.toList with
  | nil => simp
  | cons s ss ih =>
    rw [List.flatMap_cons, List.length_append, List.length_cons, List.countP_cons]
    by_cases hs : s.refersTo id = true
    · simp only [hs, if_true, Nat.add_mul]
      omega
    · simp only [hs, if_false, Bool.false_eq_true, List.length_singleton, Nat.add_zero]
      omega

theorem symbols_substitute (g : Grammar T N) (id : N) (xs : List (Symbol T N)) :
    (g.substitute id xs).2.stats.symbols + g.occurrences id =
      g.stats.symbols + g.occurrences id * xs.length := by
  rw [symbols_eq, symbols_eq, entries_substitute, occurrences_eq]
  induction g.rules.entries with
  | nil => simp
  | cons r rules ih =>
    have hr := size_substitute r.2 id xs
    simp only [List.map_cons, List.sum_cons, occurrencesWhere_cons, if_true, Nat.add_mul]
    omega

variable {g : Grammar T N} {id : N} {b : Body T N} {n : Nat}

theorem symbols_dropRule (hb : g.rules.get? id = some b) :
    (g.dropRule id).stats.symbols + b.size = g.stats.symbols := by
  have hperm := OrderedMap.perm_entries_erase (OrderedMap.get?_eq_some_iff.mp hb)
  rw [symbols_eq, symbols_eq, (hperm.map fun r => r.2.size).sum_nat, List.map_cons, List.sum_cons,
    Nat.add_comm]
  rfl

theorem occurrences_dropRule (hb : g.rules.get? id = some b) (x : N) :
    (g.dropRule id).occurrences x + Body.count b x = g.occurrences x := by
  have hmem : (id, b) ∈ g.rules.entries := OrderedMap.get?_eq_some_iff.mp hb
  rw [occurrences_eq, occurrences_eq, occurrencesWhere_erase hmem, if_pos rfl]
  rfl

/-! ## One inlining -/

/-- What is known of an inlining that answers `n`. -/
theorem inlineRule_answers (hb : g.rules.get? id = some b)
    (h : (g.inlineRule id).answer = .ok n) :
    id ≠ g.start ∧ g.occurrences id = n ∧ Body.count b id = 0 ∧
      (g.inlineRule id).grammar = ((g.dropRule id).substitute id b.toList).2 := by
  obtain ⟨-, hs, hself⟩ := inlineRule_eq_ok h
  have hrule := inlineRule_of_get? hb hs hself
  have hown : Body.count b id = 0 := by
    rw [Body.count_eq, List.count_eq_zero]
    exact fun hid => hself (refers_of_mem_references hb hid)
  have hsites : (g.dropRule id).occurrences id = n := by
    rw [← substitute_fst _ _ b.toList]
    rw [hrule] at h
    exact Except.ok.inj h
  have hdrop := occurrences_dropRule hb id
  exact ⟨hs, by omega, hown, by rw [hrule]⟩

/-- **The account of the symbols.** -/
theorem symbols_inlineRule (hb : g.rules.get? id = some b)
    (h : (g.inlineRule id).answer = .ok n) :
    (g.inlineRule id).grammar.stats.symbols + b.size + n = g.stats.symbols + n * b.size := by
  obtain ⟨-, hsites, hown, hgrammar⟩ := inlineRule_answers hb h
  have hdrop := symbols_dropRule hb
  have hoccurrences := occurrences_dropRule hb id
  have hput := symbols_substitute (g.dropRule id) id b.toList
  obtain rfl : (g.dropRule id).occurrences id = n := by omega
  rw [hgrammar, ← hdrop]
  rw [← Sequence.size_eq_length_toList] at hput
  omega

/-- **The account of the census.** -/
theorem referenceCount_inlineRule (hb : g.rules.get? id = some b)
    (h : (g.inlineRule id).answer = .ok n) {y : N} (hy : y ≠ id) (hs : y ≠ g.start) :
    (g.inlineRule id).grammar.referenceCount y + Body.count b y =
      g.referenceCount y + n * Body.count b y := by
  obtain ⟨-, hsites, hown, hgrammar⟩ := inlineRule_answers hb h
  have hdrop := occurrences_dropRule hb y
  have hoccurrences := occurrences_dropRule hb id
  have hput := occurrences_substitute (g.dropRule id) id y b.toList
  have hs' : y ≠ (g.inlineRule id).grammar.start := by rwa [hgrammar]
  obtain rfl : (g.dropRule id).occurrences id = n := by omega
  rw [referenceCount_of_ne _ hs', referenceCount_of_ne _ hs, hgrammar, hput, if_neg hy, ← Body.count]
  omega

/-! ## A reduction -/

/-- **The account of one pass.** The rule that is picked has at most one place. So no count of
another name grows, and neither does the number of symbols: with one place one symbol is saved, with
none the body of the rule is. -/
theorem pass_account (hid : g.nextReducible = some id) (hb : g.rules.get? id = some b)
    (h : (g.inlineRule id).answer = .ok n) :
    n ≤ 1 ∧ (∀ y, y ≠ id → (g.inlineRule id).grammar.referenceCount y ≤ g.referenceCount y) ∧
    (g.inlineRule id).grammar.stats.symbols ≤ g.stats.symbols ∧
    (n = 1 → (g.inlineRule id).grammar.stats.symbols + 1 = g.stats.symbols) ∧
    (n = 0 → (g.inlineRule id).grammar.stats.symbols + b.size = g.stats.symbols) := by
  obtain ⟨-, -, hone⟩ := nextReducible_eq_some hid
  obtain ⟨-, hsites, -, hgrammar⟩ := inlineRule_answers hb h
  have hle : n ≤ 1 := hsites ▸ hone
  have hsymbols := symbols_inlineRule hb h
  refine ⟨hle, fun y hy => ?_, ?_⟩
  · by_cases hs : y = g.start
    · have hs' : y = (g.inlineRule id).grammar.start := by rw [hs, hgrammar]; rfl
      exact Nat.le_of_eq (by rw [hs', referenceCount_start, ← hs', hs, referenceCount_start])
    · have hcount := referenceCount_inlineRule hb h hy hs
      have hplaces := Nat.mul_le_mul_right (Body.count b y) hle
      omega
  · rcases Nat.le_one_iff_eq_zero_or_eq_one.mp hle with rfl | rfl
    · refine ⟨?_, ?_, ?_⟩ <;> omega
    · refine ⟨?_, ?_, ?_⟩ <;> omega

/-- Without empty bodies every pass saves a symbol, and it leaves no empty body. -/
theorem pass_saves (hfull : ∀ x, g.productions x ≠ some []) (hid : g.nextReducible = some id)
    (h : (g.inlineRule id).answer = .ok n) :
    (g.inlineRule id).grammar.stats.symbols + 1 ≤ g.stats.symbols ∧
      ∀ x, (g.inlineRule id).grammar.productions x ≠ some [] := by
  obtain ⟨⟨b, hb⟩, hs, hself⟩ := inlineRule_eq_ok h
  have hbody : b.toList ≠ [] := by
    intro hnil
    exact hfull id (hnil ▸ productionsOf_of_get? hb)
  constructor
  · obtain ⟨hle, -, -, hone, hzero⟩ := pass_account hid hb h
    have hsize : 0 < b.size := by
      rw [Sequence.size_eq_length_toList]
      exact List.length_pos_iff.mpr hbody
    rcases Nat.le_one_iff_eq_zero_or_eq_one.mp hle with rfl | rfl
    · have := hzero rfl
      omega
    · exact Nat.le_of_eq (hone rfl)
  · intro x hx
    rw [(inlined_inlineRule hb hs hself).productions, Productions.inlined] at hx
    split at hx
    · cases hx
    · obtain ⟨ss, hss, hnil⟩ := Option.map_eq_some_iff.mp hx
      exact spliced_ne_nil hbody (fun he => hfull x (he ▸ hss)) hnil

/-- **The account of all passes.** For every rule that is gone at least one symbol is saved. -/
theorem passes_account (hac : g.productions.Acyclic) (hfull : ∀ x, g.productions x ≠ some [])
    {g' : Grammar T N} (hp : ReflTransGen Passes g g') :
    g'.stats.symbols + g.size ≤ g.stats.symbols + g'.size ∧
      ∀ x, g'.productions x ≠ some [] := by
  induction hp with
  | refl => exact ⟨Nat.le_refl _, hfull⟩
  | @tail h _ hgh hpass ih =>
    obtain ⟨id, hid, rfl⟩ := hpass
    obtain ⟨⟨n, hn⟩, -⟩ := ((Partway.refl hac).passes hgh).inlineRule hid
    obtain ⟨hless, hfull'⟩ := pass_saves ih.2 hid hn
    have hsize := size_inlineRule hn
    exact ⟨by omega, hfull'⟩

/-- **Size accounting.** On every grammar, if the inlining of a rule with the body `b` answers `n`,
there is one rule less; the symbols lose the length of `b` and gain, for each of the `n` places, this
length less one; and the count of every other name but the start symbol changes by `n - 1` times the
number of references to it in `b`. In every pass of a successful reduction there is at most one
place. No count of a rule that is left grows then, and the symbols do not: with one place they get
less by exactly one, with none by exactly the length of the body. So if no body is empty, the symbols
that are left and the answer of the reduction together are at most the symbols that there were. -/
theorem size_accounting (g : Grammar T N) :
    (∀ id b n, g.rules.get? id = some b → (g.inlineRule id).answer = .ok n →
      let g' := (g.inlineRule id).grammar
      g'.stats.rules + 1 = g.stats.rules ∧
      (g'.stats.symbols : Int) = g.stats.symbols - b.size + n * (b.size - 1) ∧
      ∀ y, y ≠ id → y ≠ g.start →
        (g'.referenceCount y : Int) = g.referenceCount y + (n - 1) * Body.count b y) ∧
    ∀ total, g.reduce.answer = .ok total →
      ReflTransGen Passes g g.reduce.grammar ∧
      (∀ h, ReflTransGen Passes g h → ∀ id, h.nextReducible = some id →
        ∃ b n, h.rules.get? id = some b ∧ (h.inlineRule id).answer = .ok n ∧ n ≤ 1 ∧
          let h' := (h.inlineRule id).grammar
          (∀ y, y ≠ id → h'.referenceCount y ≤ h.referenceCount y) ∧
          h'.stats.symbols ≤ h.stats.symbols ∧
          (n = 1 → h'.stats.symbols + 1 = h.stats.symbols) ∧
          (n = 0 → h'.stats.symbols + b.size = h.stats.symbols)) ∧
      ((∀ x, g.productions x ≠ some []) →
        g.reduce.grammar.stats.symbols + total ≤ g.stats.symbols) := by
  refine ⟨fun id b n hb h => ⟨size_inlineRule h, ?_, fun y hy hs => ?_⟩,
    fun total htotal => ?_⟩
  · have hsymbols := symbols_inlineRule hb h
    rw [Int.mul_sub, Int.mul_one, ← Int.natCast_mul]
    omega
  · have hcount := referenceCount_inlineRule hb h hy hs
    rw [Int.sub_mul, Int.one_mul, ← Int.natCast_mul]
    omega
  · have hac := acyclic_of_reduce htotal
    refine ⟨passes_reduce hac, fun h hgh id hid => ?_, fun hfull => ?_⟩
    · obtain ⟨⟨b, hb⟩, -⟩ := nextReducible_eq_some hid
      obtain ⟨⟨n, hn⟩, -⟩ := ((Partway.refl hac).passes hgh).inlineRule hid
      exact ⟨b, n, hb, hn, pass_account hid hb hn⟩
    · obtain ⟨hsaved, -⟩ := passes_account hac hfull (passes_reduce hac)
      obtain ⟨m, hm, hsize, -⟩ := reduce_partway hac
      rw [htotal] at hm
      cases hm
      omega

/-- A rule with one place hands a reference on, and a rule that is not used has two symbols. -/
def handedOn : Grammar Char Nat :=
  let g := ofStart 0
  let g := (g.addRule 0 (.ofList [.nonterminal 2, .nonterminal 2, .nonterminal 1])).2
  let g := (g.addRule 2 (.ofList [.nonterminal 3, .terminal 'x'])).2
  let g := (g.addRule 4 (.ofList [.nonterminal 1, .terminal 'z'])).2
  let g := (g.addRule 3 (.ofList [.nonterminal 1, .terminal 'y'])).2
  (g.addRule 1 (.ofList [.terminal 'a', .terminal 'b'])).2

/-- The unused rule takes its two symbols and its reference with it, and the whole reduction saves a
symbol more than there are rules that go away. -/
theorem size_accounting_handedOn :
    (handedOn.inlineRule 4).answer = .ok 0 ∧
      ((handedOn.inlineRule 4).grammar.stats.symbols : Int) = 11 - 2 + 0 * (2 - 1) ∧
      ((handedOn.inlineRule 4).grammar.referenceCount 1 : Int) = 3 + (0 - 1) * 1 ∧
      handedOn.reduce.answer = .ok 2 ∧ handedOn.reduce.grammar.stats.symbols + 2 ≤ 11 := by
  have hb : handedOn.rules.get? 4 = some (.ofList [.nonterminal 1, .terminal 'z']) := rfl
  have hn : (handedOn.inlineRule 4).answer = .ok 0 := by decide +kernel
  have htotal : handedOn.reduce.answer = .ok 2 := by cbv
  have hsymbols : handedOn.stats.symbols = 11 := by decide +kernel
  have hcount : handedOn.referenceCount 1 = 3 := by decide +kernel
  have hfull : ∀ x, handedOn.productions x ≠ some [] := by
    intro x hx
    have hkeys : ∀ r ∈ handedOn.rules.entries, r.2.toList ≠ [] := by decide +kernel
    obtain ⟨b, hb, hnil⟩ := productionsOf_eq_some_iff.mp hx
    exact hkeys _ (OrderedMap.get?_eq_some_iff.mp hb) hnil
  obtain ⟨hone, hall⟩ := size_accounting handedOn
  obtain ⟨-, hlost, hcounts⟩ := hone 4 _ 0 hb hn
  have hsaved := (hall 2 htotal).2.2 hfull
  rw [hsymbols] at hlost hsaved
  have hkept := hcounts 1 (by decide) (by decide)
  rw [hcount] at hkept
  exact ⟨hn, hlost, hkept, htotal, hsaved⟩

end Grammar

end StraightLine
