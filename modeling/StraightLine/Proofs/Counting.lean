import StraightLine.Proofs.Accounts

/-!
# Four ways of counting references

How often a name is referred to is counted in four places: the census goes over all bodies once, a
deletion adds up the other bodies, a substitution counts the places that it collected, and an
inlining counts them after the rule is gone. They treat the references of a rule to itself
differently, and yet they have to agree, or a reduction would pick rules that an inlining refuses.

* `Grammar.mem_keys_referenceCounts` — the names that have an entry in the census, and
  `Grammar.get?_referenceCounts` — what the entries are.
* `Grammar.outerOccurrences_add_count` — the references in the other bodies and those of the rule to
  itself are all there are.
* `Grammar.deleteRule_cases` — the two ways in which the deletion of another rule than the start
  symbol's can end, and `Grammar.derives_dropRule_iff` — a rule that no other one refers to can go
  away and no other name notices, also if it refers to itself.
* `Grammar.counts_agree` — **all the counts are one.**
-/

namespace StraightLine

variable {T N : Type} [DecidableEq N]

namespace Grammar

/-! ## The entries of the census -/

theorem mem_keys_foldl_tally (xs : List N) (counts : OrderedMap N Nat) (x : N) :
    x ∈ (xs.foldl tally counts).keys ↔ x ∈ counts.keys ∨ x ∈ xs := by
  induction xs generalizing counts with
  | nil => simp
  | cons y xs ih =>
    rw [List.foldl_cons, ih, tally, OrderedMap.mem_keys_insert, List.mem_cons]
    tauto

theorem exists_refers_iff (g : Grammar T N) (x : N) :
    (∃ y, g.productions.Refers y x) ↔ x ∈ g.rules.values.flatMap Body.references := by
  rw [List.mem_flatMap]
  constructor
  · rintro ⟨y, hyx⟩
    obtain ⟨b, hb, hx⟩ := refers_productionsOf_iff.mp hyx
    exact ⟨b, List.mem_map_of_mem (OrderedMap.get?_eq_some_iff.mp hb), hx⟩
  · rintro ⟨b, hb, hx⟩
    obtain ⟨⟨y, b⟩, hr, rfl⟩ := List.mem_map.mp hb
    exact ⟨y, refers_of_mem_references (OrderedMap.get?_eq_some_iff.mpr hr) hx⟩

/-- **The census has an entry for each rule, each name that is referred to and the start symbol**,
and for nothing else. -/
theorem mem_keys_referenceCounts (g : Grammar T N) (x : N) :
    x ∈ g.referenceCounts.keys ↔
      x ∈ g.rules.keys ∨ (∃ y, g.productions.Refers y x) ∨ x = g.start := by
  rw [referenceCounts, OrderedMap.mem_keys_insert, mem_keys_foldl_tally, OrderedMap.keys_map,
    exists_refers_iff]
  tauto

theorem get?_referenceCounts_start (g : Grammar T N) : g.referenceCounts.get? g.start = some 2 := by
  rw [referenceCounts, OrderedMap.get?_insert, if_pos rfl]

/-- Every other entry is the number of references in all bodies. -/
theorem get?_referenceCounts (g : Grammar T N) {x : N} (hx : x ∈ g.referenceCounts.keys)
    (hs : x ≠ g.start) : g.referenceCounts.get? x = some (g.occurrences x) := by
  have hcount := g.referenceCount_of_ne hs
  obtain ⟨c, hc⟩ := Option.isSome_iff_exists.mp (OrderedMap.contains_iff.mpr hx)
  rw [referenceCount, hc] at hcount
  rw [hc, ← hcount]
  rfl

/-! ## One rule and the others -/

variable {g : Grammar T N} {x : N} {b : Body T N}

/-- All the references to a rule are those of the other bodies and its own. -/
theorem outerOccurrences_add_count (hb : g.rules.get? x = some b) :
    g.outerOccurrences x + Body.count b x = g.occurrences x := by
  rw [← substitute_dropRule_fst g x [], substitute_fst, occurrences_dropRule hb]

/-- The deletion of another rule than the start symbol's is done, or it is refused since other
bodies refer to the rule. -/
theorem deleteRule_cases (hb : g.rules.get? x = some b) (hs : x ≠ g.start) :
    (g.outerOccurrences x = 0 ∧
        g.deleteRule x = ⟨.ok b, (g.dropRule x).forget, [.deleting x]⟩) ∨
      (g.outerOccurrences x ≠ 0 ∧
        g.deleteRule x = .refuse g (.stillReferenced x (g.outerOccurrences x))) := by
  unfold deleteRule
  rw [hb]
  by_cases hzero : g.outerOccurrences x = 0
  · exact .inl ⟨hzero, by simp [hs, hzero]⟩
  · exact .inr ⟨hzero, by simp [hs, hzero]⟩

/-- Without a rule that no other one refers to, the other names derive what they did. -/
theorem derives_dropRule_iff (hfree : ∀ z, z ≠ x → ¬ g.productions.Refers z x) {y : N} (hy : y ≠ x)
    (w : List T) : (g.dropRule x).productions.Derives y w ↔ g.productions.Derives y w := by
  have hsame : ∀ z, z ≠ x → (g.dropRule x).productions z = g.productions z := by
    intro z hz
    rw [productions_dropRule, if_neg hz]
  -- the other rules refer to each other alone, and both grammars have them
  have hclosed : ∀ z u, z ≠ x → (g.dropRule x).productions.Refers z u → u ≠ x := by
    rintro z u hz ⟨ss, hss, hu⟩ rfl
    rw [hsame z hz] at hss
    exact hfree z hz ⟨ss, hss, hu⟩
  unfold Productions.Derives
  rw [hsame y hy]
  refine exists_congr fun ss => and_congr_right fun hss => ?_
  refine Productions.Yields.congr hsame hclosed (fun u hu => ?_) w
  exact hclosed y u hy ⟨ss, by rw [hsame y hy, hss], hu⟩

/-- What an accepted deletion leaves: no body refers to the name, and the other names derive the
words that they derived before. -/
theorem productions_deleteRule (h : (g.deleteRule x).answer = .ok b) :
    (∀ y, ¬ (g.deleteRule x).grammar.productions.Refers y x) ∧
      ∀ y, y ≠ x → ∀ w, (g.deleteRule x).grammar.productions.Derives y w ↔
        g.productions.Derives y w := by
  obtain ⟨hb, hs, hfree⟩ := deleteRule_eq_ok h
  have hzero := (outerOccurrences_eq_zero_iff g x).mpr hfree
  have hgrammar : (g.deleteRule x).grammar = (g.dropRule x).forget := by
    rcases deleteRule_cases hb hs with ⟨-, hd⟩ | ⟨hne, -⟩
    · rw [hd]
    · exact absurd hzero hne
  rw [hgrammar]
  refine ⟨fun y hyx => ?_, fun y hy w => derives_dropRule_iff hfree hy w⟩
  obtain ⟨ss, hss, hx⟩ := hyx
  have hold : (g.dropRule x).productions y = some ss := hss
  rw [productions_dropRule] at hold
  split at hold
  · cases hold
  · next hy => exact hfree y hy ⟨ss, hold, hx⟩

/-! ## The agreement -/

/-- **All the counts are one.** On every grammar the census has an entry for each rule, each name
that is referred to and the start symbol; the start symbol has `2` there, and every other name the
number of references in all bodies, its own included. For a rule other than the start symbol's this
is what an inlining answers if it is accepted, and what a substitution answers whatever is put in.
The rule can be deleted exactly if all these references are its own, and otherwise the error tells
how many are not. After a deletion no body refers to the name, and every other name derives what it
derived before. A reduction picks the first rule that has at most `1` in the census. -/
theorem counts_agree (g : Grammar T N) :
    (∀ x, x ∈ g.referenceCounts.keys ↔
      x ∈ g.rules.keys ∨ (∃ y, g.productions.Refers y x) ∨ x = g.start) ∧
    g.referenceCounts.get? g.start = some 2 ∧
    (∀ x ∈ g.referenceCounts.keys, x ≠ g.start →
      g.referenceCounts.get? x = some (g.occurrences x)) ∧
    (∀ x b c, g.rules.get? x = some b → x ≠ g.start → g.referenceCounts.get? x = some c →
      (∀ n, (g.inlineRule x).answer = .ok n → n = c) ∧
      ((g.deleteRule x).answer = .ok b ↔ c = Body.count b x) ∧
      (c ≠ Body.count b x → Body.count b x < c ∧
        (g.deleteRule x).answer = .error (.stillReferenced x (c - Body.count b x))) ∧
      ∀ xs, (g.substitute x xs).1 = c) ∧
    (∀ x b, (g.deleteRule x).answer = .ok b →
      (∀ y, ¬ (g.deleteRule x).grammar.productions.Refers y x) ∧
      ∀ y, y ≠ x → ∀ w, (g.deleteRule x).grammar.productions.Derives y w ↔
        g.productions.Derives y w) ∧
    g.nextReducible =
      g.rules.keys.find? fun x => x ≠ g.start && (g.referenceCounts.get? x).getD 0 ≤ 1 := by
  refine ⟨g.mem_keys_referenceCounts, g.get?_referenceCounts_start,
    fun x hx hs => g.get?_referenceCounts hx hs, fun x b c hb hs hc => ?_,
    fun x b h => productions_deleteRule h, rfl⟩
  have hkey : x ∈ g.referenceCounts.keys := OrderedMap.mem_keys_of_get? hc
  obtain rfl : g.occurrences x = c := by
    rw [g.get?_referenceCounts hkey hs] at hc
    exact Option.some.inj hc
  have hsum := outerOccurrences_add_count hb
  refine ⟨fun n hn => ?_, ?_, fun hne => ?_, g.substitute_fst x⟩
  · exact (inlineRule_answers hb hn).2.1.symm
  · rcases deleteRule_cases hb hs with ⟨hzero, hd⟩ | ⟨hzero, hd⟩
    · rw [hd]
      exact iff_of_true rfl (by omega)
    · rw [hd]
      exact iff_of_false nofun (by omega)
  · rcases deleteRule_cases hb hs with ⟨hzero, -⟩ | ⟨hzero, hd⟩
    · omega
    · refine ⟨by omega, ?_⟩
      rw [hd, show g.occurrences x - Body.count b x = g.outerOccurrences x by omega]
      rfl

/-- One reference to `1` is its own, and another name has no rule. -/
def selfReference : Grammar Char Nat :=
  let g := ofStart 0
  let g := (g.addRule 0 (.ofList [.nonterminal 1, .nonterminal 9])).2
  (g.addRule 1 (.ofList [.nonterminal 1, .terminal 'a'])).2

/-- The census counts all references, and the deletion tells those of other bodies alone. -/
theorem counts_agree_selfReference :
    selfReference.referenceCounts.entries = [(0, 2), (1, 2), (9, 1)] ∧
      (selfReference.substitute 1 []).1 = 2 ∧
      (selfReference.deleteRule 1).answer = .error (.stillReferenced 1 1) := by
  obtain ⟨-, -, -, hcounts, -, -⟩ := counts_agree selfReference
  have hb : selfReference.rules.get? 1 = some (.ofList [.nonterminal 1, .terminal 'a']) := rfl
  have hs : 1 ≠ selfReference.start := by decide +kernel
  have hc : selfReference.referenceCounts.get? 1 = some 2 := by decide +kernel
  have hown : Body.count (.ofList [.nonterminal 1, .terminal 'a'] : Body Char Nat) 1 = 1 := by
    decide +kernel
  obtain ⟨-, -, hdelete, hsubstitute⟩ := hcounts 1 _ 2 hb hs hc
  rw [hown] at hdelete
  exact ⟨by decide +kernel, hsubstitute [], (hdelete (by decide)).2⟩

end Grammar

end StraightLine
