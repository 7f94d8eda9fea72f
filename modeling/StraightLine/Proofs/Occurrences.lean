import StraightLine.Proofs.Inlining

/-!
# Counting references while rules go away

How often a name is referred to decides whether its rule is worth keeping. The references can be
counted in the bodies of some of the rules only: `occurrencesWhere` takes the rules by their
names, so `Grammar.occurrences` and `Grammar.outerOccurrences` are instances of it, and so is
`Grammar.liveOccurrences`, which counts in the rules that the start symbol reaches.

* `Grammar.referenceCount` — the census read at one name. `Grammar.referenceCount_of_ne` says that
  it is the number of references in all bodies, the start symbol apart.
* `Grammar.outerOccurrences_eq_zero_iff` — a rule can be deleted if no other one refers to it, and
  `Grammar.inlined_deleteRule` — to delete it is to inline it nowhere.
* `Grammar.Inlined.occurrencesWhere_add` — the account of one inlining: every reference to the rule
  that goes away is paid for with what its body refers to, and the body itself is no longer
  counted.
* `Grammar.liveOccurrences_pos`, `Grammar.liveOccurrences_eq_zero` — a name other than the start
  symbol is referred to by live rules exactly if it is live itself.
* `Grammar.Inlined.liveOccurrences_eq` — **to inline a rule that is referred to at most once changes
  no count over the live rules.** The total counts do change, since dead rules go away too.
-/

namespace StraightLine

variable {T N : Type} [DecidableEq N]

/-- How many references to `x` there are in the bodies of the rules whose names satisfy `live`. -/
def occurrencesWhere (live : N → Bool) (rules : List (N × Body T N)) (x : N) : Nat :=
  ((rules.filter fun r => live r.1).map fun r => Body.count r.2 x).sum

variable {live : N → Bool} {rules : List (N × Body T N)} {x : N}

@[simp] theorem occurrencesWhere_nil : occurrencesWhere live ([] : List (N × Body T N)) x = 0 := rfl

theorem occurrencesWhere_cons (r : N × Body T N) :
    occurrencesWhere live (r :: rules) x =
      (if live r.1 then Body.count r.2 x else 0) + occurrencesWhere live rules x := by
  unfold occurrencesWhere
  by_cases h : live r.1 <;> simp [h]

theorem occurrencesWhere_congr {live' : N → Bool} (h : ∀ r ∈ rules, live r.1 = live' r.1) :
    occurrencesWhere live rules x = occurrencesWhere live' rules x := by
  unfold occurrencesWhere
  rw [List.filter_congr h]

/-- Fewer rules have fewer references. -/
theorem occurrencesWhere_le {live' : N → Bool} (h : ∀ y, live y = true → live' y = true) :
    occurrencesWhere live rules x ≤ occurrencesWhere live' rules x := by
  induction rules with
  | nil => exact Nat.le_refl 0
  | cons r rules ih =>
    rw [occurrencesWhere_cons, occurrencesWhere_cons]
    refine Nat.add_le_add ?_ ih
    split
    · next hr => exact Nat.le_of_eq (if_pos (h _ hr)).symm
    · exact Nat.zero_le _

/-- There is a reference exactly if one of the rules has one. -/
theorem occurrencesWhere_pos_iff :
    0 < occurrencesWhere live rules x ↔
      ∃ r ∈ rules, live r.1 = true ∧ x ∈ Body.references r.2 := by
  have hcount : ∀ b : Body T N, 0 < Body.count b x ↔ x ∈ Body.references b := by
    intro b
    rw [Body.count_eq, List.count_pos_iff]
  simp only [occurrencesWhere, List.sum_pos_iff_exists_pos_nat, List.mem_map, List.mem_filter]
  constructor
  · rintro ⟨n, ⟨r, ⟨hr, hlive⟩, rfl⟩, hn⟩
    exact ⟨r, hr, hlive, (hcount r.2).mp hn⟩
  · rintro ⟨r, hr, hlive, hx⟩
    exact ⟨_, ⟨r, ⟨hr, hlive⟩, rfl⟩, (hcount r.2).mpr hx⟩

/-! ## One rule less -/

/-- A splice takes out every reference to `id`, and for each of them it brings in those of `xs`. -/
theorem countP_spliced (id x : N) (xs ss : List (Symbol T N)) :
    (spliced id xs ss).countP (Symbol.refersTo x) =
      (if x = id then 0 else ss.countP (Symbol.refersTo x)) +
        ss.countP (Symbol.refersTo id) * xs.countP (Symbol.refersTo x) := by
  induction ss with
  | nil => simp
  | cons s ss ih =>
    cases s with
    | terminal t => simpa [Symbol.refersTo] using ih
    | nonterminal y =>
      by_cases hy : y = id
      · subst hy
        rw [spliced_self, List.countP_append, ih]
        by_cases hx : x = y
        · subst hx
          simp only [if_true, List.countP_cons, Symbol.refersTo, decide_true, Nat.add_mul]
          omega
        · simp only [hx, Ne.symm hx, if_true, if_false, List.countP_cons, Symbol.refersTo,
            decide_true, decide_false, Bool.false_eq_true, Nat.add_mul]
          omega
      · rw [spliced_of_ne hy, List.countP_cons, List.countP_cons, List.countP_cons, ih]
        by_cases hx : x = id
        · simp [hx, hy, Symbol.refersTo]
        · simp only [hx, hy, if_false, Symbol.refersTo, decide_false, Bool.false_eq_true,
            Nat.add_zero]
          omega

theorem count_substitute (b : Body T N) (id x : N) (xs : List (Symbol T N)) :
    Body.count (Body.substitute b id xs).2 x =
      (if x = id then 0 else Body.count b x) +
        Body.count b id * xs.countP (Symbol.refersTo x) := by
  rw [Body.count, Body.toList_substitute]
  exact countP_spliced id x xs b.toList

theorem occurrencesWhere_substitute (id : N) (xs : List (Symbol T N)) :
    occurrencesWhere live (rules.map fun r => (r.1, (Body.substitute r.2 id xs).2)) x =
      (if x = id then 0 else occurrencesWhere live rules x) +
        occurrencesWhere live rules id * xs.countP (Symbol.refersTo x) := by
  induction rules with
  | nil => simp
  | cons r rules ih =>
    rw [List.map_cons, occurrencesWhere_cons, occurrencesWhere_cons, occurrencesWhere_cons, ih,
      count_substitute]
    by_cases hlive : live r.1 = true
    · by_cases hx : x = id
      · simp only [hlive, hx, if_true, Nat.zero_add, Nat.add_mul]
      · simp only [hlive, hx, if_true, if_false, Nat.add_mul]
        omega
    · simp only [hlive, if_false, Bool.false_eq_true, Nat.zero_add]

/-- Without one of the rules the references in its body are not counted. -/
theorem occurrencesWhere_erase {rules : OrderedMap N (Body T N)} {id : N} {b : Body T N}
    (hb : (id, b) ∈ rules.entries) :
    occurrencesWhere live rules.entries x =
      occurrencesWhere live (rules.erase id).entries x +
        if live id then Body.count b x else 0 := by
  have hperm := OrderedMap.perm_entries_erase hb
  have hfront : occurrencesWhere live rules.entries x =
      occurrencesWhere live ((id, b) :: (rules.erase id).entries) x :=
    ((hperm.filter _).map _).sum_nat
  rw [hfront, occurrencesWhere_cons, Nat.add_comm]

/-! ## The counts of a grammar -/

/-- The counts depend on the bodies as lists alone. -/
theorem occurrencesWhere_eq_keys (rules : OrderedMap N (Body T N)) :
    occurrencesWhere live rules.entries x =
      ((rules.keys.filter live).map fun y =>
        ((productionsOf rules y).getD []).countP (Symbol.refersTo x)).sum := by
  rw [occurrencesWhere, OrderedMap.keys, List.filter_map, List.map_map]
  refine congrArg List.sum (List.map_congr_left fun r hr => ?_)
  have hb : rules.get? r.1 = some r.2 := OrderedMap.get?_eq_some_iff.mpr (List.mem_filter.mp hr).1
  rw [Function.comp_apply, productionsOf_of_get? hb]
  rfl

namespace Grammar

theorem occurrences_eq (g : Grammar T N) (x : N) :
    g.occurrences x = occurrencesWhere (fun _ => true) g.rules.entries x := by
  rw [occurrences, occurrencesWhere, List.filter_eq_self.mpr fun _ _ => rfl, OrderedMap.values,
    List.map_map]
  rfl

theorem outerOccurrences_eq_zero_iff (g : Grammar T N) (x : N) :
    g.outerOccurrences x = 0 ↔ ∀ y, y ≠ x → ¬ g.productions.Refers y x := by
  have hcount : g.outerOccurrences x = occurrencesWhere (fun y => y ≠ x) g.rules.entries x := rfl
  rw [hcount, ← Nat.le_zero_eq, ← Nat.not_lt, occurrencesWhere_pos_iff]
  constructor
  · intro h y hne hyx
    obtain ⟨b, hb, hx⟩ := refers_productionsOf_iff.mp hyx
    exact h ⟨(y, b), OrderedMap.get?_eq_some_iff.mp hb, decide_eq_true hne, hx⟩
  · rintro h ⟨⟨y, b⟩, hr, hne, hx⟩
    have hb : g.rules.get? y = some b := OrderedMap.get?_eq_some_iff.mpr hr
    exact h y (of_decide_eq_true hne) (refers_of_mem_references hb hx)

/-! ## The census at one name -/

/-- The count of a name in the census. A name without an entry counts as zero. -/
def referenceCount (g : Grammar T N) (x : N) : Nat := (g.referenceCounts.get? x).getD 0

theorem getD_foldl_tally (xs : List N) (counts : OrderedMap N Nat) (x : N) :
    ((xs.foldl tally counts).get? x).getD 0 = (counts.get? x).getD 0 + xs.count x := by
  induction xs generalizing counts with
  | nil => rfl
  | cons y xs ih =>
    rw [List.foldl_cons, ih, tally, OrderedMap.get?_insert, List.count_cons]
    by_cases h : x = y
    · subst h
      simp only [if_true, Option.getD_some, BEq.rfl]
      omega
    · simp [h, Ne.symm h]

/-- The start symbol is held at two. -/
theorem referenceCount_start (g : Grammar T N) : g.referenceCount g.start = 2 := by
  rw [referenceCount, referenceCounts, OrderedMap.get?_insert, if_pos rfl]
  rfl

/-- Every other name has the number of references to it. -/
theorem referenceCount_of_ne (g : Grammar T N) {x : N} (hx : x ≠ g.start) :
    g.referenceCount x = g.occurrences x := by
  have hzero : ((g.rules.map fun _ => 0).get? x).getD 0 = 0 := by
    rw [OrderedMap.get?_map]
    cases g.rules.get? x <;> rfl
  rw [referenceCount, referenceCounts, OrderedMap.get?_insert, if_neg hx, getD_foldl_tally, hzero,
    Nat.zero_add, List.count_flatMap, occurrences]
  refine congrArg List.sum (List.map_congr_left fun b _ => ?_)
  exact (Body.count_eq b x).symm

/-! ## Deleting a rule -/

variable {g g' : Grammar T N} {id : N} {b : Body T N}

/-- All that is known when a deletion is accepted. -/
theorem deleteRule_eq_ok (h : (g.deleteRule id).answer = .ok b) :
    g.rules.get? id = some b ∧ id ≠ g.start ∧ ∀ x, x ≠ id → ¬ g.productions.Refers x id := by
  unfold deleteRule at h
  split at h
  · cases h
  · next b' hb =>
    split at h
    · cases h
    · next hs =>
      split at h
      · cases h
      · next hzero =>
        cases h
        exact ⟨hb, hs, (outerOccurrences_eq_zero_iff g id).mp (Decidable.not_not.mp hzero)⟩

/-- **To delete a rule is to inline it nowhere.** -/
theorem inlined_deleteRule (h : (g.deleteRule id).answer = .ok b) :
    (g.deleteRule id).grammar.start = g.start ∧
      (g.deleteRule id).grammar.productions = g.productions.inlined id b.toList := by
  obtain ⟨hb, hs, hfree⟩ := deleteRule_eq_ok h
  have hzero : g.outerOccurrences id = 0 := (outerOccurrences_eq_zero_iff g id).mpr hfree
  have hgrammar : (g.deleteRule id).grammar = (g.dropRule id).forget := by
    unfold deleteRule
    split
    · next hn => rw [hb] at hn; cases hn
    · rw [if_neg hs, if_neg fun h => h hzero]
  rw [hgrammar]
  refine ⟨rfl, ?_⟩
  funext x
  show (g.dropRule id).productions x = _
  rw [productions_dropRule, Productions.inlined]
  split
  · rfl
  · next hx =>
    cases hss : g.productions x with
    | none => rfl
    | some ss => exact congrArg some (spliced_of_not_mem fun hid => hfree x hx ⟨ss, hss, hid⟩).symm

/-! ## Inlining a rule -/

/-- **The account of an inlining.** -/
theorem Inlined.occurrencesWhere_add (h : g.Inlined id b g') (hb : g.rules.get? id = some b)
    (hself : ¬ g.productions.Refers id id) (live : N → Bool) (hx : x ≠ id) :
    occurrencesWhere live g'.rules.entries x + (if live id then Body.count b x else 0) =
      occurrencesWhere live g.rules.entries x +
        occurrencesWhere live g.rules.entries id * Body.count b x := by
  have hmem : (id, b) ∈ g.rules.entries := OrderedMap.get?_eq_some_iff.mp hb
  have hown : Body.count b id = 0 := by
    rw [Body.count_eq, List.count_eq_zero]
    exact fun hid => hself (refers_of_mem_references hb hid)
  have hid : occurrencesWhere live g.rules.entries id =
      occurrencesWhere live (g.rules.erase id).entries id := by
    rw [occurrencesWhere_erase hmem, hown, ite_self, Nat.add_zero]
  have hentries : g'.rules.entries = (g.rules.erase id).entries.map
      fun r => (r.1, (Body.substitute r.2 id b.toList).2) := h.entries
  rw [hentries, occurrencesWhere_substitute, if_neg hx, ← Body.count,
    occurrencesWhere_erase hmem, hid]
  omega

/-! ## Live rules -/

-- which rules are live is not a test that a program makes here
open scoped Classical

/-- How many references to `x` there are in the bodies of the rules that the start symbol reaches,
its own rule included. -/
noncomputable def liveOccurrences (g : Grammar T N) (x : N) : Nat :=
  occurrencesWhere (fun y => g.productions.Reaches g.start y) g.rules.entries x

theorem liveOccurrences_le (g : Grammar T N) (x : N) : g.liveOccurrences x ≤ g.occurrences x := by
  rw [occurrences_eq]
  exact occurrencesWhere_le fun _ _ => rfl

theorem liveOccurrences_pos_iff (g : Grammar T N) (x : N) :
    0 < g.liveOccurrences x ↔ ∃ y, g.productions.Reaches g.start y ∧ g.productions.Refers y x := by
  rw [liveOccurrences, occurrencesWhere_pos_iff]
  constructor
  · rintro ⟨⟨y, b⟩, hr, hlive, hx⟩
    have hb : g.rules.get? y = some b := OrderedMap.get?_eq_some_iff.mpr hr
    exact ⟨y, of_decide_eq_true hlive, refers_of_mem_references hb hx⟩
  · rintro ⟨y, hlive, hyx⟩
    obtain ⟨b, hb, hx⟩ := refers_productionsOf_iff.mp hyx
    exact ⟨(y, b), OrderedMap.get?_eq_some_iff.mp hb, decide_eq_true hlive, hx⟩

/-- A live rule that is not the start symbol's is referred to by a live rule. -/
theorem liveOccurrences_pos (hs : x ≠ g.start) (h : g.productions.Reaches g.start x) :
    0 < g.liveOccurrences x := by
  rcases Relation.ReflTransGen.cases_tail h with he | ⟨y, hy, hyx⟩
  · exact absurd he hs
  · exact (g.liveOccurrences_pos_iff x).mpr ⟨y, hy, hyx⟩

/-- No live rule refers to a rule that is not live. -/
theorem liveOccurrences_eq_zero (h : ¬ g.productions.Reaches g.start x) :
    g.liveOccurrences x = 0 := by
  apply Nat.eq_zero_of_not_pos
  intro hpos
  obtain ⟨y, hy, hyx⟩ := (g.liveOccurrences_pos_iff x).mp hpos
  exact h (hy.tail hyx)

/-- **To inline a rule that is referred to at most once changes no count over the live rules.** If
the rule is live, its one place receives just what its body had; if it is not, nothing that counts
is touched. -/
theorem Inlined.liveOccurrences_eq (h : g.Inlined id b g') (hb : g.rules.get? id = some b)
    (hs : id ≠ g.start) (hself : ¬ g.productions.Refers id id) (hone : g.occurrences id ≤ 1)
    (hx : x ≠ id) : g'.liveOccurrences x = g.liveOccurrences x := by
  have hid : g.productions id = some b.toList := productionsOf_of_get? hb
  have hreach : ∀ r ∈ g'.rules.entries, decide (g'.productions.Reaches g'.start r.1) =
      decide (g.productions.Reaches g.start r.1) := by
    intro r hr
    have hne : r.1 ≠ id := by
      have hkey : r.1 ∈ g'.rules.keys := List.mem_map_of_mem hr
      rw [h.keys, List.mem_filter] at hkey
      exact of_decide_eq_true hkey.2
    rw [h.start, h.productions, Productions.reaches_inlined_iff hid hself hs.symm hne]
  have haccount := h.occurrencesWhere_add hb hself (fun y => g.productions.Reaches g.start y) hx
  rw [← liveOccurrences, ← liveOccurrences] at haccount
  have hcongr : g'.liveOccurrences x =
      occurrencesWhere (fun y => g.productions.Reaches g.start y) g'.rules.entries x :=
    occurrencesWhere_congr hreach
  rw [hcongr]
  by_cases hlive : g.productions.Reaches g.start id
  · have hpos := liveOccurrences_pos hs hlive
    have hle := g.liveOccurrences_le id
    have hexact : g.liveOccurrences id = 1 := by omega
    rw [hexact, if_pos (decide_eq_true hlive), Nat.one_mul] at haccount
    omega
  · rw [liveOccurrences_eq_zero hlive, if_neg (by simpa using hlive), Nat.zero_mul] at haccount
    omega

end Grammar

end StraightLine
