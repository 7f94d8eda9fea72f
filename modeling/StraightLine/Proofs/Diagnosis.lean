import StraightLine.Proofs.History
import StraightLine.Proofs.Validity

/-!
# What the check of a grammar reports

`Grammar.validate` stops at the first thing that is wrong, and what it names is wrong indeed. Its
last part, the search for loops, was written apart from the walks that compute words; where every
reference goes to a rule, it fails exactly if one of them does.

* `Grammar.Fault` — what each error says of the grammar, and `Grammar.validate_error` — the errors
  of the check say the truth. There is one lemma for each of its parts.
* `Grammar.checkAcyclic_eq_ok_iff_derives` — where every reference goes to a rule, there are no loops
  exactly if every rule has a word.
* `Grammar.validation` — all that the check decides and reports.
-/

namespace StraightLine

variable {T N : Type} [DecidableEq N]

namespace Grammar

variable {g : Grammar T N}

/-! ## Faults -/

/-- What an error of the check says of the grammar. The other errors are about calls, not about
grammars. -/
def Fault (g : Grammar T N) : GrammarError N → Prop
  | .undefinedNonterminal m =>
    g.contains m = false ∧ (m = g.start ∨ ∃ x, g.productions.Refers x m)
  | .emptyRule x => g.productions x = some []
  | .startReferenced s => s = g.start ∧ ∃ x, g.productions.Refers x s
  | .cycle c => g.productions.Loops c
  | _ => False

/-- A fault among references names one of them. -/
theorem checkReferences_error {ids : List N} {e : GrammarError N}
    (h : g.checkReferences ids = .error e) :
    ∃ id ∈ ids, (e = .startReferenced id ∧ id = g.start) ∨
      (e = .undefinedNonterminal id ∧ g.contains id = false) := by
  induction ids with
  | nil => cases h
  | cons id ids ih =>
    rw [checkReferences] at h
    split at h
    · next hs =>
      cases h
      exact ⟨id, List.mem_cons_self, .inl ⟨rfl, hs⟩⟩
    · split at h
      · next hc =>
        cases h
        exact ⟨id, List.mem_cons_self, .inr ⟨rfl, by simpa using hc⟩⟩
      · obtain ⟨y, hy, hfault⟩ := ih h
        exact ⟨y, List.mem_cons_of_mem _ hy, hfault⟩

/-- A fault among rules names an empty one or a reference in one of them. -/
theorem checkRules_error {rules : List (N × Body T N)} {e : GrammarError N}
    (h : g.checkRules rules = .error e) :
    ∃ r ∈ rules, (e = .emptyRule r.1 ∧ r.2.toList = []) ∨
      g.checkReferences (Body.references r.2) = .error e := by
  induction rules with
  | nil => cases h
  | cons r rules ih =>
    obtain ⟨id, b⟩ := r
    rw [checkRules] at h
    split at h
    · next hb =>
      cases h
      exact ⟨(id, b), List.mem_cons_self, .inl ⟨rfl, b.isEmpty_iff.mp hb⟩⟩
    · split at h
      · next e' he =>
        cases h
        exact ⟨(id, b), List.mem_cons_self, .inr he⟩
      · obtain ⟨r, hr, hfault⟩ := ih h
        exact ⟨r, List.mem_cons_of_mem _ hr, hfault⟩

theorem checkRules_entries_error {e : GrammarError N}
    (h : g.checkRules g.rules.entries = .error e) : g.Fault e := by
  obtain ⟨⟨x, b⟩, hr, hfault⟩ := checkRules_error h
  have hb : g.rules.get? x = some b := OrderedMap.get?_eq_some_iff.mpr hr
  rcases hfault with ⟨rfl, hempty⟩ | hrefs
  · show g.productions x = some []
    rw [← hempty]
    exact productionsOf_of_get? hb
  · obtain ⟨y, hy, hfault⟩ := checkReferences_error hrefs
    have hxy : g.productions.Refers x y := refers_of_mem_references hb hy
    rcases hfault with ⟨rfl, hs⟩ | ⟨rfl, hc⟩
    · exact ⟨hs, x, hxy⟩
    · exact ⟨hc, .inr ⟨x, hxy⟩⟩

/-- **The check says the truth about what is wrong.** -/
theorem validate_error {e : GrammarError N} (h : g.validate = .error e) : g.Fault e := by
  unfold validate at h
  split at h
  · next hs =>
    cases h
    exact ⟨by simpa using hs, .inl rfl⟩
  · split at h
    · next e' he =>
      cases h
      exact checkRules_entries_error he
    · obtain ⟨c, rfl, hloop⟩ := checkAcyclic_error h
      exact hloop

/-! ## Loops and words -/

/-- **The search for loops agrees with the words**, where every reference goes to a rule. -/
theorem checkAcyclic_eq_ok_iff_derives
    (hdef : ∀ x y, g.productions.Refers x y → g.contains y = true) :
    g.checkAcyclic = .ok () ↔
      ∀ x, g.contains x = true → ∃ w, g.productions.Derives x w := by
  simp only [contains_iff_isSome] at hdef ⊢
  rw [checkAcyclic_eq_ok_iff]
  constructor
  · intro hac x hx
    exact exists_derives hac hdef hx
  · intro hwords x hloop
    obtain ⟨w, hw⟩ := hwords x hloop.isSome
    exact hw.not_loops (.refl x) hloop

/-! ## The check -/

/-- **What the check decides and reports**, on every grammar with a history. It accepts the grammar
exactly if the start symbol has a rule, no body is empty, every reference goes to a rule that is not
the start symbol's, and no rule reaches itself; and what it reports otherwise is a fault. Its search
for loops alone, also where a reference goes to no rule, succeeds exactly if no rule reaches itself,
and else it names one that does. Where every reference goes to a rule, it succeeds exactly if every
rule expands to a word, and exactly if every rule has a length. -/
theorem validation (start : N) (calls : List (Operation T N)) :
    let g : Grammar T N := run start calls
    (g.validate = .ok () ↔
      g.contains g.start = true ∧
      (∀ x, g.productions x ≠ some []) ∧
      (∀ x y, g.productions.Refers x y → g.contains y = true ∧ y ≠ g.start) ∧
      ∀ x, ¬ g.productions.Loops x) ∧
    (∀ e, g.validate = .error e → g.Fault e) ∧
    (g.checkAcyclic = .ok () ↔ ∀ x, ¬ g.productions.Loops x) ∧
    (∀ e, g.checkAcyclic = .error e → ∃ c, e = .cycle c ∧ g.productions.Loops c) ∧
    ((∀ x y, g.productions.Refers x y → g.contains y = true) →
      (g.checkAcyclic = .ok () ↔
        ∀ x, g.contains x = true → ∃ w, (g.expand x).answer = .ok w) ∧
      (g.checkAcyclic = .ok () ↔
        ∀ x, g.contains x = true → ∃ n, g.expandedLength x = .ok n)) := by
  intro g
  have hg : g.Settled := settled_run start calls
  refine ⟨?_, fun e => validate_error, checkAcyclic_eq_ok_iff g, fun e => checkAcyclic_error,
    fun hdef => ⟨?_, ?_⟩⟩
  · rw [validate_eq_ok_iff]
    constructor
    · intro hv
      exact ⟨contains_iff_isSome.mpr hv.start_defined, fun x hx => hv.nonempty x [] hx rfl,
        fun x y hxy => ⟨contains_iff_isSome.mpr (hv.defined x y hxy),
          fun hs => hv.unreferenced x (hs ▸ hxy)⟩, hv.acyclic⟩
    · rintro ⟨hstart, hbodies, hrefs, hac⟩
      exact ⟨contains_iff_isSome.mp hstart, fun x ss hx hss => hbodies x (hss ▸ hx),
        fun x y hxy => contains_iff_isSome.mp (hrefs x y hxy).1, fun x hx => (hrefs x _ hx).2 rfl,
        hac⟩
  · rw [checkAcyclic_eq_ok_iff_derives hdef]
    simp only [expand_eq_ok_iff hg]
  · rw [checkAcyclic_eq_ok_iff_derives hdef]
    simp only [expandedLength_eq_ok_iff]
    constructor
    · intro hwords x hx
      obtain ⟨w, hw⟩ := hwords x hx
      exact ⟨w.length, w, hw, rfl⟩
    · intro hlengths x hx
      obtain ⟨-, w, hw, -⟩ := hlengths x hx
      exact ⟨w, hw⟩

/-- The rules for `1` and `2` refer to each other, and an expansion has already failed on them. -/
def pairedRules : List (Operation Char Nat) :=
  [.addRule 0 (.ofList [.terminal 'a', .nonterminal 1]),
    .addRule 1 (.ofList [.nonterminal 2, .nonterminal 3]),
    .addRule 2 (.ofList [.nonterminal 3, .nonterminal 1]),
    .addRule 3 (.ofList [.terminal 'b']), .expandStart]

/-- Every reference goes to a rule there, so that the loop is what keeps some rule from expanding. -/
theorem validation_pairedRules :
    let g : Grammar Char Nat := run 0 pairedRules
    (∀ x y, g.productions.Refers x y → g.contains y = true) ∧
      g.validate = .error (.cycle 1) ∧ g.productions.Loops 1 ∧
      ¬ ∀ x, g.contains x = true → ∃ w, (g.expand x).answer = .ok w := by
  intro g
  have hrules : g.checkRules g.rules.entries = .ok () := by decide +kernel
  have hdefined : ∀ x y, g.productions.Refers x y → g.contains y = true :=
    fun x y hxy => ((checkRules_entries_eq_ok_iff.mp hrules).2 x y hxy).2
  have hvalidate : g.validate = .error (.cycle 1) := by decide +kernel
  have hacyclic : g.checkAcyclic = .error (.cycle 1) := by decide +kernel
  obtain ⟨-, hfault, -, -, hwords⟩ := validation 0 pairedRules
  refine ⟨hdefined, hvalidate, hfault _ hvalidate, fun hall => ?_⟩
  have hok : g.checkAcyclic = .ok () := (hwords hdefined).1.mpr hall
  rw [hacyclic] at hok
  cases hok

end Grammar

end StraightLine
