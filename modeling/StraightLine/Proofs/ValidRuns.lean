import StraightLine.Proofs.History
import StraightLine.Proofs.MergeVerdict
import StraightLine.Proofs.Refusal

/-!
# Rewriting keeps a grammar valid

Whoever rewrites a valid grammar need not check it again: no deletion, inlining, merge, reduction or
expansion makes it invalid, whether it is done or refused.

* `Operation.rewrites` — the operations that this is about. The others put in what the caller gives
  them.
* `Grammar.Valid.inlineRule`, `Grammar.Valid.deleteRule`, `Grammar.Valid.merge`,
  `Grammar.Valid.reduce` — each operation keeps a valid grammar valid; so one call does
  (`Grammar.Valid.after`), and a run (`Grammar.Valid.foldl_after`).
* `Grammar.valid_run` — after a run on a valid grammar it is still accepted, and every rule has a
  word, which is not empty and has the length that is computed for it.
-/

namespace StraightLine

variable {T N : Type}

/-- Whether the operation rewrites or reads the rules that are there, and puts in nothing of its
own. -/
def Operation.rewrites : Operation T N → Bool
  | .deleteRule _ | .inlineRule _ | .merge _ _ | .reduce | .expand _ | .expandStart => true
  | .addRule _ _ | .editRule _ _ | .setStart _ | .substitute _ _ => false

/-- What holds of the grammar before holds after an operation if it does when that is done. -/
theorem Outcome.AllOrNothing.kept {α : Type} {o : Outcome T N α} {g : Grammar T N}
    (h : o.AllOrNothing g) {motive : Grammar T N → Prop} (hg : motive g)
    (hdone : ∀ a, o.answer = .ok a → motive o.grammar) : motive o.grammar := by
  cases ha : o.answer with
  | error e => rwa [(h e ha).1]
  | ok a => exact hdone a ha

namespace Grammar

variable [DecidableEq N] {g : Grammar T N}

/-! ## One operation -/

theorem Valid.inlineRule (hv : g.Valid) (id : N) : (g.inlineRule id).grammar.Valid := by
  refine (g.allOrNothing_inlineRule id).kept hv fun sites hok => ?_
  obtain ⟨⟨b, hb⟩, hs, hself⟩ := inlineRule_eq_ok hok
  have hi := inlined_inlineRule hb hs hself
  rw [Valid, hi.start, hi.productions]
  exact Productions.Valid.inlined hv (productionsOf_of_get? hb) hs

theorem Valid.deleteRule (hv : g.Valid) (id : N) : (g.deleteRule id).grammar.Valid := by
  refine (g.allOrNothing_deleteRule id).kept hv fun b hok => ?_
  obtain ⟨hb, hs, -⟩ := deleteRule_eq_ok hok
  obtain ⟨hstart, hrules⟩ := inlined_deleteRule hok
  rw [Valid, hstart, hrules]
  exact Productions.Valid.inlined hv (productionsOf_of_get? hb) hs

theorem Valid.merge (hv : g.Valid) (source dest : N) : (g.merge source dest).grammar.Valid := by
  refine (g.allOrNothing_merge source dest).kept hv fun _ hok => ?_
  obtain ⟨hne, ⟨a, ha⟩, ⟨b, hb⟩, hloop, -⟩ := merge_eq_ok hok
  have hsource := isSome_productionsOf_iff.mpr (OrderedMap.mem_keys_of_get? ha)
  have hdest := isSome_productionsOf_iff.mpr (OrderedMap.mem_keys_of_get? hb)
  have hfree := not_refers_start_merge hv.unreferenced hok
  have hm := merged_merge hok
  rw [hm.start, hm.productions] at hfree
  rw [Valid, hm.start, hm.productions]
  exact Productions.Valid.merged hv hne hsource hdest hloop hfree

/-- The loop of a reduction is made of inlinings. -/
theorem Valid.inlineAll (hv : g.Valid) : g.inlineAll.grammar.Valid := by
  fun_induction Grammar.inlineAll g with
  | case1 g _ => exact hv
  | case2 g id _ step e _ => exact hv.inlineRule id
  | case3 g id _ step sites _ rest ih => exact ih (hv.inlineRule id)

theorem Valid.reduce (hv : g.Valid) : g.reduce.grammar.Valid := by
  unfold Grammar.reduce
  split
  · exact hv
  · simp only
    split
    · exact hv.inlineAll
    · exact hv.inlineAll

/-! ## A run of operations -/

/-- **One call keeps a grammar valid.** An expansion changes nothing but the memo. -/
theorem Valid.after (hv : g.Valid) {call : Operation T N} (hcall : call.rewrites = true) :
    (g.after call).Valid := by
  cases call with
  | deleteRule id => exact hv.deleteRule id
  | inlineRule id => exact hv.inlineRule id
  | merge source dest => exact hv.merge source dest
  | reduce => exact hv.reduce
  | expand id => exact hv
  | expandStart => exact hv
  | addRule id b => cases hcall
  | editRule id edit => cases hcall
  | setStart start => cases hcall
  | substitute id xs => cases hcall

theorem Valid.foldl_after {calls : List (Operation T N)} (hv : g.Valid)
    (hcalls : ∀ call ∈ calls, call.rewrites = true) : (calls.foldl Grammar.after g).Valid := by
  induction calls generalizing g with
  | nil => exact hv
  | cons call calls ih =>
    rw [List.forall_mem_cons] at hcalls
    exact ih (hv.after hcalls.1) hcalls.2

/-- **Rewriting keeps a grammar valid.** On a grammar with a history that the check accepts, after
any run of deletions, inlinings, merges, reductions and expansions, each of them done or refused,
the check accepts the grammar: its start symbol has a rule, no body is empty, every reference goes
to a rule that is not the start symbol's, and no rule reaches itself. Every rule has a word, which
is not empty and has the length that is computed without it. -/
theorem valid_run (start : N) (history calls : List (Operation T N))
    (hvalid : (run start history).validate = .ok ())
    (hcalls : ∀ call ∈ calls, call.rewrites = true) :
    let g := calls.foldl after (run start history)
    g.validate = .ok () ∧ g.Valid ∧
    ∀ x, g.contains x = true → ∃ w, w ≠ [] ∧ (g.expand x).answer = .ok w ∧
      g.expandedLength x = .ok w.length := by
  intro g
  have hv : g.Valid := (validate_eq_ok_iff.mp hvalid).foldl_after hcalls
  have hsettled : g.Settled := by
    have hrun : g = run start (history ++ calls) := by
      rw [run, List.foldl_append]
      rfl
    rw [hrun]
    exact settled_run start (history ++ calls)
  refine ⟨validate_eq_ok_iff.mpr hv, hv, fun x hx => ?_⟩
  obtain ⟨w, hne, hw⟩ := hv.exists_word hx
  have hunfolds := Productions.derives_iff_unfolds.mp hw
  refine ⟨w, hne, ?_, ?_⟩
  · rw [expand_of_unfolds hsettled hunfolds, readWord_terminals]
  · rw [expandedLength_of_unfolds hunfolds, readWord_terminals]
    rfl

/-- The history of a valid grammar with two rules for the same word, one of them used twice. -/
def twins : List (Operation Char Nat) :=
  [.addRule 0 (.ofList [.nonterminal 1, .nonterminal 2, .nonterminal 3]),
    .addRule 1 (.ofList [.terminal 'a', .terminal 'b']),
    .addRule 2 (.ofList [.terminal 'a', .terminal 'b']),
    .addRule 3 (.ofList [.nonterminal 1, .terminal 'c'])]

/-- The second merge is accepted. The first merge and the deletion are refused, since the rule for
`3` refers to `1`. -/
def tidying : List (Operation Char Nat) :=
  [.merge 1 0, .expand 3, .merge 2 1, .deleteRule 1, .inlineRule 3, .expandStart, .reduce]

/-- The rule for `1` is all that the calls leave beside the start symbol's. -/
theorem valid_run_twins :
    (run 0 twins).validate = .ok () ∧ (tidying.foldl after (run 0 twins)).validate = .ok () ∧
      (tidying.foldl after (run 0 twins)).rules.keys = [0, 1] := by
  have hvalid : (run 0 twins).validate = .ok () := by cbv
  have hcalls : ∀ call ∈ tidying, call.rewrites = true := by decide
  exact ⟨hvalid, (valid_run 0 twins tidying hvalid hcalls).1, by decide +kernel⟩

end Grammar

end StraightLine
