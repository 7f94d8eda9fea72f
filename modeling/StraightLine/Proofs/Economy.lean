import StraightLine.Proofs.DepthFirst
import StraightLine.Proofs.Reduction

/-!
# Everything that walks the rules comes to an end

Grammars may refer to themselves or to names without a rule, and yet nothing that follows references
goes on for ever or does its work twice. For the walks depth first this was shown; the other two are
the search before a merge and the loop of a reduction. Both are written here as relations without a
measure too, which count what is done.

* `Seeks` — the search, turn by turn. `Seeks.nodup` — it pushes the references of a rule once, and
  `Seeks.turns_le` — no name is taken off the stack that was not put there.
* `Grammar.others` — the rules that a reduction may inline. `Inlines` — its loop, and
  `Inlines.le_others` — each inlining takes one of them away.
* `Grammar.traversals_end` — all of it, for every grammar.
-/

namespace StraightLine

open Grammar

variable {T N : Type} [DecidableEq N]

/-! ## The search before a merge -/

/-- A search comes to an end after so many turns; in each a name is taken off the stack. -/
inductive Seeks (rules : OrderedMap N (Body T N)) (source dest : N) :
    (seen stack : List N) → (found : Bool) → (seen' : List N) → (turns : Nat) → Prop
  | nothing {seen} : Seeks rules source dest seen [] false seen 0
  | found {seen id stack} : id = source ∨ id = dest →
      Seeks rules source dest seen (id :: stack) true seen 1
  | again {seen id stack found seen' turns} : ¬ (id = source ∨ id = dest) → id ∈ seen →
      Seeks rules source dest seen stack found seen' turns →
      Seeks rules source dest seen (id :: stack) found seen' (turns + 1)
  | push {seen id stack found seen' turns} : ¬ (id = source ∨ id = dest) → id ∉ seen →
      Seeks rules source dest (id :: seen) ((referencesOf rules id).reverse ++ stack) found seen'
        turns →
      Seeks rules source dest seen (id :: stack) found seen' (turns + 1)

section

variable {rules : OrderedMap N (Body T N)} {source dest : N} {seen stack seen' : List N}
  {found : Bool} {turns : Nat}

/-- **Every search comes to an end**, with the answer of `Grammar.searchFrom`. -/
theorem searchFrom_seeks (rules : OrderedMap N (Body T N)) (source dest : N)
    (seen stack : List N) :
    ∃ turns, Seeks rules source dest seen stack (searchFrom rules source dest seen stack).1
      (searchFrom rules source dest seen stack).2 turns := by
  fun_induction searchFrom rules source dest seen stack with
  | case1 seen => exact ⟨0, .nothing⟩
  | case2 seen id stack hid => exact ⟨1, .found hid⟩
  | case3 seen id stack hne hseen ih =>
    obtain ⟨turns, h⟩ := ih
    exact ⟨turns + 1, .again hne hseen h⟩
  | case4 seen id stack hne hseen ih =>
    obtain ⟨turns, h⟩ := ih
    exact ⟨turns + 1, .push hne hseen h⟩

/-- **The references of a rule are pushed once.** What was seen is what they were pushed for. -/
theorem Seeks.nodup (h : Seeks rules source dest seen stack found seen' turns)
    (hn : seen.Nodup) : seen'.Nodup := by
  induction h with
  | nothing | found _ => exact hn
  | again _ _ _ ih => exact ih hn
  | push _ hseen _ ih => exact ih (List.nodup_cons.mpr ⟨hseen, hn⟩)

/-- There are no more turns than names that were on the stack or come onto it. -/
theorem Seeks.turns_le (h : Seeks rules source dest seen stack found seen' turns) :
    turns ≤ stack.length + unseenReferences rules seen := by
  induction h with
  | nothing => exact Nat.zero_le _
  | found _ =>
    rw [List.length_cons]
    omega
  | again _ _ _ ih =>
    rw [List.length_cons]
    omega
  | push _ hseen _ ih =>
    have hpushed := unseenReferences_cons_add_le rules hseen
    rw [List.length_append, List.length_reverse] at ih
    rw [List.length_cons]
    omega

end

/-! ## The loop of a reduction -/

/-- The rules other than that of the start symbol. -/
def Grammar.others (g : Grammar T N) : List N := g.rules.keys.filter fun x => x ≠ g.start

/-- A reduction's loop comes to an end with so many inlinings, one that is refused included. -/
inductive Inlines : Grammar T N → Outcome T N Nat → Nat → Prop
  | stop {g} : g.nextReducible = none → Inlines g ⟨.ok 0, g, []⟩ 0
  | refused {g id e} : g.nextReducible = some id → (g.inlineRule id).answer = .error e →
      Inlines g ⟨.error e, (g.inlineRule id).grammar, (g.inlineRule id).records⟩ 1
  | again {g id sites rest n} : g.nextReducible = some id →
      (g.inlineRule id).answer = .ok sites → Inlines (g.inlineRule id).grammar rest n →
      Inlines g ⟨rest.answer.map (· + 1), rest.grammar, (g.inlineRule id).records ++ rest.records⟩
        (n + 1)

/-- **The loop comes to an end**, as `Grammar.inlineAll` does. -/
theorem inlineAll_inlines (g : Grammar T N) : ∃ n, Inlines g g.inlineAll n := by
  fun_induction inlineAll g with
  | case1 g hnone => exact ⟨0, .stop hnone⟩
  | case2 g id hid step e he => exact ⟨1, .refused hid he⟩
  | case3 g id hid step sites hok rest ih =>
    obtain ⟨n, h⟩ := ih
    exact ⟨n + 1, .again hid hok h⟩

/-- The answer is the number of inlinings. -/
theorem Inlines.eq_of_ok {g : Grammar T N} {o : Outcome T N Nat} {n k : Nat} (h : Inlines g o n)
    (hk : o.answer = .ok k) : k = n := by
  induction h generalizing k with
  | stop _ => exact (Except.ok.inj hk).symm
  | refused _ _ => cases hk
  | @again _ _ _ rest _ _ _ _ ih =>
    cases hrest : rest.answer with
    | error e =>
      rw [hrest] at hk
      cases hk
    | ok j =>
      rw [hrest] at hk
      cases hk
      rw [ih hrest]

/-- What a reduction answers is what its loop does. -/
theorem inlineAll_of_reduce {g : Grammar T N} {n : Nat} (h : g.reduce.answer = .ok n) :
    g.inlineAll.answer = .ok n := by
  have hac := acyclic_of_reduce h
  obtain ⟨k, hk, -⟩ := (Partway.refl hac).inlineAll
  rw [reduce_of_acyclic hac hk] at h
  cases h
  exact hk

theorem mem_others_of_nextReducible {g : Grammar T N} {id : N} (h : g.nextReducible = some id) :
    id ∈ g.others := by
  obtain ⟨⟨b, hb⟩, hs, -⟩ := nextReducible_eq_some h
  exact List.mem_filter.mpr ⟨OrderedMap.mem_keys_of_get? hb, decide_eq_true hs⟩

/-- An inlining takes its rule away from the others. -/
theorem length_others_inlineRule {g : Grammar T N} {id : N} {sites : Nat} (hid : id ∈ g.others)
    (h : (g.inlineRule id).answer = .ok sites) :
    (g.inlineRule id).grammar.others.length + 1 = g.others.length := by
  obtain ⟨⟨b, hb⟩, hs, hself⟩ := inlineRule_eq_ok h
  have hi := inlined_inlineRule hb hs hself
  have hothers : (g.inlineRule id).grammar.others = g.others.erase id := by
    have hnodup : g.others.Nodup := g.rules.nodup_keys.filter _
    rw [hnodup.erase_eq_filter, others, others, hi.keys, hi.start, List.filter_filter,
      List.filter_filter]
    refine List.filter_congr fun x _ => ?_
    by_cases hx : x = id <;> simp [hx]
  rw [hothers, List.length_erase_of_mem hid]
  exact Nat.sub_add_cancel (List.length_pos_of_mem hid)

/-- **No more is inlined than there are rules other than the start symbol's.** -/
theorem Inlines.le_others {g : Grammar T N} {o : Outcome T N Nat} {n : Nat} (h : Inlines g o n) :
    n ≤ g.others.length := by
  induction h with
  | stop _ => exact Nat.zero_le _
  | refused hid _ => exact List.length_pos_of_mem (mem_others_of_nextReducible hid)
  | again hid hok _ ih =>
    have hless := length_others_inlineRule (mem_others_of_nextReducible hid) hok
    omega

/-! ## All traversals -/

/-- **Everything that walks the rules ends on every grammar and repeats nothing.** Nothing is asked
of the rules, of the start symbol, of the memo or of the names. To expand a name, to measure its
word and to look for loops are walks depth first: in each no body is entered twice, no reference in
it is followed twice, and the calls are nested no deeper than there are rules, and one more. The
search before a merge pushes the references of a rule once after its seeds, and ends after no more
turns than names were pushed. The loop of a reduction inlines no more rules than there are other
than the start symbol's, and the answer is their number. -/
theorem Grammar.traversals_end (g : Grammar T N) :
    (∀ id,
      let run := visit g.rules wordOf [] (.ofFinished g.memo) id
      g.expand id = ⟨run.1, { g with memo := run.2.finished }, run.2.entered.map .expanding⟩ ∧
      ∃ calls nested,
        Ends g.rules wordOf (.follow [] id) (.ofFinished g.memo) run.1 run.2 calls nested ∧
        Thrifty g.rules 1 run.2 calls nested) ∧
    (∀ id,
      let run := visit g.rules lengthOf [] (.ofFinished .empty) id
      g.expandedLength id = run.1 ∧
      ∃ calls nested,
        Ends g.rules lengthOf (.follow [] id) (.ofFinished .empty) run.1 run.2 calls nested ∧
        Thrifty g.rules 1 run.2 calls nested) ∧
    (let run := visitAll g.rules noCycle (.ofFinished .empty) g.rules.keys
     g.checkAcyclic = run.1 ∧
     ∃ calls nested,
       EndsAll g.rules noCycle g.rules.keys (.ofFinished .empty) run.1 run.2 calls nested ∧
       Thrifty g.rules g.size run.2 calls nested) ∧
    (∀ source dest,
      let seeds := mergeSeeds g.rules source dest
      let run := searchFrom g.rules source dest [] seeds.reverse
      g.mergeWouldCycle source dest = run.1 ∧ run.2.Nodup ∧
      ∃ turns,
        Seeks g.rules source dest [] seeds.reverse run.1 run.2 turns ∧
        turns ≤ seeds.length + allReferences g.rules) ∧
    ∃ n, Inlines g g.inlineAll n ∧ n ≤ g.others.length ∧
      ∀ steps, g.reduce.answer = .ok steps → steps = n := by
  refine ⟨fun id => ?_, fun id => ?_, ?_, fun source dest => ?_, ?_⟩
  · obtain ⟨calls, nested, h⟩ := visit_ends g.rules wordOf [] (.ofFinished g.memo) id
    exact ⟨rfl, calls, nested, h, h.thrifty⟩
  · obtain ⟨calls, nested, h⟩ := visit_ends g.rules lengthOf [] (.ofFinished .empty) id
    exact ⟨rfl, calls, nested, h, h.thrifty⟩
  · obtain ⟨calls, nested, h⟩ := visitAll_ends g.rules noCycle g.rules.keys (.ofFinished .empty)
    have hsize : g.size = g.rules.keys.length := OrderedMap.size_eq_length_keys g.rules
    exact ⟨rfl, calls, nested, h, hsize ▸ h.thrifty⟩
  · obtain ⟨turns, h⟩ := searchFrom_seeks g.rules source dest []
      (mergeSeeds g.rules source dest).reverse
    have hturns := h.turns_le
    rw [List.length_reverse, unseenReferences_nil] at hturns
    exact ⟨rfl, h.nodup .nil, turns, h, hturns⟩
  · obtain ⟨n, h⟩ := inlineAll_inlines g
    refine ⟨n, h, h.le_others, fun steps hsteps => ?_⟩
    exact h.eq_of_ok (inlineAll_of_reduce hsteps)

end StraightLine
