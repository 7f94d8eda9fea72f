import StraightLine.Proofs.History
import StraightLine.Proofs.PlainWalk

/-!
# Which rules an expansion computes and remembers

A walk with a memo skips what is finished. Compared with the traversal that remembers nothing
(`Grammar.course`), it enters the same rules in the same order, but each of them once and only if
it is not finished already, and it finishes the same rules.

* `Follows` — this comparison, for any part of a walk; `walk_follows` carries it over one body and
  `visit_follows` over the whole recursion.
* `Grammar.memo_growth` — **what an expansion computes and remembers**: on success all that can be
  reached; on an error what was completed before the fault, without the rules on the way to it.
-/

namespace StraightLine

open Grammar

variable {T N σ β α α' : Type} [DecidableEq N]

/-! ## Walks beside traversals -/

/-- What a part of a walk leaves behind, if `c` is the same part of the traversal without a memo.
-/
structure Follows (c : Course N) (before : Trail N β)
    (result : Except (GrammarError N) α × Trail N β) : Prop where
  stops : c.fault = none ↔ ∃ a, result.1 = .ok a
  entered : result.2.entered = before.entered ++ novel before.finished.keys c.entered
  finished : ∀ x, x ∈ result.2.finished.keys ↔ x ∈ before.finished.keys ∨ x ∈ c.completed

variable {c d : Course N} {t t' : Trail N β} {id : N} {path : List N}

theorem Follows.idle (a : α) : Follows .idle t ((.ok a, t) : Except (GrammarError N) α × _) where
  stops := ⟨fun _ => ⟨a, rfl⟩, fun _ => rfl⟩
  entered := (List.append_nil _).symm
  finished x := by simp [Course.idle]

theorem Follows.halt (e : GrammarError N) (depth : Nat) :
    Follows (.halt id path) t ((.error e, t.reach depth) : Except _ α × _) where
  stops := by
    constructor
    · intro h
      cases h
    · rintro ⟨a, ha⟩
      cases ha
  entered := (List.append_nil _).symm
  finished x := by simp [Course.halt, Trail.reach]

/-- What comes after a fault does not happen. -/
theorem Follows.andThen_of_error {e : GrammarError N}
    (h : Follows c t ((.error e, t') : Except _ α × _)) :
    Follows (c.andThen d) t ((.error e, t') : Except _ α' × _) := by
  obtain ⟨f, hf⟩ : ∃ f, c.fault = some f := by
    rw [← Option.ne_none_iff_exists']
    intro hn
    obtain ⟨a, ha⟩ := h.stops.mp hn
    cases ha
  rw [Course.andThen_of_fault hf]
  refine ⟨⟨fun hn => ?_, ?_⟩, h.entered, h.finished⟩
  · rw [hf] at hn
    cases hn
  · rintro ⟨a, ha⟩
    cases ha

/-- The second part skips what the first one has finished. -/
theorem Follows.andThen {a : α} {result : Except (GrammarError N) α' × Trail N β}
    (hdone : c.fault = none → ∀ x, x ∈ c.completed ↔ x ∈ c.entered)
    (h : Follows c t (.ok a, t')) (h' : Follows d t' result) :
    Follows (c.andThen d) t result := by
  have hf : c.fault = none := h.stops.mpr ⟨a, rfl⟩
  rw [Course.andThen_of_clear hf]
  refine ⟨h'.stops, ?_, fun x => ?_⟩
  · have hknown : novel t'.finished.keys d.entered =
        novel (c.entered ++ t.finished.keys) d.entered := by
      refine novel_congr fun x _ => ?_
      rw [h.finished x, List.mem_append, hdone hf x, or_comm]
    rw [h'.entered, h.entered, hknown, novel_append, List.append_assoc]
  · rw [h'.finished x, h.finished x, List.mem_append, or_assoc]

/-- A body that is read inside its rule. -/
theorem Follows.inside {v : Valuation T N σ β} {depth : Nat}
    {result : Except (GrammarError N) σ × Trail N β} (hid : id ∉ t.finished.keys)
    (hc : id ∉ c.entered) (h : Follows c ((t.reach depth).enter id) result) :
    Follows (c.inside id) t (v.conclude id result) := by
  have hentered : result.2.entered =
      t.entered ++ novel t.finished.keys (c.inside id).entered := by
    have hnew : novel t.finished.keys (c.inside id).entered =
        id :: novel t.finished.keys c.entered := novel_cons_of_not_mem hid hc
    have hwalk : result.2.entered = t.entered ++ [id] ++ novel t.finished.keys c.entered :=
      h.entered
    rw [hwalk, hnew, List.append_assoc, List.singleton_append]
  have hfinished : ∀ x, x ∈ result.2.finished.keys ↔ x ∈ t.finished.keys ∨ x ∈ c.completed :=
    h.finished
  obtain ⟨answer, after⟩ := result
  cases answer with
  | error e =>
    have hfault : c.fault.isNone = false := by
      cases hf : c.fault with
      | some f => rfl
      | none =>
        obtain ⟨a, ha⟩ := h.stops.mp hf
        cases ha
    refine ⟨⟨fun hn => ?_, ?_⟩, hentered, fun x => ?_⟩
    · obtain ⟨a, ha⟩ := h.stops.mp hn
      cases ha
    · rintro ⟨a, ha⟩
      cases ha
    · rw [Course.inside, hfault]
      exact hfinished x
  | ok state =>
    have hfault : c.fault = none := h.stops.mpr ⟨state, rfl⟩
    refine ⟨⟨fun _ => ⟨v.leave state, rfl⟩, fun _ => hfault⟩, hentered, fun x => ?_⟩
    have hcompleted : (c.inside id).completed = c.completed ++ [id] := by
      rw [Course.inside, hfault]
      rfl
    have hinsert : x ∈ (after.finished.insert id (v.leave state)).keys ↔
        x = id ∨ x ∈ t.finished.keys ∨ x ∈ c.completed := by
      rw [OrderedMap.mem_keys_insert]
      exact or_congr_right (hfinished x)
    rw [hcompleted, List.mem_append, List.mem_singleton, ← or_assoc, or_comm]
    exact hinsert

/-! ## One body -/

variable {P : Productions T N} {measure : List T → β}

/-- If every reference of a body is followed beside the traversal, so is the body. -/
theorem walk_follows {v : Valuation T N σ β}
    {follow : Trail N β → N → Except (GrammarError N) β × Trail N β} {course : N → Course N}
    {rest : List (Position × Symbol T N)}
    (hcharts : ∀ id, .nonterminal id ∈ rest.map Prod.snd →
      (course id).Charts P path [.nonterminal id])
    (hcoherent : ∀ id, .nonterminal id ∈ rest.map Prod.snd → ∀ t : Trail N β,
      Coherent P measure t.finished → Coherent P measure (follow t id).2.finished)
    (hfollow : ∀ id, .nonterminal id ∈ rest.map Prod.snd → ∀ t : Trail N β,
      Coherent P measure t.finished → Follows (course id) t (follow t id))
    {state : σ} (ht : Coherent P measure t.finished) :
    Follows (Course.along course (rest.map Prod.snd)) t (v.walk follow state t rest) := by
  induction rest generalizing state t with
  | nil => exact .idle state
  | cons entry rest ih =>
    have ih' := fun t state => @ih t (fun id hid => hcharts id (List.mem_cons_of_mem _ hid))
      (fun id hid => hcoherent id (List.mem_cons_of_mem _ hid))
      (fun id hid => hfollow id (List.mem_cons_of_mem _ hid)) state
    obtain ⟨p, s⟩ := entry
    cases s with
    | terminal a => exact ih' t _ ht
    | nonterminal id =>
      have h := hfollow id List.mem_cons_self t ht
      have ht' := hcoherent id List.mem_cons_self t ht
      rw [List.map_cons, Course.along, Valuation.walk]
      cases hf : follow t id with
      | mk answer t' =>
        rw [hf] at h ht'
        cases answer with
        | error e => exact h.andThen_of_error
        | ok value =>
          exact h.andThen (fun hn x => (hcharts id List.mem_cons_self).mem_completed_iff hn)
            (ih' t' _ ht')

/-! ## The whole recursion -/

/-- What a finished rule reaches is finished. -/
theorem Coherent.of_reaches {finished : OrderedMap N β} (h : Coherent P measure finished) {x y : N}
    (hx : x ∈ finished.keys) (hxy : P.Reaches x y) : y ∈ finished.keys := by
  induction hxy with
  | refl => exact hx
  | tail _ hyz ih => exact h.closed _ _ ih hyz

/-- **A visit follows the traversal without a memo.** -/
theorem visit_follows {rules : OrderedMap N (Body T N)} {v : Valuation T N σ β}
    {Holds : σ → List T → List (Position × Symbol T N) → Prop} (hv : v.Measures measure Holds)
    (hpath : (id :: path).IsChain fun y x => (productionsOf rules).Refers x y)
    (ht : Coherent (productionsOf rules) measure t.finished) :
    Follows (course rules path id) t (visit rules v path t id) := by
  refine visit_induction rules v (motive := fun path t id result =>
    (id :: path).IsChain (fun y x => (productionsOf rules).Refers x y) →
      Coherent (productionsOf rules) measure t.finished →
      Follows (course rules path id) t result)
    ?finished ?undefined ?onPath ?enter path t id hpath ht
  case finished =>
    intro path t id value hf hpath ht
    -- the memo hit: the traversal goes through finished rules only
    obtain ⟨w, hw, rfl⟩ := ht.sound id value hf
    have hcharts := course_charts hpath
    have hanswers : (course rules path id).Answers _ (evaluate rules path id) :=
      course_answers path id
    rw [(evaluate_eq_ok_iff (Productions.leads_of_isChain hpath)).mpr hw] at hanswers
    have hknown : ∀ x ∈ (course rules path id).entered, x ∈ t.finished.keys := by
      intro x hx
      obtain ⟨-, y, hy, hyx⟩ := hcharts.entered x hx
      obtain rfl : y = id := by simpa using hy
      exact ht.of_reaches (OrderedMap.mem_keys_of_get? hf) hyx
    refine ⟨⟨fun _ => ⟨_, rfl⟩, fun _ => hanswers⟩, ?_, fun x => ?_⟩
    · rw [novel_eq_nil hknown, List.append_nil]
      rfl
    · exact (or_iff_left_of_imp fun hx => hknown x (hcharts.completed x hx)).symm
  case undefined =>
    intro path t id _ hr _ _
    rw [course_undefined (productionsOf_eq_none_iff.mpr hr), hv.missing]
    exact .halt _ _
  case onPath =>
    intro path t id b _ hr hp _ _
    rw [course_onPath (productionsOf_of_get? hr) hp]
    exact .halt _ _
  case enter =>
    intro path t id b hf hr hp ih hpath ht
    have hP := productionsOf_of_get? hr
    have hchain : ∀ y, .nonterminal y ∈ b.toList →
        (y :: id :: path).IsChain fun y x => (productionsOf rules).Refers x y :=
      fun y hy => List.isChain_cons_cons.mpr ⟨⟨_, hP, hy⟩, hpath⟩
    have hcharts : ∀ y, .nonterminal y ∈ b.toList →
        (course rules (id :: path) y).Charts (productionsOf rules) (id :: path) [.nonterminal y] :=
      fun y hy => course_charts (hchain y hy)
    have hbody : Follows (Course.along (course rules (id :: path)) b.toList)
        ((t.reach (path.length + 1)).enter id)
        (v.walk (visit rules v (id :: path)) (v.enter b)
          ((t.reach (path.length + 1)).enter id) b.entries) :=
      walk_follows hcharts
        (fun y hy t ht => (visit_visited hv (Productions.leads_of_isChain (hchain y hy))
          ht).extended.coherent)
        (fun y hy t ht => ih t y (hchain y hy) ht) ht
    have hoff : id ∉ (Course.along (course rules (id :: path)) b.toList).entered := by
      intro hx
      exact ((Course.along_charts hcharts).entered id hx).1 List.mem_cons_self
    rw [course_enter hP hp]
    exact hbody.inside (OrderedMap.get?_eq_none_iff.mp hf) hoff

/-! ## Expansions -/

namespace Grammar

variable {g : Grammar T N}

theorem expand_follows (hg : g.Settled) (id : N) :
    Follows (course g.rules [] id) (.ofFinished g.memo)
      (visit g.rules wordOf [] (.ofFinished g.memo) id) := by
  have hmemo : Coherent g.productions (fun w => w) (Trail.ofFinished g.memo).finished := hg
  exact visit_follows wordOf_measures (.singleton id) hmemo

/-- An expansion reports the rules that the traversal enters and the memo does not hold. -/
theorem records_expand (hg : g.Settled) (id : N) :
    (g.expand id).records =
      (novel g.memo.keys (course g.rules [] id).entered).map .expanding := by
  have h : (visit g.rules wordOf [] (.ofFinished g.memo) id).2.entered =
      novel g.memo.keys (course g.rules [] id).entered := (expand_follows hg id).entered
  rw [← h]
  rfl

theorem expanding_mem_records_iff (hg : g.Settled) {x : N} :
    .expanding x ∈ (g.expand id).records ↔
      x ∈ (course g.rules [] id).entered ∧ g.memo.contains x = false := by
  have hout : g.memo.contains x = false ↔ x ∉ g.memo.keys := by
    rw [← OrderedMap.contains_iff, Bool.not_eq_true]
  rw [records_expand hg, hout, ← mem_novel]
  simp

theorem nodup_records_expand (hg : g.Settled) (id : N) : (g.expand id).records.Nodup := by
  rw [records_expand hg]
  refine (nodup_novel _ _).map ?_
  intro x y hxy
  exact Record.expanding.inj hxy

/-- An expansion adds the rules that the traversal completes to the memo. -/
theorem contains_memo_expand_iff (hg : g.Settled) {x : N} :
    (g.expand id).grammar.memo.contains x = true ↔
      g.memo.contains x = true ∨ x ∈ (course g.rules [] id).completed := by
  rw [OrderedMap.contains_iff, OrderedMap.contains_iff]
  exact (expand_follows hg id).finished x

/-- What was memorised before stays as it is. -/
theorem memo_expand_of_get? (hg : g.Settled) {x : N} {w : List T} (h : g.memo.get? x = some w) :
    (g.expand id).grammar.memo.get? x = some w := by
  have hx : (g.expand id).grammar.memo.contains x = true := by
    refine (contains_memo_expand_iff hg).mpr (.inl ?_)
    exact OrderedMap.contains_iff.mpr (OrderedMap.mem_keys_of_get? h)
  obtain ⟨u, hu⟩ := Option.isSome_iff_exists.mp hx
  obtain ⟨v, hv, rfl⟩ := (settled_expand hg id).sound x u hu
  obtain ⟨w, hw, rfl⟩ := hg.sound x w h
  rw [hu, hv.unique hw]

/-- A coherent memo holds no rule from which references lead to a name without a rule, or back to
a name on the way. -/
theorem Settled.not_contains_of_fault (hg : g.Settled) {y : N} {q : List N}
    (hchain : (y :: q).IsChain fun y x => g.productions.Refers x y)
    (hy : g.productions y = none ∨ y ∈ q) {x : N} (hx : x ∈ y :: q) :
    g.memo.contains x = false := by
  rw [← Bool.not_eq_true, OrderedMap.contains_iff]
  intro hmem
  have hleads := Productions.leads_of_isChain hchain
  have hreach : g.productions.Reaches x y := by
    rcases List.mem_cons.mp hx with rfl | hx
    · exact .refl x
    · exact (hleads x hx).to_reflTransGen
  obtain ⟨w, hw⟩ := Option.isSome_iff_exists.mp
    (OrderedMap.contains_iff.mpr (hg.of_reaches hmem hreach))
  obtain ⟨u, hu, -⟩ := hg.sound y w hw
  rcases hy with hnone | hq
  · rw [← Option.not_isSome_iff_eq_none] at hnone
    exact hnone hu.isSome
  · exact hu.not_loops (.refl y) (hleads.loops_of_mem hq)

/-- **What an expansion computes and remembers.** The rules that it reports are those that the
traversal without a memo enters and that were not memorised, each once and in the order of their
first entrance. Old entries stay as they are, and all entries are the derived words.

On success the memo holds the old names and all that the name reaches. On an error the traversal
has a fault, to which a path of references leads from the name, and the memo holds the old names
and those that were completed before the fault: these are the reported ones, without the ones on
the path. No name on the path is memorised, and neither is the one at its end. -/
theorem memo_growth (start : N) (calls : List (Operation T N)) (id : N) :
    let g : Grammar T N := run start calls
    let plain : Course N := course g.rules [] id
    let records := (g.expand id).records
    let memo := (g.expand id).grammar.memo
    records = (novel g.memo.keys plain.entered).map .expanding ∧ records.Nodup ∧
    (∀ x w, g.memo.get? x = some w → memo.get? x = some w) ∧
    (∀ x w, memo.get? x = some w → g.productions.Derives x w) ∧
    (∀ w, (g.expand id).answer = .ok w → plain.fault = none ∧
      (∀ x, memo.contains x = true ↔ g.memo.contains x = true ∨ g.productions.Reaches id x) ∧
      ∀ x, .expanding x ∈ records ↔ g.productions.Reaches id x ∧ g.memo.contains x = false) ∧
    (∀ e, (g.expand id).answer = .error e → ∃ y path, plain.fault = some (y, path) ∧
      (e = .undefinedNonterminal y ∧ g.productions y = none ∨ e = .cycle y ∧ y ∈ path) ∧
      (y :: path).IsChain (fun y x => g.productions.Refers x y) ∧ (y :: path).getLast? = some id ∧
      (∀ x, memo.contains x = true ↔ g.memo.contains x = true ∨ x ∈ plain.completed) ∧
      (∀ x ∈ y :: path, memo.contains x = false) ∧
      ∀ x, .expanding x ∈ records ↔
        x ∈ path ∨ (memo.contains x = true ∧ g.memo.contains x = false)) := by
  intro g plain records memo
  have hg : g.Settled := settled_run start calls
  have hmemo : (g.expand id).grammar.Settled := settled_expand hg id
  have hcharts : plain.Charts g.productions [] [.nonterminal id] :=
    course_charts (.singleton id)
  have hanswers : plain.Answers g.productions (g.expand id).answer := by
    rw [expand_answer hg]
    exact course_answers [] id
  have hcompleted : ∀ x, memo.contains x = true ↔ g.memo.contains x = true ∨ x ∈ plain.completed :=
    fun x => contains_memo_expand_iff hg
  refine ⟨records_expand hg id, nodup_records_expand hg id, fun x w => memo_expand_of_get? hg,
    fun x w hx => ?_, fun w hw => ?_, fun e he => ?_⟩
  · obtain ⟨u, hu, rfl⟩ := hmemo.sound x w hx
    exact hu
  · rw [hw] at hanswers
    have hfault : plain.fault = none := hanswers
    have hentered : ∀ x, x ∈ plain.entered ↔ g.productions.Reaches id x := by
      intro x
      rw [hcharts.mem_entered_iff hfault]
      simp
    refine ⟨hfault, fun x => ?_, fun x => ?_⟩
    · rw [hcompleted, hcharts.mem_completed_iff hfault, hentered]
    · rw [expanding_mem_records_iff hg, hentered]
  · rw [he] at hanswers
    obtain ⟨y, path, hfault, hcause⟩ := hanswers
    obtain ⟨hchain, hlast, hentered⟩ := hcharts.of_fault hfault
    have hout : ∀ x ∈ y :: path, memo.contains x = false :=
      fun x => hmemo.not_contains_of_fault hchain (hcause.imp And.right And.right)
    refine ⟨y, path, hfault, hcause, hchain, hlast, hcompleted, hout, fun x => ?_⟩
    rw [expanding_mem_records_iff hg, hentered, hcompleted]
    cases hold : g.memo.contains x with
    | false => simp [or_comm]
    | true =>
      -- an old entry is still there, so it is not on the way to the fault
      have hx : x ∉ path := by
        intro hx
        have hgone := hout x (List.mem_cons_of_mem _ hx)
        rw [(hcompleted x).mpr (.inl hold)] at hgone
        cases hgone
      simp [hx]

/-- The way to the fault is a loop, and one rule is completed before it; the traversal without a memo
completes that one twice. -/
example :
    let g : Grammar Char Nat := run 0
      [.addRule 0 (.ofList [.nonterminal 1, .nonterminal 2]), .addRule 1 (.ofList [.terminal 'a']),
        .addRule 2 (.ofList [.nonterminal 1, .nonterminal 0])]
    course g.rules [] 0 = ⟨[0, 1, 2, 1], [1, 1], some (0, [2, 0])⟩ ∧
      (g.expand 0).records = [.expanding 0, .expanding 1, .expanding 2] ∧
      (g.expand 0).grammar.memo.keys = [1] := by
  refine ⟨?_, ?_, ?_⟩ <;> cbv

end Grammar

end StraightLine
