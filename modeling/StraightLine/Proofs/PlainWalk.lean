import StraightLine.Proofs.Evaluation

/-!
# The traversal behind an evaluation

`Grammar.evaluate` says which word a name has. This file says which rules are read on the way: a
rule is entered, its references are followed from left to right, the rule is completed, and the
first reference that cannot be followed stops everything. Nothing is remembered here either, so a
rule that is met twice is entered twice.

* `Course` — the rules that were entered and completed, each in the order of events, and the fault.
* `Grammar.course` — the traversal from a name; `course_undefined`, `course_onPath` and
  `course_enter` are its equations.
* `Grammar.course_answers` — it stops exactly where the evaluation has an error, at the reference
  that the error names.
* `Course.Charts`, `Grammar.course_charts` — a traversal without a fault completes what can be
  reached and nothing else; one with a fault has completed all that it entered but the rules on
  the path to the fault.
* `novel` — the first occurrences in a list of what is not known yet.
-/

namespace StraightLine

variable {T N : Type}

/-! ## Courses -/

/-- What a traversal has done. -/
structure Course (N : Type) where
  /-- The rules that were entered, the first one first. -/
  entered : List N
  /-- The rules that were completed, the first one first. -/
  completed : List N
  /-- The reference that could not be followed, with the rules that were under way there, the
  innermost first. -/
  fault : Option (N × List N)

namespace Course

/-- Nothing happens. -/
def idle : Course N := ⟨[], [], none⟩

/-- A reference on the given path cannot be followed. -/
def halt (id : N) (path : List N) : Course N := ⟨[], [], some (id, path)⟩

/-- The second part comes after the first, if that has no fault. -/
def andThen (c d : Course N) : Course N :=
  match c.fault with
  | none => ⟨c.entered ++ d.entered, c.completed ++ d.completed, d.fault⟩
  | some _ => c

/-- The whole happens inside a rule, which is completed if there is no fault. -/
def inside (c : Course N) (id : N) : Course N where
  entered := id :: c.entered
  completed := if c.fault.isNone then c.completed ++ [id] else c.completed
  fault := c.fault

/-- The references among the symbols are followed from left to right. -/
def along (course : N → Course N) : List (Symbol T N) → Course N
  | [] => idle
  | .terminal _ :: ss => along course ss
  | .nonterminal id :: ss => (course id).andThen (along course ss)

variable {c d : Course N}

theorem andThen_of_clear (h : c.fault = none) :
    c.andThen d = ⟨c.entered ++ d.entered, c.completed ++ d.completed, d.fault⟩ := by
  rw [andThen, h]

theorem andThen_of_fault {f : N × List N} (h : c.fault = some f) : c.andThen d = c := by
  rw [andThen, h]

end Course

namespace Grammar

variable [DecidableEq N]

/-- The traversal from `id`, for a reference met on the given path. -/
def course (rules : OrderedMap N (Body T N)) (path : List N) (id : N) : Course N :=
  match _defined : rules.get? id with
  | none => .halt id path
  | some b =>
    if _onPath : id ∈ path then .halt id path
    else (Course.along (course rules (id :: path)) b.toList).inside id
termination_by rulesOff rules path
decreasing_by exact rulesOff_cons_lt (OrderedMap.mem_keys_of_get? _defined) _onPath

variable {rules : OrderedMap N (Body T N)} {path : List N} {id : N}

theorem course_undefined (h : productionsOf rules id = none) :
    course rules path id = .halt id path := by
  rw [productionsOf_eq_none_iff] at h
  rw [course]
  split
  · rfl
  · next b hb => rw [h] at hb; cases hb

theorem course_onPath {ss : List (Symbol T N)} (h : productionsOf rules id = some ss)
    (hp : id ∈ path) : course rules path id = .halt id path := by
  obtain ⟨b, hb, -⟩ := productionsOf_eq_some_iff.mp h
  rw [course]
  split
  · rfl
  · rw [dif_pos hp]

theorem course_enter {ss : List (Symbol T N)} (h : productionsOf rules id = some ss)
    (hp : id ∉ path) :
    course rules path id = (Course.along (course rules (id :: path)) ss).inside id := by
  obtain ⟨b, hb, rfl⟩ := productionsOf_eq_some_iff.mp h
  rw [course]
  split
  · next hn => rw [hb] at hn; cases hn
  · next b' hb' =>
    rw [hb] at hb'
    cases hb'
    rw [dif_neg hp]

end Grammar

/-! ## Faults and errors -/

/-- The course has a fault exactly if the answer is an error, and the error names the reference
that could not be followed: it has no rule, or its rule was under way. -/
def Course.Answers (P : Productions T N) (c : Course N) :
    Except (GrammarError N) (List T) → Prop
  | .ok _ => c.fault = none
  | .error e => ∃ y path, c.fault = some (y, path) ∧
      (e = .undefinedNonterminal y ∧ P y = none ∨ e = .cycle y ∧ y ∈ path)

variable {P : Productions T N}

theorem Course.along_answers {course : N → Course N}
    {word : N → Except (GrammarError N) (List T)} {ss : List (Symbol T N)}
    (h : ∀ id, .nonterminal id ∈ ss → (course id).Answers P (word id)) :
    (Course.along course ss).Answers P (joinWords word ss) := by
  induction ss with
  | nil => rfl
  | cons s ss ih =>
    have ih' := ih fun id hid => h id (List.mem_cons_of_mem _ hid)
    cases s with
    | terminal t =>
      rw [joinWords, Course.along]
      cases hw : joinWords word ss with
      | error e => rw [hw] at ih'; exact ih'
      | ok u => rw [hw] at ih'; exact ih'
    | nonterminal id =>
      have hid := h id List.mem_cons_self
      rw [joinWords, Course.along]
      cases hv : word id with
      | error e =>
        rw [hv] at hid
        obtain ⟨y, path, hf, he⟩ := hid
        rw [Course.andThen_of_fault hf]
        exact ⟨y, path, hf, he⟩
      | ok v =>
        rw [hv] at hid
        rw [Course.andThen_of_clear hid]
        cases hw : joinWords word ss with
        | error e => rw [hw] at ih'; exact ih'
        | ok u => rw [hw] at ih'; exact ih'

/-- **The traversal stops where the evaluation has its error.** -/
theorem Grammar.course_answers [DecidableEq N] {rules : OrderedMap N (Body T N)} (path : List N)
    (id : N) : (course rules path id).Answers (productionsOf rules) (evaluate rules path id) := by
  induction path using path_induction rules generalizing id with
  | step path ih =>
    cases hP : productionsOf rules id with
    | none =>
      rw [course_undefined hP, evaluate_undefined hP]
      exact ⟨id, path, rfl, .inl ⟨rfl, hP⟩⟩
    | some ss =>
      by_cases hp : id ∈ path
      · rw [course_onPath hP hp, evaluate_onPath hP hp]
        exact ⟨id, path, rfl, .inr ⟨rfl, hp⟩⟩
      · rw [course_enter hP hp, evaluate_enter hP hp]
        have hbody : (Course.along (course rules (id :: path)) ss).Answers (productionsOf rules)
            (joinWords (evaluate rules (id :: path)) ss) :=
          Course.along_answers fun y _ => ih id (mem_keys_of_productionsOf hP) hp y
        cases hw : joinWords (evaluate rules (id :: path)) ss with
        | error e => rw [hw] at hbody; exact hbody
        | ok w => rw [hw] at hbody; exact hbody

/-! ## Which rules are entered and completed -/

/-- On a path of references, each rule leads to the name that is met last. -/
theorem Productions.leads_of_isChain {y : N} {path : List N}
    (h : (y :: path).IsChain fun y x => P.Refers x y) : P.Leads path y := by
  induction path generalizing y with
  | nil => exact .nil y
  | cons x path ih =>
    obtain ⟨hxy, hrest⟩ := List.isChain_cons_cons.mp h
    exact (ih hrest).cons hxy

/-- What there is to say about a course along the symbols `ss`, on the given path. -/
structure Course.Charts (P : Productions T N) (path : List N) (ss : List (Symbol T N))
    (c : Course N) : Prop where
  /-- Only what can be reached is entered, and it is not on the path already. -/
  entered : ∀ x ∈ c.entered, x ∉ path ∧ ∃ y, .nonterminal y ∈ ss ∧ P.Reaches y x
  completed : ∀ x ∈ c.completed, x ∈ c.entered
  /-- Without a fault all that can be reached is completed. -/
  whole : c.fault = none → ∀ y x, .nonterminal y ∈ ss → P.Reaches y x → x ∈ c.completed
  /-- References lead from one of the symbols to the fault, and of the rules that were entered
  only those on that way are not completed. -/
  broken : ∀ y q, c.fault = some (y, q) →
    (∃ r, .nonterminal r ∈ ss ∧ r :: path <:+ y :: q) ∧
    (y :: q).IsChain (fun y x => P.Refers x y) ∧
    (∀ x ∈ c.entered, x ∈ c.completed ∨ x ∈ q) ∧
    ∀ x ∈ q, x ∈ path ∨ x ∈ c.entered

namespace Course

variable {path : List N} {id : N} {ss ss' : List (Symbol T N)} {c d : Course N}

/-- Without a fault the rules that are entered are those that can be reached. -/
theorem Charts.mem_entered_iff (hc : c.Charts P path ss) (hf : c.fault = none) {x : N} :
    x ∈ c.entered ↔ ∃ y, .nonterminal y ∈ ss ∧ P.Reaches y x := by
  constructor
  · exact fun hx => (hc.entered x hx).2
  · rintro ⟨y, hy, hyx⟩
    exact hc.completed x (hc.whole hf y x hy hyx)

/-- Without a fault the rules that are completed are those that are entered. -/
theorem Charts.mem_completed_iff (hc : c.Charts P path ss) (hf : c.fault = none) {x : N} :
    x ∈ c.completed ↔ x ∈ c.entered := by
  refine ⟨hc.completed x, fun hx => ?_⟩
  obtain ⟨y, hy, hyx⟩ := (hc.mem_entered_iff hf).mp hx
  exact hc.whole hf y x hy hyx

/-- With a fault there is a way of references to it from the name where the traversal begins, and
the rules that are entered are those that are completed and those on that way. -/
theorem Charts.of_fault (hc : c.Charts P [] [.nonterminal id]) {y : N} {q : List N}
    (hf : c.fault = some (y, q)) :
    (y :: q).IsChain (fun y x => P.Refers x y) ∧ (y :: q).getLast? = some id ∧
      ∀ x, x ∈ c.entered ↔ x ∈ c.completed ∨ x ∈ q := by
  obtain ⟨⟨r, hr, front, hfront⟩, hchain, hentered, hway⟩ := hc.broken y q hf
  obtain rfl : r = id := by simpa using hr
  refine ⟨hchain, ?_, fun x => ⟨hentered x, ?_⟩⟩
  · rw [← hfront, List.getLast?_append, List.getLast?_singleton]
    rfl
  · rintro (hx | hx)
    · exact hc.completed x hx
    · exact (hway x hx).resolve_left List.not_mem_nil

theorem Charts.idle (h : ∀ y, .nonterminal y ∉ ss) : (idle : Course N).Charts P path ss where
  entered x hx := by cases hx
  completed x hx := by cases hx
  whole _ y _ hy := absurd hy (h y)
  broken y q hf := by cases hf

theorem Charts.halt (hpath : (id :: path).IsChain fun y x => P.Refers x y) :
    (halt id path).Charts P path [.nonterminal id] where
  entered x hx := by cases hx
  completed x hx := by cases hx
  whole hf := by cases hf
  broken y q hf := by
    cases hf
    refine ⟨⟨id, List.mem_cons_self, List.suffix_refl _⟩, hpath, fun x hx => ?_,
      fun x hx => .inl hx⟩
    cases hx

theorem Charts.andThen (hc : c.Charts P path ss) (hd : d.Charts P path ss') :
    (c.andThen d).Charts P path (ss ++ ss') := by
  cases hf : c.fault with
  | some f =>
    rw [andThen_of_fault hf]
    refine ⟨fun x hx => ?_, hc.completed, fun hn => ?_, fun y q hq => ?_⟩
    · obtain ⟨hp, y, hy, hyx⟩ := hc.entered x hx
      exact ⟨hp, y, List.mem_append_left _ hy, hyx⟩
    · rw [hf] at hn
      cases hn
    · obtain ⟨⟨r, hr, hsuffix⟩, hrest⟩ := hc.broken y q hq
      exact ⟨⟨r, List.mem_append_left _ hr, hsuffix⟩, hrest⟩
  | none =>
    rw [andThen_of_clear hf]
    constructor
    · intro x hx
      rcases List.mem_append.mp hx with hx | hx
      · obtain ⟨hp, y, hy, hyx⟩ := hc.entered x hx
        exact ⟨hp, y, List.mem_append_left _ hy, hyx⟩
      · obtain ⟨hp, y, hy, hyx⟩ := hd.entered x hx
        exact ⟨hp, y, List.mem_append_right _ hy, hyx⟩
    · intro x hx
      rcases List.mem_append.mp hx with hx | hx
      · exact List.mem_append_left _ (hc.completed x hx)
      · exact List.mem_append_right _ (hd.completed x hx)
    · intro hdf y x hy hyx
      rcases List.mem_append.mp hy with hy | hy
      · exact List.mem_append_left _ (hc.whole hf y x hy hyx)
      · exact List.mem_append_right _ (hd.whole hdf y x hy hyx)
    · intro y q hq
      obtain ⟨⟨r, hr, hsuffix⟩, hchain, hentered, hway⟩ := hd.broken y q hq
      refine ⟨⟨r, List.mem_append_right _ hr, hsuffix⟩, hchain, fun x hx => ?_, fun x hx => ?_⟩
      · rcases List.mem_append.mp hx with hx | hx
        · exact .inl (List.mem_append_left _ ((hc.mem_completed_iff hf).mpr hx))
        · exact (hentered x hx).imp_left (List.mem_append_right _)
      · exact (hway x hx).imp_right (List.mem_append_right _)

/-- A body that is read inside its rule. -/
theorem Charts.inside (hP : P id = some ss) (hid : id ∉ path)
    (hc : c.Charts P (id :: path) ss) : (c.inside id).Charts P path [.nonterminal id] := by
  have hself : (.nonterminal id : Symbol T N) ∈ [.nonterminal id] := List.mem_cons_self
  constructor
  · intro x hx
    rcases List.mem_cons.mp hx with rfl | hx
    · exact ⟨hid, x, hself, .refl x⟩
    · obtain ⟨hp, y, hy, hyx⟩ := hc.entered x hx
      exact ⟨fun h => hp (List.mem_cons_of_mem _ h), id, hself, .head ⟨ss, hP, hy⟩ hyx⟩
  · intro x hx
    rw [Course.inside] at hx ⊢
    split at hx
    · rcases List.mem_append.mp hx with hx | hx
      · exact List.mem_cons_of_mem _ (hc.completed x hx)
      · exact List.mem_cons.mpr (.inl (List.mem_singleton.mp hx))
    · exact List.mem_cons_of_mem _ (hc.completed x hx)
  · intro hf y x hy hyx
    obtain rfl : y = id := by simpa using hy
    have hnone : c.fault = none := hf
    rw [Course.inside, hnone]
    show x ∈ c.completed ++ [y]
    rcases Relation.ReflTransGen.cases_head hyx with rfl | ⟨z, ⟨ss', hss', hz⟩, hzx⟩
    · exact List.mem_append_right _ List.mem_cons_self
    · rw [hP] at hss'
      cases hss'
      exact List.mem_append_left _ (hc.whole hnone z x hz hzx)
  · intro y q hf
    have hfault : c.fault = some (y, q) := hf
    obtain ⟨⟨r, hr, hsuffix⟩, hchain, hentered, hway⟩ := hc.broken y q hf
    have hq : id :: path <:+ q := by
      rcases List.suffix_cons_iff.mp hsuffix with h | h
      · cases h
        exact List.suffix_refl _
      · exact (List.suffix_cons ..).trans h
    have hcompleted : (c.inside id).completed = c.completed := by rw [Course.inside, hfault]; rfl
    refine ⟨⟨id, hself, hq.trans (List.suffix_cons ..)⟩, hchain, fun x hx => ?_, fun x hx => ?_⟩
    · rw [hcompleted]
      rcases List.mem_cons.mp hx with rfl | hx
      · exact .inr (hq.subset List.mem_cons_self)
      · exact hentered x hx
    · rcases hway x hx with hp | hx
      · rcases List.mem_cons.mp hp with rfl | hp
        · exact .inr List.mem_cons_self
        · exact .inl hp
      · exact .inr (List.mem_cons_of_mem _ hx)

/-- One body. -/
theorem along_charts {course : N → Course N}
    (h : ∀ id, .nonterminal id ∈ ss → (course id).Charts P path [.nonterminal id]) :
    (along course ss).Charts P path ss := by
  induction ss with
  | nil => exact .idle fun y hy => by cases hy
  | cons s ss ih =>
    have hrest := ih fun id hid => h id (List.mem_cons_of_mem _ hid)
    cases s with
    | terminal t =>
      have hletter : (Course.idle : Course N).Charts P path [.terminal t] :=
        .idle fun y hy => by simp at hy
      exact hletter.andThen hrest
    | nonterminal id => exact (h id List.mem_cons_self).andThen hrest

end Course

/-- **What a traversal enters and completes**, from a name to which a path of references leads. -/
theorem Grammar.course_charts [DecidableEq N] {rules : OrderedMap N (Body T N)} {path : List N}
    {id : N} (hpath : (id :: path).IsChain fun y x => (productionsOf rules).Refers x y) :
    (course rules path id).Charts (productionsOf rules) path [.nonterminal id] := by
  induction path using path_induction rules generalizing id with
  | step path ih =>
    cases hP : productionsOf rules id with
    | none =>
      rw [course_undefined hP]
      exact .halt hpath
    | some ss =>
      by_cases hp : id ∈ path
      · rw [course_onPath hP hp]
        exact .halt hpath
      · rw [course_enter hP hp]
        refine .inside hP hp (Course.along_charts fun y hy => ?_)
        have hrefers : (productionsOf rules).Refers id y := ⟨ss, hP, hy⟩
        exact ih id (mem_keys_of_productionsOf hP) hp
          (List.isChain_cons_cons.mpr ⟨hrefers, hpath⟩)

/-! ## First occurrences -/

section

variable [DecidableEq N]

/-- What occurs in a list and is not known, each at its first occurrence. -/
def novel (known : List N) : List N → List N
  | [] => []
  | x :: xs => if x ∈ known then novel known xs else x :: novel (x :: known) xs

theorem mem_novel {known xs : List N} {x : N} : x ∈ novel known xs ↔ x ∈ xs ∧ x ∉ known := by
  induction xs generalizing known with
  | nil => simp [novel]
  | cons y xs ih =>
    rw [novel]
    by_cases hy : y ∈ known
    · rw [if_pos hy, ih, List.mem_cons]
      constructor
      · exact fun ⟨hx, hk⟩ => ⟨.inr hx, hk⟩
      · rintro ⟨rfl | hx, hk⟩
        · exact absurd hy hk
        · exact ⟨hx, hk⟩
    · rw [if_neg hy, List.mem_cons, ih, List.mem_cons, List.mem_cons]
      by_cases hxy : x = y
      · subst hxy
        simp [hy]
      · simp [hxy]

theorem nodup_novel (known xs : List N) : (novel known xs).Nodup := by
  induction xs generalizing known with
  | nil => exact List.nodup_nil
  | cons y xs ih =>
    rw [novel]
    split
    · exact ih known
    · refine List.nodup_cons.mpr ⟨fun hy => ?_, ih _⟩
      exact (mem_novel.mp hy).2 List.mem_cons_self

/-- Only what occurs in the list has to be known or not. -/
theorem novel_congr {known known' xs : List N} (h : ∀ x ∈ xs, x ∈ known ↔ x ∈ known') :
    novel known xs = novel known' xs := by
  induction xs generalizing known known' with
  | nil => rfl
  | cons y xs ih =>
    have hxs := fun x hx => h x (List.mem_cons_of_mem y hx)
    rw [novel, novel, ih hxs]
    have hcons : novel (y :: known) xs = novel (y :: known') xs := by
      refine ih fun x hx => ?_
      rw [List.mem_cons, List.mem_cons, hxs x hx]
    rw [hcons]
    simp only [h y List.mem_cons_self]

theorem novel_append (known xs ys : List N) :
    novel known (xs ++ ys) = novel known xs ++ novel (xs ++ known) ys := by
  induction xs generalizing known with
  | nil => rfl
  | cons x xs ih =>
    rw [List.cons_append, novel, novel, ih, ih]
    have hordered : novel (xs ++ x :: known) ys = novel (x :: xs ++ known) ys :=
      novel_congr fun y _ => by simp [or_left_comm]
    have hknown : x ∈ known → novel (xs ++ known) ys = novel (x :: xs ++ known) ys := by
      intro hx
      refine novel_congr fun y _ => ?_
      rw [List.cons_append, List.mem_cons]
      refine ⟨.inr, ?_⟩
      rintro (rfl | hy)
      · exact List.mem_append_right _ hx
      · exact hy
    split
    · next hx => rw [hknown hx]
    · rw [hordered]
      rfl

theorem novel_cons_of_not_mem {known xs : List N} {x : N} (hx : x ∉ known) (hxs : x ∉ xs) :
    novel known (x :: xs) = x :: novel known xs := by
  have hcongr : novel (x :: known) xs = novel known xs := by
    refine novel_congr fun y hy => ?_
    have hyx : y ≠ x := fun he => hxs (he ▸ hy)
    simp [hyx]
  rw [novel, if_neg hx, hcongr]

theorem novel_eq_nil {known xs : List N} (h : ∀ x ∈ xs, x ∈ known) : novel known xs = [] := by
  rw [List.eq_nil_iff_forall_not_mem]
  intro x hx
  obtain ⟨hmem, hnew⟩ := mem_novel.mp hx
  exact hnew (h x hmem)

end

end StraightLine
