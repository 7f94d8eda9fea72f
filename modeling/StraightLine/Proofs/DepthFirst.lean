import Mathlib.Data.List.Perm.Subperm
import StraightLine.Grammar.Merge
import StraightLine.Proofs.Visit

/-!
# A depth-first walk ends and repeats nothing

`Grammar.visit` is a recursion with a measure. Here it is written once more without one, as a
relation between a call and its end: there is a derivation exactly for what comes to an end. The
derivation also counts the calls that were made and says how deep they were nested.

* `Ends` — a `Job` ends with an answer and a trail. There is one relation for the two jobs, to
  follow a reference and to read a body, so that a proof about all calls is one induction.
* `Spends` — what a job costs: it enters rules that were neither finished nor under way, each once,
  and for each reference in their bodies there is at most one call. `Ends.exists_spends` — this
  holds of every job, and `Ends.nested_le` and `Ends.depth_eq` are about its depth.
* `visit_ends`, `visitAll_ends` — every visit comes to an end, and its answer is the function's.
* `Thrifty` — what follows for a walk with nothing under way at the beginning: `Ends.thrifty` and
  `EndsAll.thrifty`.

Nothing is asked of the rules, of the valuation, or of the finished rules at the beginning.
-/

namespace StraightLine

variable {T N σ β : Type}

/-! ## The recursion without a measure -/

/-- What a depth-first walk has to do next. -/
inductive Job (T N σ : Type) where
  /-- A reference is followed, with the rules on the path under way. -/
  | follow (path : List N) (id : N)
  /-- Entries are read up to the end of their body, whose rule is the innermost one on the path. -/
  | read (path : List N) (state : σ) (rest : List (Position × Symbol T N))

namespace Job

/-- The rules under way. -/
def path : Job T N σ → List N
  | follow path _ => path
  | read path _ _ => path

/-- The references that the job is about to follow itself. -/
def asked : Job T N σ → Nat
  | follow _ _ => 1
  | read _ _ rest => ((rest.map Prod.snd).filterMap Symbol.nonterminal?).length

theorem asked_reference (path : List N) (s s' : σ) (p : Position) (id : N)
    (rest : List (Position × Symbol T N)) :
    (read path s ((p, .nonterminal id) :: rest)).asked = (read path s' rest).asked + 1 := rfl

end Job

/-- Notes the value of a rule, if it has come to one. -/
def Trail.settle [DecidableEq N] (t : Trail N β) (id : N) : Except (GrammarError N) β → Trail N β
  | .ok value => t.finish id value
  | .error _ => t

/-- A job comes to an end, with so many calls and so many of them at once. A body that was read is
left at once, so both jobs have the value of a rule as their answer. -/
inductive Ends [DecidableEq N] (rules : OrderedMap N (Body T N)) (v : Valuation T N σ β) :
    Job T N σ → Trail N β → (answer : Except (GrammarError N) β) → Trail N β →
      (calls nested : Nat) → Prop
  | finished {path t id value} : t.finished.get? id = some value →
      Ends rules v (.follow path id) t (.ok value) (t.reach (path.length + 1)) 1 1
  | undefined {path t id} : t.finished.get? id = none → rules.get? id = none →
      Ends rules v (.follow path id) t (v.missing id) (t.reach (path.length + 1)) 1 1
  | onPath {path t id b} : t.finished.get? id = none → rules.get? id = some b → id ∈ path →
      Ends rules v (.follow path id) t (.error (.cycle id)) (t.reach (path.length + 1)) 1 1
  | enter {path t id b answer t' calls nested} : t.finished.get? id = none →
      rules.get? id = some b → id ∉ path →
      Ends rules v (.read (id :: path) (v.enter b) b.entries)
        ((t.reach (path.length + 1)).enter id) answer t' calls nested →
      Ends rules v (.follow path id) t answer (t'.settle id answer) (calls + 1) (nested + 1)
  | leave {path s t} : Ends rules v (.read path s []) t (.ok (v.leave s)) t 0 0
  | letter {path s p a rest t answer t' calls nested} :
      Ends rules v (.read path (v.letter s p a) rest) t answer t' calls nested →
      Ends rules v (.read path s ((p, .terminal a) :: rest)) t answer t' calls nested
  | halt {path s p id rest t e t' calls nested} :
      Ends rules v (.follow path id) t (.error e) t' calls nested →
      Ends rules v (.read path s ((p, .nonterminal id) :: rest)) t (.error e) t' calls nested
  | goOn {path s p id rest t value t' answer t'' m n k l} :
      Ends rules v (.follow path id) t (.ok value) t' m k →
      Ends rules v (.read path (v.reference s p value) rest) t' answer t'' n l →
      Ends rules v (.read path s ((p, .nonterminal id) :: rest)) t answer t'' (m + n) (max k l)

/-- The same for several roots, one after the other. -/
inductive EndsAll [DecidableEq N] (rules : OrderedMap N (Body T N)) (v : Valuation T N σ β) :
    List N → Trail N β → (answer : Except (GrammarError N) Unit) → Trail N β →
      (calls nested : Nat) → Prop
  | nil {t} : EndsAll rules v [] t (.ok ()) t 0 0
  | halt {id ids t e t' calls nested} :
      Ends rules v (.follow [] id) t (.error e) t' calls nested →
      EndsAll rules v (id :: ids) t (.error e) t' calls nested
  | goOn {id ids t value t' answer t'' m n k l} :
      Ends rules v (.follow [] id) t (.ok value) t' m k →
      EndsAll rules v ids t' answer t'' n l →
      EndsAll rules v (id :: ids) t answer t'' (m + n) (max k l)

open Grammar

section

variable [DecidableEq N] {rules : OrderedMap N (Body T N)} {v : Valuation T N σ β}

/-! ## Every walk ends -/

/-- If every reference of a body can be followed to an end, the body can be read to its end. -/
theorem walk_ends {path : List N}
    {follow : Trail N β → N → Except (GrammarError N) β × Trail N β}
    (hfollow : ∀ t id, ∃ calls nested,
      Ends rules v (.follow path id) t (follow t id).1 (follow t id).2 calls nested)
    (state : σ) (t : Trail N β) (rest : List (Position × Symbol T N)) :
    ∃ calls nested, Ends rules v (.read path state rest) t
      ((v.walk follow state t rest).1.map v.leave) (v.walk follow state t rest).2 calls nested := by
  induction rest generalizing state t with
  | nil => exact ⟨0, 0, .leave⟩
  | cons entry rest ih =>
    obtain ⟨p, x⟩ := entry
    cases x with
    | terminal a =>
      obtain ⟨calls, nested, h⟩ := ih (v.letter state p a) t
      exact ⟨calls, nested, .letter h⟩
    | nonterminal id =>
      obtain ⟨m, k, h⟩ := hfollow t id
      rw [Valuation.walk]
      cases hf : follow t id with
      | mk answer t' =>
        rw [hf] at h
        cases answer with
        | error e => exact ⟨m, k, .halt h⟩
        | ok value =>
          obtain ⟨n, l, h'⟩ := ih (v.reference state p value) t'
          exact ⟨m + n, max k l, .goOn h h'⟩

/-- **Every visit comes to an end**, whatever the rules are, with the answer of `Grammar.visit`. -/
theorem visit_ends (rules : OrderedMap N (Body T N)) (v : Valuation T N σ β) (path : List N)
    (t : Trail N β) (id : N) :
    ∃ calls nested, Ends rules v (.follow path id) t (visit rules v path t id).1
      (visit rules v path t id).2 calls nested := by
  refine visit_induction rules v (motive := fun path t id result => ∃ calls nested,
    Ends rules v (.follow path id) t result.1 result.2 calls nested)
    ?finished ?undefined ?onPath ?enter path t id
  case finished => exact fun path t id value hf => ⟨1, 1, .finished hf⟩
  case undefined => exact fun path t id hf hr => ⟨1, 1, .undefined hf hr⟩
  case onPath => exact fun path t id b hf hr hp => ⟨1, 1, .onPath hf hr hp⟩
  case enter =>
    intro path t id b hf hr hp ih
    obtain ⟨calls, nested, h⟩ :=
      walk_ends ih (v.enter b) ((t.reach (path.length + 1)).enter id) b.entries
    refine ⟨calls + 1, nested + 1, ?_⟩
    generalize v.walk (visit rules v (id :: path)) (v.enter b)
      ((t.reach (path.length + 1)).enter id) b.entries = result at h
    obtain ⟨_ | _, after⟩ := result <;> exact .enter hf hr hp h

/-- Every walk from several roots comes to an end. -/
theorem visitAll_ends (rules : OrderedMap N (Body T N)) (v : Valuation T N σ β) (ids : List N)
    (t : Trail N β) :
    ∃ calls nested, EndsAll rules v ids t (visitAll rules v t ids).1 (visitAll rules v t ids).2
      calls nested := by
  induction ids generalizing t with
  | nil => exact ⟨0, 0, .nil⟩
  | cons id ids ih =>
    obtain ⟨m, k, h⟩ := visit_ends rules v [] t id
    rw [visitAll]
    cases hv : visit rules v [] t id with
    | mk answer t' =>
      rw [hv] at h
      cases answer with
      | error e => exact ⟨m, k, .halt h⟩
      | ok value =>
        obtain ⟨n, l, h'⟩ := ih t'
        exact ⟨m + n, max k l, .goOn h h'⟩

/-! ## The depth -/

/-- The trail notes how deep the calls are nested. -/
theorem Ends.depth_eq {job : Job T N σ} {t t' : Trail N β} {answer : Except (GrammarError N) β}
    {calls nested : Nat} (h : Ends rules v job t answer t' calls nested)
    (ht : job.path.length ≤ t.depth) : t'.depth = max t.depth (job.path.length + nested) := by
  induction h with
  | finished | undefined | onPath => rfl
  | @enter path t id b answer t' _ nested _ _ _ _ ih =>
    have hbody : t'.depth = max (max t.depth (path.length + 1)) (path.length + 1 + nested) :=
      ih (Nat.le_max_right ..)
    have hsettle : (t'.settle id answer).depth = t'.depth := by cases answer <;> rfl
    rw [hsettle, hbody]
    show _ = max t.depth (path.length + (nested + 1))
    omega
  | leave => exact (Nat.max_eq_left ht).symm
  | letter _ ih => exact ih ht
  | halt _ ih => exact ih ht
  | @goOn path _ _ _ _ t _ t' _ t'' _ _ k l _ _ ih ih' =>
    have hfirst : t'.depth = max t.depth (path.length + k) := ih ht
    have hmiddle : path.length ≤ t'.depth := by
      rw [hfirst]
      exact Nat.le_trans ht (Nat.le_max_left ..)
    have hrest : t''.depth = max t'.depth (path.length + l) := ih' hmiddle
    show t''.depth = max t.depth (path.length + max k l)
    omega

omit [DecidableEq N] in
/-- No path is longer than the list of rules. -/
theorem length_le_size {path : List N} (hnodup : path.Nodup) (hrules : ∀ x ∈ path, x ∈ rules.keys) :
    path.length ≤ rules.size := by
  rw [OrderedMap.size_eq_length_keys]
  exact (hnodup.subperm hrules).length_le

/-- **Calls are nested no deeper than there are rules, and one more.** Every call but the innermost
one has put a new rule on the path. -/
theorem Ends.nested_le {job : Job T N σ} {t t' : Trail N β} {answer : Except (GrammarError N) β}
    {calls nested : Nat} (h : Ends rules v job t answer t' calls nested) (hnodup : job.path.Nodup)
    (hrules : ∀ x ∈ job.path, x ∈ rules.keys) : job.path.length + nested ≤ rules.size + 1 := by
  induction h with
  | finished | undefined | onPath => exact Nat.succ_le_succ (length_le_size hnodup hrules)
  | @enter path _ id _ _ _ _ nested _ hr hp _ ih =>
    have hbody : path.length + 1 + nested ≤ rules.size + 1 :=
      ih (List.nodup_cons.mpr ⟨hp, hnodup⟩)
        (List.forall_mem_cons.mpr ⟨OrderedMap.mem_keys_of_get? hr, hrules⟩)
    show path.length + (nested + 1) ≤ rules.size + 1
    omega
  | leave => exact Nat.le_succ_of_le (length_le_size hnodup hrules)
  | letter _ ih => exact ih hnodup hrules
  | halt _ ih => exact ih hnodup hrules
  | @goOn path _ _ _ _ _ _ _ _ _ _ _ k l _ _ ih ih' =>
    have hfirst : path.length + k ≤ rules.size + 1 := ih hnodup hrules
    have hrest : path.length + l ≤ rules.size + 1 := ih' hnodup hrules
    show path.length + max k l ≤ rules.size + 1
    omega

/-! ## The calls -/

/-- What a job costs that follows `asked` references itself: it enters the rules `fresh`, and there
are no more calls than references that are met. -/
structure Spends (rules : OrderedMap N (Body T N)) (path : List N) (asked : Nat) (t : Trail N β)
    {α : Type} (answer : Except (GrammarError N) α) (t' : Trail N β) (calls : Nat)
    (fresh : List N) : Prop where
  entered : t'.entered = t.entered ++ fresh
  nodup : fresh.Nodup
  new : ∀ x ∈ fresh, x ∈ rules.keys ∧ x ∉ t.finished.keys ∧ x ∉ path
  keeps : ∀ x ∈ t.finished.keys, x ∈ t'.finished.keys
  done : ∀ value, answer = .ok value → ∀ x ∈ fresh, x ∈ t'.finished.keys
  calls_le : calls ≤ asked + (fresh.map fun x => (referencesOf rules x).length).sum

namespace Spends

variable {path : List N} {t t' t'' : Trail N β} {a b m n : Nat} {xs ys : List N} {id : N}

/-- A job that enters no rule. -/
theorem idle {α : Type} {answer : Except (GrammarError N) α} (hentered : t'.entered = t.entered)
    (hfinished : t'.finished = t.finished) (hcalls : m ≤ a) :
    Spends rules path a t answer t' m [] where
  entered := by rw [hentered, List.append_nil]
  nodup := .nil
  new := List.forall_mem_nil _
  keeps := by
    rw [hfinished]
    exact fun _ hx => hx
  done _ _ := List.forall_mem_nil _
  calls_le := hcalls

/-- One job after another. What the first one entered it has finished, so the second one does not
enter it again. -/
theorem andThen {α γ : Type} {value : α} {answer : Except (GrammarError N) γ}
    (h : Spends rules path a t (.ok value : Except (GrammarError N) α) t' m xs)
    (h' : Spends rules path b t' answer t'' n ys) :
    Spends rules path (a + b) t answer t'' (m + n) (xs ++ ys) where
  entered := by rw [h'.entered, h.entered, List.append_assoc]
  nodup := by
    refine List.nodup_append.mpr ⟨h.nodup, h'.nodup, ?_⟩
    rintro x hx _ hy rfl
    exact (h'.new x hy).2.1 (h.done value rfl x hx)
  new := by
    intro x hx
    rcases List.mem_append.mp hx with hx | hx
    · exact h.new x hx
    · obtain ⟨hkey, hnew, hoff⟩ := h'.new x hx
      exact ⟨hkey, fun hold => hnew (h.keeps x hold), hoff⟩
  keeps x hx := h'.keeps x (h.keeps x hx)
  done := by
    intro c hc x hx
    rcases List.mem_append.mp hx with hx | hx
    · exact h'.keeps x (h.done value rfl x hx)
    · exact h'.done c hc x hx
  calls_le := by
    have hm := h.calls_le
    have hn := h'.calls_le
    rw [List.map_append, List.sum_append]
    omega

/-- An error is the end also where more references would have been followed. -/
theorem halt {α γ : Type} {e : GrammarError N}
    (h : Spends rules path a t (.error e : Except (GrammarError N) α) t' m xs) (hab : a ≤ b) :
    Spends rules path b t (.error e : Except (GrammarError N) γ) t' m xs :=
  ⟨h.entered, h.nodup, h.new, h.keeps, nofun,
    Nat.le_trans h.calls_le (Nat.add_le_add_right hab _)⟩

/-- A rule is entered, and its body is read. -/
theorem enter {answer : Except (GrammarError N) β} {depth : Nat} (hkey : id ∈ rules.keys)
    (hnew : id ∉ t.finished.keys) (hoff : id ∉ path)
    (h : Spends rules (id :: path) (referencesOf rules id).length ((t.reach depth).enter id) answer
      t' m xs) :
    Spends rules path 1 t answer (t'.settle id answer) (m + 1) (id :: xs) where
  entered := by
    have hsettle : (t'.settle id answer).entered = t'.entered := by cases answer <;> rfl
    rw [hsettle, h.entered]
    show t.entered ++ [id] ++ xs = _
    rw [List.append_assoc, List.singleton_append]
  nodup := List.nodup_cons.mpr
    ⟨fun hid => (h.new id hid).2.2 List.mem_cons_self, h.nodup⟩
  new := by
    refine List.forall_mem_cons.mpr ⟨⟨hkey, hnew, hoff⟩, fun x hx => ?_⟩
    obtain ⟨hk, hn, hp⟩ := h.new x hx
    exact ⟨hk, hn, fun hpath => hp (List.mem_cons_of_mem id hpath)⟩
  keeps := by
    intro x hx
    cases answer with
    | error e => exact h.keeps x hx
    | ok value => exact (OrderedMap.mem_keys_insert ..).mpr (.inr (h.keeps x hx))
  done := by
    rintro value rfl x hx
    refine (OrderedMap.mem_keys_insert ..).mpr ?_
    exact (List.mem_cons.mp hx).imp_right (h.done value rfl x)
  calls_le := by
    have hbody := h.calls_le
    rw [List.map_cons, List.sum_cons]
    omega

end Spends

/-- **A job enters new rules only, each of them once, and follows each reference in them at most
once.** -/
theorem Ends.exists_spends {job : Job T N σ} {t t' : Trail N β}
    {answer : Except (GrammarError N) β} {calls nested : Nat}
    (h : Ends rules v job t answer t' calls nested) :
    ∃ fresh, Spends rules job.path job.asked t answer t' calls fresh := by
  induction h with
  | finished | undefined | onPath => exact ⟨[], .idle rfl rfl (Nat.le_refl 1)⟩
  | @enter path t id b answer t' calls _ hf hr hp _ ih =>
    obtain ⟨fresh, hbody⟩ := ih
    have hrefs : referencesOf rules id = b.references := by rw [referencesOf, hr]
    have hrule : Spends rules (id :: path) (referencesOf rules id).length
        ((t.reach (path.length + 1)).enter id) answer t' calls fresh := by
      rw [hrefs]
      exact hbody
    exact ⟨id :: fresh, hrule.enter (OrderedMap.mem_keys_of_get? hr)
      (OrderedMap.get?_eq_none_iff.mp hf) hp⟩
  | leave => exact ⟨[], .idle rfl rfl (Nat.le_refl 0)⟩
  | letter _ ih => exact ih
  | halt _ ih =>
    obtain ⟨fresh, hfirst⟩ := ih
    exact ⟨fresh, hfirst.halt (Nat.le_add_left ..)⟩
  | goOn _ _ ih ih' =>
    obtain ⟨xs, hfirst⟩ := ih
    obtain ⟨ys, hrest⟩ := ih'
    refine ⟨xs ++ ys, ?_⟩
    rw [Job.asked_reference, Nat.add_comm]
    exact hfirst.andThen hrest

/-! ## Several roots -/

theorem EndsAll.depth_eq {ids : List N} {t t' : Trail N β} {answer : Except (GrammarError N) Unit}
    {calls nested : Nat} (h : EndsAll rules v ids t answer t' calls nested) :
    t'.depth = max t.depth nested := by
  induction h with
  | nil => exact (Nat.max_eq_left (Nat.zero_le _)).symm
  | @halt _ _ t _ t' _ nested h =>
    have hroot : t'.depth = max t.depth (0 + nested) := h.depth_eq (Nat.zero_le _)
    omega
  | @goOn _ _ t _ t' _ _ _ _ k _ h _ ih =>
    have hroot : t'.depth = max t.depth (0 + k) := h.depth_eq (Nat.zero_le _)
    omega

theorem EndsAll.nested_le {ids : List N} {t t' : Trail N β} {answer : Except (GrammarError N) Unit}
    {calls nested : Nat} (h : EndsAll rules v ids t answer t' calls nested) :
    nested ≤ rules.size + 1 := by
  have hroot : ∀ {id t answer t' calls nested},
      Ends rules v (.follow [] id) t answer t' calls nested → nested ≤ rules.size + 1 := by
    intro _ _ _ _ _ nested h
    have hle : 0 + nested ≤ rules.size + 1 := h.nested_le .nil (List.forall_mem_nil _)
    omega
  induction h with
  | nil => exact Nat.zero_le _
  | halt h => exact hroot h
  | goOn h _ ih => exact Nat.max_le.mpr ⟨hroot h, ih⟩

theorem EndsAll.exists_spends {ids : List N} {t t' : Trail N β}
    {answer : Except (GrammarError N) Unit} {calls nested : Nat}
    (h : EndsAll rules v ids t answer t' calls nested) :
    ∃ fresh, Spends rules [] ids.length t answer t' calls fresh := by
  induction h with
  | nil => exact ⟨[], .idle rfl rfl (Nat.le_refl 0)⟩
  | halt h =>
    obtain ⟨fresh, hroot⟩ := h.exists_spends
    exact ⟨fresh, hroot.halt (Nat.le_add_left ..)⟩
  | goOn h _ ih =>
    obtain ⟨xs, hroot⟩ := h.exists_spends
    obtain ⟨ys, hrest⟩ := ih
    refine ⟨xs ++ ys, ?_⟩
    rw [List.length_cons, Nat.add_comm]
    exact hroot.andThen hrest

/-! ## A whole walk -/

/-- The references in all bodies together. -/
def Grammar.allReferences (rules : OrderedMap N (Body T N)) : Nat :=
  (rules.values.map fun b => (Body.references b).length).sum

theorem Grammar.unseenReferences_nil : unseenReferences rules [] = allReferences rules := by
  simp [unseenReferences, allReferences, OrderedMap.values, Function.comp_def]

/-- Rules that were not seen have no more references than there are unseen ones. -/
theorem Grammar.sum_references_le {xs seen : List N} (hn : xs.Nodup) (hnew : ∀ x ∈ xs, x ∉ seen) :
    (xs.map fun x => (referencesOf rules x).length).sum ≤ unseenReferences rules seen := by
  induction xs generalizing seen with
  | nil => exact Nat.zero_le _
  | cons x xs ih =>
    obtain ⟨hx, hn⟩ := List.nodup_cons.mp hn
    have hrest := @ih (x :: seen) hn fun y hy => by
      rw [List.mem_cons, not_or]
      exact ⟨fun he => hx (he ▸ hy), hnew y (List.mem_cons_of_mem x hy)⟩
    have hfirst := unseenReferences_cons_add_le rules (hnew x List.mem_cons_self)
    rw [List.map_cons, List.sum_cons]
    omega

/-- What is known of a walk that began with `asked` names and with nothing under way: no body was
entered twice, each reference was followed at most once, and the calls were nested no deeper than
there are rules, and one more. -/
structure Thrifty (rules : OrderedMap N (Body T N)) (asked : Nat) (t : Trail N β)
    (calls nested : Nat) : Prop where
  once : t.entered.Nodup
  defined : ∀ x ∈ t.entered, x ∈ rules.keys
  calls_le : calls ≤ asked + allReferences rules
  nested_le : nested ≤ rules.size + 1
  depth_eq : t.depth = nested

theorem Spends.thrifty {α : Type} {asked : Nat} {m : OrderedMap N β}
    {answer : Except (GrammarError N) α} {t : Trail N β} {calls nested : Nat} {fresh : List N}
    (h : Spends rules [] asked (.ofFinished m) answer t calls fresh)
    (hnested : nested ≤ rules.size + 1) (hdepth : t.depth = nested) :
    Thrifty rules asked t calls nested := by
  have hentered : t.entered = fresh := h.entered
  refine ⟨hentered ▸ h.nodup, fun x hx => (h.new x (hentered ▸ hx)).1, ?_, hnested, hdepth⟩
  refine Nat.le_trans h.calls_le (Nat.add_le_add_left ?_ asked)
  rw [← unseenReferences_nil]
  exact sum_references_le h.nodup fun x _ => List.not_mem_nil

/-- **A visit with nothing under way is thrifty**, whatever is finished already. -/
theorem Ends.thrifty {id : N} {m : OrderedMap N β} {answer : Except (GrammarError N) β}
    {t : Trail N β} {calls nested : Nat}
    (h : Ends rules v (.follow [] id) (.ofFinished m) answer t calls nested) :
    Thrifty rules 1 t calls nested := by
  obtain ⟨fresh, hspends⟩ := h.exists_spends
  have hnested : 0 + nested ≤ rules.size + 1 := h.nested_le .nil (List.forall_mem_nil _)
  have hdepth : t.depth = max 0 (0 + nested) := h.depth_eq (Nat.le_refl 0)
  exact hspends.thrifty (by omega) (by omega)

/-- The depth is reached: two rules in a row, and behind them a name without a rule. -/
example :
    let g : Grammar Char Nat := ofStart 0
    let g := (g.addRule 0 (.ofList [.nonterminal 1])).2
    let g := (g.addRule 1 (.ofList [.nonterminal 2])).2
    (visit g.rules lengthOf [] (.ofFinished .empty) g.start).2.depth = g.size + 1 := by
  decide +kernel

/-- **So is a walk from several roots.** -/
theorem EndsAll.thrifty {ids : List N} {m : OrderedMap N β} {answer : Except (GrammarError N) Unit}
    {t : Trail N β} {calls nested : Nat}
    (h : EndsAll rules v ids (.ofFinished m) answer t calls nested) :
    Thrifty rules ids.length t calls nested := by
  obtain ⟨fresh, hspends⟩ := h.exists_spends
  have hdepth : t.depth = max 0 nested := h.depth_eq
  exact hspends.thrifty h.nested_le (by omega)

end

end StraightLine
