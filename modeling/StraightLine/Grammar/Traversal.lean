import StraightLine.Grammar.Basic

/-!
# Walking the rules depth first

Expanding a nonterminal, measuring its word and looking for cycles are one walk: the body of a
rule is read from front to back, each reference is followed at once, and a rule that was finished
once is not walked again. They differ in the value that a rule gets, which is a `Valuation`. So one
recursion stands here for three: `expand_into_cache`, `expanded_len_memo` and `visit_acyclic`. What
is in progress there is the path here, and their tables are the table of the `Trail`.

* `Valuation.walk` reads the entries of one body, given a way to follow a reference.
* `Grammar.visit` follows one reference. A name on the path from the root is a cycle. Each call
  that goes deeper has one rule more on its path, so the walk ends on every grammar.
* `Trail` is what a walk leaves behind, also when it fails: the finished rules with their values,
  the rules whose bodies were entered, in that order, and how deep the calls were nested.
* `Grammar.visitAll` walks from several roots with one trail.
-/

namespace StraightLine

/-! ## Valuations and trails -/

/-- How a rule gets a value of type `β` from its body, by way of a state of type `σ`. -/
structure Valuation (T N σ β : Type) where
  /-- The state before the first symbol. -/
  enter : Body T N → σ
  /-- The state after a terminal. -/
  letter : σ → Position → T → σ
  /-- The state after a reference, whose rule has the given value. -/
  reference : σ → Position → β → σ
  /-- The value of the rule, after the last symbol. -/
  leave : σ → β
  /-- The answer for a name without a rule. -/
  missing : N → Except (GrammarError N) β

/-- What a walk has done so far. -/
structure Trail (N β : Type) where
  /-- The finished rules with their values. -/
  finished : OrderedMap N β
  /-- The rules whose bodies were entered, the first one first. -/
  entered : List N
  /-- The greatest number of visits that were under way at once. -/
  depth : Nat

namespace Trail

variable {N β : Type}

/-- The trail of a walk that begins with known values. -/
def ofFinished (finished : OrderedMap N β) : Trail N β := ⟨finished, [], 0⟩

/-- Notes that `depth` visits are under way. -/
def reach (t : Trail N β) (depth : Nat) : Trail N β := { t with depth := max t.depth depth }

/-- Notes that a body is entered. -/
def enter (t : Trail N β) (id : N) : Trail N β := { t with entered := t.entered ++ [id] }

/-- Notes the value of a finished rule. -/
def finish [DecidableEq N] (t : Trail N β) (id : N) (value : β) : Trail N β :=
  { t with finished := t.finished.insert id value }

end Trail

namespace Valuation

variable {T N σ β : Type}

/-- Reads the entries of a body from front to back and stops at the first reference that cannot be
followed. -/
def walk (v : Valuation T N σ β)
    (follow : Trail N β → N → Except (GrammarError N) β × Trail N β) :
    σ → Trail N β → List (Position × Symbol T N) → Except (GrammarError N) σ × Trail N β
  | state, trail, [] => (.ok state, trail)
  | state, trail, (p, .terminal t) :: rest => v.walk follow (v.letter state p t) trail rest
  | state, trail, (p, .nonterminal id) :: rest =>
    match follow trail id with
    | (.error e, trail) => (.error e, trail)
    | (.ok value, trail) => v.walk follow (v.reference state p value) trail rest

end Valuation

/-! ## Visits -/

namespace Grammar

variable {T N σ β : Type} [DecidableEq N]

/-- How many rules are not on a path. -/
def rulesOff (rules : OrderedMap N (Body T N)) (path : List N) : Nat :=
  rules.keys.countP fun id => id ∉ path

/-- A rule that joins the path is one rule less off it. -/
theorem rulesOff_cons_lt {rules : OrderedMap N (Body T N)} {path : List N} {id : N}
    (hr : id ∈ rules.keys) (hp : id ∉ path) :
    rulesOff rules (id :: path) < rulesOff rules path := by
  unfold rulesOff
  generalize rules.keys = keys at hr
  induction keys with
  | nil => simp at hr
  | cons k keys ih =>
    have hle : keys.countP (fun j => decide (j ∉ id :: path)) ≤
        keys.countP (fun j => decide (j ∉ path)) := by
      refine List.countP_mono_left fun j _ hj => ?_
      simp only [List.mem_cons, not_or, decide_eq_true_eq] at hj ⊢
      exact hj.2
    by_cases hk : k = id
    · subst hk
      rw [List.countP_cons_of_neg (by simp), List.countP_cons_of_pos (by simpa using hp)]
      omega
    · have := ih (List.mem_of_ne_of_mem (Ne.symm hk) hr)
      by_cases hj : k ∈ path
      · rw [List.countP_cons_of_neg (by simp [hj]), List.countP_cons_of_neg (by simp [hj])]
        exact this
      · rw [List.countP_cons_of_pos (by simp [hj, hk]), List.countP_cons_of_pos (by simp [hj])]
        omega

/-- The value of `id`, for a reference met on the given path. A finished rule has its value already;
a name without a rule has what the valuation says; a name on the path closes a cycle; any other rule
is entered. -/
def visit (rules : OrderedMap N (Body T N)) (v : Valuation T N σ β) (path : List N)
    (trail : Trail N β) (id : N) : Except (GrammarError N) β × Trail N β :=
  let trail := trail.reach (path.length + 1)
  match trail.finished.get? id with
  | some value => (.ok value, trail)
  | none =>
    match _defined : rules.get? id with
    | none => (v.missing id, trail)
    | some body =>
      if _onPath : id ∈ path then (.error (.cycle id), trail)
      else
        match v.walk (visit rules v (id :: path)) (v.enter body) (trail.enter id) body.entries with
        | (.error e, trail) => (.error e, trail)
        | (.ok state, trail) => (.ok (v.leave state), trail.finish id (v.leave state))
termination_by rulesOff rules path
decreasing_by exact rulesOff_cons_lt (OrderedMap.mem_keys_of_get? _defined) _onPath

/-- Visits several roots one after the other and stops at the first error. -/
def visitAll (rules : OrderedMap N (Body T N)) (v : Valuation T N σ β) :
    Trail N β → List N → Except (GrammarError N) Unit × Trail N β
  | trail, [] => (.ok (), trail)
  | trail, id :: ids =>
    match visit rules v [] trail id with
    | (.error e, trail) => (.error e, trail)
    | (.ok _, trail) => visitAll rules v trail ids

end Grammar

end StraightLine
