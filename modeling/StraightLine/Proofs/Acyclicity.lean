import StraightLine.Proofs.Visit

/-!
# The search for loops is exact

`Grammar.checkAcyclic` visits every rule with one trail and gives each the same value, so that
nothing but the order of the visits is left. A name that is met on its own path is in a loop; this
file proves that no loop is missed either, although no rule is entered twice.

* `Productions.Clear.of_refers` — a name is clear if all it refers to is. Every finished rule is
  clear: this is the invariant of the search.
* `Cleared` — what one visit does: it finishes a clear name, or it names a loop within reach.
  `walk_cleared` carries this over one body, `visit_cleared` over the whole recursion.
* `Grammar.checkAcyclic_eq_ok_iff` — the search succeeds exactly on the grammars without loops,
  and `Grammar.checkAcyclic_error` — else it names a rule that loops.
-/

namespace StraightLine

open Relation (TransGen)

variable {T N : Type}

namespace Productions

variable {P : Productions T N}

/-- A name is clear if all it refers to is. -/
theorem Clear.of_refers {x : N} (h : ∀ y, P.Refers x y → P.Clear y) : P.Clear x := by
  intro z hxz hz
  rcases Relation.ReflTransGen.cases_head hxz with rfl | ⟨y, hxy, hyz⟩
  · -- the loop of `x` goes through a reference of `x`
    obtain ⟨y, hxy, hyx⟩ := TransGen.head'_iff.mp hz
    exact h y hxy x hyx hz
  · exact h y hxy z hyz hz

/-- A name that loops has a rule. -/
theorem Loops.isSome {x : N} (h : P.Loops x) : (P x).isSome := by
  obtain ⟨y, hxy, -⟩ := TransGen.head'_iff.mp h
  exact hxy.isSome

end Productions

open Productions Grammar

/-! ## What the search does -/

/-- What the search does when it visits `names`: afterwards every finished name is clear. It
succeeds only if all the names are clear, and it fails only with a name in a loop that one of them
reaches. -/
structure Cleared (P : Productions T N) (names : List N)
    (result : Except (GrammarError N) Unit × Trail N Unit) : Prop where
  finished : ∀ x ∈ result.2.finished.keys, P.Clear x
  clear : result.1 = .ok () → ∀ x ∈ names, P.Clear x
  fault : ∀ e, result.1 = .error e →
    ∃ x ∈ names, ∃ c, e = .cycle c ∧ P.Reaches x c ∧ P.Loops c

namespace Cleared

variable {P : Productions T N} {id : N} {names : List N} {t : Trail N Unit}

theorem nil (ht : ∀ x ∈ t.finished.keys, P.Clear x) : Cleared P [] (.ok (), t) where
  finished := ht
  clear _ x hx := by cases hx
  fault e he := by cases he

/-- A success is followed by the visits of the other names. -/
theorem cons {result : Except (GrammarError N) Unit × Trail N Unit}
    (h : Cleared P [id] (.ok (), t)) (h' : Cleared P names result) :
    Cleared P (id :: names) result where
  finished := h'.finished
  clear := by
    intro hr x hx
    rcases List.mem_cons.mp hx with rfl | hx
    · exact h.clear rfl x List.mem_cons_self
    · exact h'.clear hr x hx
  fault := by
    intro e he
    obtain ⟨x, hx, hc⟩ := h'.fault e he
    exact ⟨x, List.mem_cons_of_mem _ hx, hc⟩

/-- A failure ends the search. -/
theorem abort {e : GrammarError N} (h : Cleared P [id] (.error e, t)) :
    Cleared P (id :: names) (.error e, t) where
  finished := h.finished
  clear he := by cases he
  fault := by
    intro e' he'
    obtain ⟨x, hx, hc⟩ := h.fault e' he'
    obtain rfl := List.mem_singleton.mp hx
    exact ⟨x, List.mem_cons_self, hc⟩

end Cleared

/-- If the search is right at every reference of a body, it is right along the body. -/
theorem walk_cleared {P : Productions T N}
    {follow : Trail N Unit → N → Except (GrammarError N) Unit × Trail N Unit}
    {rest : List (Position × Symbol T N)}
    (hfollow : ∀ y, .nonterminal y ∈ rest.map Prod.snd → ∀ t : Trail N Unit,
      (∀ x ∈ t.finished.keys, P.Clear x) → Cleared P [y] (follow t y))
    {t : Trail N Unit} (ht : ∀ x ∈ t.finished.keys, P.Clear x) :
    Cleared P ((rest.map Prod.snd).filterMap Symbol.nonterminal?)
      ((noCycle : Valuation T N Unit Unit).walk follow () t rest) := by
  induction rest generalizing t with
  | nil => exact .nil ht
  | cons entry rest ih =>
    have ih' := @ih fun y hy => hfollow y (List.mem_cons_of_mem _ hy)
    obtain ⟨p, s⟩ := entry
    cases s with
    | terminal a => exact ih' ht
    | nonterminal id =>
      have h := hfollow id List.mem_cons_self t ht
      rw [Valuation.walk]
      cases hf : follow t id with
      | mk answer t' =>
        rw [hf] at h
        cases answer with
        | error e => exact h.abort
        | ok value => exact h.cons (ih' h.finished)

section

variable [DecidableEq N]

/-- A rule that is left is as clear as the names it refers to. -/
theorem Cleared.conclude {rules : OrderedMap N (Body T N)} {id : N} {b : Body T N}
    (hr : rules.get? id = some b) {result : Except (GrammarError N) Unit × Trail N Unit}
    (h : Cleared (productionsOf rules) (Body.references b) result) :
    Cleared (productionsOf rules) [id]
      ((noCycle : Valuation T N Unit Unit).conclude id result) := by
  obtain ⟨answer, after⟩ := result
  cases answer with
  | error e =>
    refine ⟨h.finished, nofun, fun e' he' => ?_⟩
    obtain ⟨y, hy, c, hc, hyc, hloop⟩ := h.fault e' he'
    have hxy := refers_of_mem_references hr hy
    exact ⟨id, List.mem_cons_self, c, hc, .head hxy hyc, hloop⟩
  | ok state =>
    have hclear : (productionsOf rules).Clear id := by
      refine .of_refers fun y hy => h.clear rfl y ?_
      obtain ⟨b', hb', hy⟩ := refers_productionsOf_iff.mp hy
      rw [hr] at hb'
      cases hb'
      exact hy
    refine ⟨fun x hx => ?_, fun _ x hx => ?_, nofun⟩
    · rcases (OrderedMap.mem_keys_insert ..).mp hx with rfl | hx
      · exact hclear
      · exact h.finished x hx
    · obtain rfl := List.mem_singleton.mp hx
      exact hclear

variable {rules : OrderedMap N (Body T N)}

/-- **A visit is right about loops**, on every path that leads to the name. -/
theorem visit_cleared {path : List N} {trail : Trail N Unit} {id : N}
    (hpath : (productionsOf rules).Leads path id)
    (ht : ∀ x ∈ trail.finished.keys, (productionsOf rules).Clear x) :
    Cleared (productionsOf rules) [id] (visit rules noCycle path trail id) := by
  refine visit_induction rules noCycle (motive := fun path t id result =>
    (productionsOf rules).Leads path id → (∀ x ∈ t.finished.keys, (productionsOf rules).Clear x) →
      Cleared (productionsOf rules) [id] result)
    ?finished ?undefined ?onPath ?enter path trail id hpath ht
  case finished =>
    intro path t id value hf _ ht
    refine ⟨ht, fun _ x hx => ?_, nofun⟩
    obtain rfl := List.mem_singleton.mp hx
    exact ht x (OrderedMap.mem_keys_of_get? hf)
  case undefined =>
    intro path t id _ hr _ ht
    -- a name without a rule refers to nothing
    refine ⟨ht, fun _ x hx => .of_refers fun y hy => ?_, nofun⟩
    obtain rfl := List.mem_singleton.mp hx
    exact absurd hy (not_refers_of_eq_none (productionsOf_eq_none_iff.mpr hr))
  case onPath =>
    intro path t id b _ _ hp hpath ht
    refine ⟨ht, nofun, fun e he => ?_⟩
    cases he
    exact ⟨id, List.mem_cons_self, id, rfl, .refl id, hpath.loops_of_mem hp⟩
  case enter =>
    intro path t id b _ hr _ ih hpath ht
    have hwalk := walk_cleared (t := (t.reach (path.length + 1)).enter id)
      (fun y hy t ht => ih t y (hpath.cons ⟨b.toList, productionsOf_of_get? hr, hy⟩) ht) ht
    exact hwalk.conclude hr

theorem visitAll_cleared {trail : Trail N Unit} {ids : List N}
    (ht : ∀ x ∈ trail.finished.keys, (productionsOf rules).Clear x) :
    Cleared (productionsOf rules) ids (visitAll rules noCycle trail ids) := by
  induction ids generalizing trail with
  | nil => exact .nil ht
  | cons id ids ih =>
    have h := visit_cleared (.nil id) ht
    rw [visitAll]
    cases hv : visit rules noCycle [] trail id with
    | mk answer t' =>
      rw [hv] at h
      cases answer with
      | error e => exact h.abort
      | ok value => exact h.cons (ih h.finished)

/-! ## The check of a grammar -/

namespace Grammar

theorem checkAcyclic_cleared (g : Grammar T N) :
    Cleared g.productions g.rules.keys
      (visitAll g.rules noCycle (.ofFinished .empty) g.rules.keys) :=
  visitAll_cleared fun x hx => by cases hx

/-- A refusal names a rule that loops. -/
theorem checkAcyclic_error {g : Grammar T N} {e : GrammarError N} (h : g.checkAcyclic = .error e) :
    ∃ c, e = .cycle c ∧ g.productions.Loops c := by
  obtain ⟨x, -, c, hc, -, hloop⟩ := g.checkAcyclic_cleared.fault e h
  exact ⟨c, hc, hloop⟩

/-- **The check accepts exactly the grammars without loops.** -/
theorem checkAcyclic_eq_ok_iff (g : Grammar T N) :
    g.checkAcyclic = .ok () ↔ g.productions.Acyclic := by
  constructor
  · intro h x hx
    have hkey : x ∈ g.rules.keys := isSome_productionsOf_iff.mp hx.isSome
    exact g.checkAcyclic_cleared.clear h x hkey x (.refl x) hx
  · intro hac
    cases h : g.checkAcyclic with
    | ok value => rfl
    | error e =>
      obtain ⟨c, -, hloop⟩ := checkAcyclic_error h
      exact absurd hloop (hac c)

end Grammar

end

end StraightLine
