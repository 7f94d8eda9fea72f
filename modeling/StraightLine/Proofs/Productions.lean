import Mathlib.Data.List.Permutation
import Mathlib.Logic.Relation
import StraightLine.Grammar.Traversal

/-!
# The reference graph

What the rules of a grammar mean depends on their bodies as lists alone, not on the positions in
them and not on the order of the rules. `Productions` are that view: the list that each name stands
for, if it has a rule.

* `Productions.Refers`, `Productions.Reaches` and `Productions.Loops` are the graph of references:
  one step, any number of steps, and at least one step back to the same name. `Productions.Acyclic`
  excludes loops everywhere, `Productions.Clear` only where a name leads.
* `Productions.Leads` says that every name on a path reaches the name that is visited next. It is
  what a depth-first walk keeps up (`Leads.cons`), and on it a repeated name is a loop
  (`Leads.loops_of_mem`).
* `Grammar.contents` are the rules in their order, which the productions leave out.
* `path_induction` is the induction that every such walk allows: a path can be prolonged only by
  rules that are not on it, and there are finitely many.
-/

namespace StraightLine

open Relation (ReflTransGen TransGen)

variable {T N : Type}

/-- The symbols that each name stands for, if it has a rule. -/
abbrev Productions (T N : Type) := N → Option (List (Symbol T N))

/-- The bodies of rules, as lists. -/
def productionsOf [DecidableEq N] (rules : OrderedMap N (Body T N)) : Productions T N :=
  fun id => (rules.get? id).map Sequence.toList

/-- The bodies of the rules of a grammar, as lists. -/
abbrev Grammar.productions [DecidableEq N] (g : Grammar T N) : Productions T N :=
  productionsOf g.rules

namespace Productions

/-! ## The graph -/

/-- The rule for `x` refers to `y`. -/
def Refers (P : Productions T N) (x y : N) : Prop :=
  ∃ ss, P x = some ss ∧ Symbol.nonterminal y ∈ ss

/-- `y` is `x` or can be reached from it through references. -/
def Reaches (P : Productions T N) : N → N → Prop := ReflTransGen P.Refers

/-- `x` reaches itself through one or more references. -/
def Loops (P : Productions T N) (x : N) : Prop := TransGen P.Refers x x

/-- No name reaches itself. -/
def Acyclic (P : Productions T N) : Prop := ∀ x, ¬ P.Loops x

/-- Nothing that `x` reaches is in a loop. -/
def Clear (P : Productions T N) (x : N) : Prop := ∀ y, P.Reaches x y → ¬ P.Loops y

/-- Every name on the path reaches `id` through one or more references. -/
def Leads (P : Productions T N) (path : List N) (id : N) : Prop :=
  ∀ p ∈ path, TransGen P.Refers p id

variable {P Q : Productions T N}

theorem Refers.isSome {x y : N} (h : P.Refers x y) : (P x).isSome := by
  obtain ⟨ss, hss, -⟩ := h
  rw [hss]
  rfl

theorem not_refers_of_eq_none {x y : N} (h : P x = none) : ¬ P.Refers x y := by
  rintro ⟨ss, hss, -⟩
  rw [h] at hss
  cases hss

theorem Reaches.refl (x : N) : P.Reaches x x := ReflTransGen.refl

theorem Reaches.head {x y z : N} (h : P.Refers x y) (h' : P.Reaches y z) : P.Reaches x z :=
  ReflTransGen.head h h'

theorem Leads.nil (id : N) : P.Leads [] id := by
  intro p hp
  cases hp

/-- The path of a walk that follows a reference. -/
theorem Leads.cons {path : List N} {x y : N} (h : P.Leads path x) (hxy : P.Refers x y) :
    P.Leads (x :: path) y := by
  intro p hp
  rcases List.mem_cons.mp hp with rfl | hp
  · exact .single hxy
  · exact (h p hp).tail hxy

/-- A name that is met again on its own path is in a loop. -/
theorem Leads.loops_of_mem {path : List N} {x : N} (h : P.Leads path x) (hx : x ∈ path) :
    P.Loops x := h x hx

/-- What a clear name reaches is clear. -/
theorem Clear.of_reaches {x y : N} (h : P.Clear x) (hxy : P.Reaches x y) : P.Clear y :=
  fun z hyz => h z (hxy.trans hyz)

theorem Acyclic.clear (hP : P.Acyclic) (x : N) : P.Clear x := fun y _ => hP y

theorem Acyclic.not_refers_self (hP : P.Acyclic) (x : N) : ¬ P.Refers x x := by
  intro h
  exact hP x (.single h)

/-- Productions whose references lead along references of others have no loops of their own. -/
theorem Acyclic.of_refers (hP : P.Acyclic) (h : ∀ x y, Q.Refers x y → TransGen P.Refers x y) :
    Q.Acyclic := fun x hx => hP x (TransGen.closed h x x hx)

/-- Where every reference goes to a lower name there are no loops. -/
theorem acyclic_of_height (height : N → Nat) (h : ∀ x y, P.Refers x y → height y < height x) :
    P.Acyclic := by
  have hlower : ∀ x y, TransGen P.Refers x y → height y < height x := by
    intro x y hxy
    induction hxy with
    | single hxy => exact h _ _ hxy
    | tail _ hyz ih => exact Nat.lt_trans (h _ _ hyz) ih
  exact fun x hx => Nat.lt_irrefl _ (hlower x x hx)

end Productions

/-! ## Rules -/

section

variable [DecidableEq N] {rules : OrderedMap N (Body T N)}

theorem productionsOf_eq_some_iff {id : N} {ss : List (Symbol T N)} :
    productionsOf rules id = some ss ↔ ∃ b, rules.get? id = some b ∧ b.toList = ss := by
  rw [productionsOf, Option.map_eq_some_iff]

theorem productionsOf_of_get? {id : N} {b : Body T N} (h : rules.get? id = some b) :
    productionsOf rules id = some b.toList := by
  rw [productionsOf, h]
  rfl

@[simp] theorem productionsOf_eq_none_iff {id : N} :
    productionsOf rules id = none ↔ rules.get? id = none := by
  rw [productionsOf, Option.map_eq_none_iff]

theorem isSome_productionsOf_iff {id : N} : (productionsOf rules id).isSome ↔ id ∈ rules.keys := by
  rw [productionsOf, Option.isSome_map]
  exact OrderedMap.contains_iff

theorem mem_keys_of_productionsOf {id : N} {ss : List (Symbol T N)}
    (h : productionsOf rules id = some ss) : id ∈ rules.keys := by
  rw [← isSome_productionsOf_iff, h]
  rfl

theorem refers_of_mem_references {x y : N} {b : Body T N} (h : rules.get? x = some b)
    (hy : y ∈ Body.references b) : (productionsOf rules).Refers x y :=
  ⟨b.toList, productionsOf_of_get? h, Body.mem_references.mp hy⟩

theorem refers_productionsOf_iff {x y : N} :
    (productionsOf rules).Refers x y ↔ ∃ b, rules.get? x = some b ∧ y ∈ Body.references b := by
  constructor
  · rintro ⟨ss, hss, hy⟩
    obtain ⟨b, hb, rfl⟩ := productionsOf_eq_some_iff.mp hss
    exact ⟨b, hb, Body.mem_references.mpr hy⟩
  · rintro ⟨b, hb, hy⟩
    exact refers_of_mem_references hb hy

theorem Grammar.contains_iff_isSome {g : Grammar T N} {x : N} :
    g.contains x = true ↔ (g.productions x).isSome := by
  rw [contains, OrderedMap.contains_iff, isSome_productionsOf_iff]

/-- The rules in their order, with their bodies as lists. -/
def Grammar.contents (g : Grammar T N) : List (N × List (Symbol T N)) :=
  g.rules.entries.map fun r => (r.1, r.2.toList)

/-- The contents are the names in their order and what each of them stands for. -/
theorem Grammar.contents_eq (g : Grammar T N) :
    g.contents = g.rules.keys.map fun x => (x, (g.productions x).getD []) := by
  rw [Grammar.contents, OrderedMap.keys, List.map_map]
  refine List.map_congr_left fun r hr => ?_
  have hb : g.rules.get? r.1 = some r.2 := OrderedMap.get?_eq_some_iff.mpr hr
  rw [Function.comp_apply, Grammar.productions, productionsOf_of_get? hb]
  rfl

omit [DecidableEq N] in
theorem Grammar.map_fst_contents (g : Grammar T N) : g.contents.map Prod.fst = g.rules.keys := by
  rw [Grammar.contents, List.map_map]
  rfl

theorem Grammar.mem_contents_iff (g : Grammar T N) {x : N} {ss : List (Symbol T N)} :
    (x, ss) ∈ g.contents ↔ g.productions x = some ss := by
  rw [productionsOf_eq_some_iff, Grammar.contents, List.mem_map]
  constructor
  · rintro ⟨r, hr, he⟩
    cases he
    exact ⟨r.2, OrderedMap.get?_eq_some_iff.mpr hr, rfl⟩
  · rintro ⟨b, hb, rfl⟩
    exact ⟨(x, b), OrderedMap.get?_eq_some_iff.mp hb, rfl⟩

/-- A new rule comes last. -/
theorem Grammar.contents_addRule {g : Grammar T N} {x : N} (h : x ∉ g.rules.keys) (b : Body T N) :
    (g.addRule x b).2.contents = g.contents ++ [(x, b.toList)] := by
  show (g.rules.insert x b).entries.map _ = _
  rw [OrderedMap.entries_insert_of_not_mem h, List.map_append]
  rfl

/-- Induction along a path of distinct rules: what holds of a path whenever it holds of all its
prolongations by a rule holds of every path. -/
theorem path_induction (rules : OrderedMap N (Body T N)) {motive : List N → Prop}
    (step : ∀ path, (∀ id ∈ rules.keys, id ∉ path → motive (id :: path)) → motive path)
    (path : List N) : motive path := by
  induction h : Grammar.rulesOff rules path using Nat.strongRecOn generalizing path with
  | ind n ih =>
    subst h
    apply step path
    intro id hid hpath
    exact ih _ (Grammar.rulesOff_cons_lt hid hpath) _ rfl

end

end StraightLine
