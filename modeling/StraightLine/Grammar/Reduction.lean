import StraightLine.Grammar.Inlining
import StraightLine.Grammar.Validity

/-!
# Reducing a grammar

A rule that is referred to at most once saves nothing: it can be inlined, or dropped if nothing
refers to it. The operations are `reduce`, `is_irreducible` and `next_reducible`.

* `Grammar.nextReducible` is the first such rule in the census, the start symbol's own rule apart.
* `Grammar.reduce` inlines these rules one after the other until there is none left
  (`Grammar.isIrreducible`). It refuses a grammar with a cycle. Each step removes a rule, so it
  ends.
-/

namespace StraightLine

namespace Grammar

variable {T N : Type} [DecidableEq N]

/-- The first rule, other than that of the start symbol, that the census counts at most once. -/
def nextReducible (g : Grammar T N) : Option N :=
  let counts := g.referenceCounts
  g.rules.keys.find? fun id => id ≠ g.start && (counts.get? id).getD 0 ≤ 1

/-- Whether no rule is left to inline. -/
def isIrreducible (g : Grammar T N) : Bool := g.nextReducible.isNone

/-- Inlines reducible rules until there is none. The answer is their number. -/
def inlineAll (g : Grammar T N) : Outcome T N Nat :=
  match g.nextReducible with
  | none => ⟨.ok 0, g, []⟩
  | some id =>
    let step := g.inlineRule id
    match _done : step.answer with
    | .error e => ⟨.error e, step.grammar, step.records⟩
    | .ok _ =>
      let rest := inlineAll step.grammar
      ⟨rest.answer.map (· + 1), rest.grammar, step.records ++ rest.records⟩
termination_by g.size
decreasing_by
  have := size_inlineRule _done
  omega

/-- Reduces a grammar without cycles to one in which every rule but the start symbol's is referred
to at least twice. The answer is the number of rules that were inlined. -/
def reduce (g : Grammar T N) : Outcome T N Nat :=
  match g.checkAcyclic with
  | .error e => .refuse g e
  | .ok () =>
    let done := g.inlineAll
    match done.answer with
    | .error e => ⟨.error e, done.grammar, done.records⟩
    | .ok steps =>
      ⟨.ok steps, done.grammar, done.records ++ [.reduced g.size done.grammar.size steps]⟩

end Grammar

end StraightLine
