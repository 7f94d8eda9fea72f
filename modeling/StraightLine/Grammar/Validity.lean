import StraightLine.Grammar.Traversal

/-!
# Valid grammars

A grammar is valid if its start symbol has a rule, no body is empty, every reference goes to a
name that has a rule and is not the start symbol, and no rule reaches itself. The tests are those of
`validate` and `check_acyclic`, in their order.

* `Grammar.checkAcyclic` tests the last condition, on any grammar; a name without a rule reaches
  nothing.
* `Grammar.validate` tests all of them and reports the first fault in the order of the rules.
  Cycles come last.
-/

namespace StraightLine

variable {T N : Type} [DecidableEq N]

/-- Every rule has the same value; only its being finished counts. -/
def noCycle : Valuation T N Unit Unit where
  enter _ := ()
  letter _ _ _ := ()
  reference _ _ _ := ()
  leave _ := ()
  missing _ := .ok ()

namespace Grammar

/-- Fails if a rule reaches itself through references. -/
def checkAcyclic (g : Grammar T N) : Except (GrammarError N) Unit :=
  (visitAll g.rules noCycle (.ofFinished .empty) g.rules.keys).1

/-- Fails at the first reference to the start symbol or to a name without a rule. -/
def checkReferences (g : Grammar T N) : List N → Except (GrammarError N) Unit
  | [] => .ok ()
  | id :: ids =>
    if id = g.start then .error (.startReferenced id)
    else if !g.contains id then .error (.undefinedNonterminal id)
    else g.checkReferences ids

/-- Fails at the first rule that is empty or has a bad reference. -/
def checkRules (g : Grammar T N) : List (N × Body T N) → Except (GrammarError N) Unit
  | [] => .ok ()
  | (id, b) :: rest =>
    if b.isEmpty then .error (.emptyRule id)
    else
      match g.checkReferences (Body.references b) with
      | .error e => .error e
      | .ok () => g.checkRules rest

/-- Fails at the first fault of the grammar. -/
def validate (g : Grammar T N) : Except (GrammarError N) Unit :=
  if !g.contains g.start then .error (.undefinedNonterminal g.start)
  else
    match g.checkRules g.rules.entries with
    | .error e => .error e
    | .ok () => g.checkAcyclic

end Grammar

end StraightLine
