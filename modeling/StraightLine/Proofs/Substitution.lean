import StraightLine.Proofs.Occurrences

/-!
# Substitution is simultaneous

`Grammar.substitute` edits each body in place, at one reference after the other. What comes of it is
a single pass over the body as a list, whatever is put in. The places are collected before the first
of them is touched, so a reference among the new symbols is not replaced in its turn, and the call
ends also if a name is replaced by symbols that refer to it.

* `Grammar.contents_substitute` — the rules afterwards, in their order.
* `Grammar.substitute_fst` — the answer is the number of references that there were.
* `Grammar.occurrences_substitute` — the references afterwards: those to other names that were there,
  and those that came in with the new symbols. The old references to the name are gone.
* `Grammar.substitution` — all that a call does.
-/

namespace StraightLine

variable {T N : Type} [DecidableEq N]

namespace Grammar

/-- **Every body is rewritten in one pass**, and the rules keep their order. -/
theorem contents_substitute (g : Grammar T N) (id : N) (xs : List (Symbol T N)) :
    (g.substitute id xs).2.contents = g.contents.map fun r => (r.1, spliced id xs r.2) := by
  rw [contents, contents, entries_substitute, List.map_map, List.map_map]
  refine List.map_congr_left fun r _ => ?_
  exact congrArg (Prod.mk r.1) (Body.toList_substitute r.2 id xs)

/-- The answer is the number of references in all bodies before the call. -/
theorem substitute_fst (g : Grammar T N) (id : N) (xs : List (Symbol T N)) :
    (g.substitute id xs).1 = g.occurrences id := by
  show (((g.rules.map _).values).map Prod.fst).sum = _
  rw [occurrences, OrderedMap.values, OrderedMap.values, OrderedMap.map, List.map_map,
    List.map_map, List.map_map]
  refine congrArg List.sum (List.map_congr_left fun r _ => ?_)
  exact Body.substitute_fst r.2 id xs

/-- **The account of a substitution.** Every reference to `id` is replaced, and brings in the
references that the new symbols have. -/
theorem occurrences_substitute (g : Grammar T N) (id x : N) (xs : List (Symbol T N)) :
    (g.substitute id xs).2.occurrences x =
      (if x = id then 0 else g.occurrences x) +
        g.occurrences id * xs.countP (Symbol.refersTo x) := by
  rw [occurrences_eq, occurrences_eq, occurrences_eq, entries_substitute,
    occurrencesWhere_substitute]

/-- **Substitution is simultaneous**, on every grammar, for every name and for all symbols that are
put in. Each body becomes the old one with the new symbols in the place of every reference to `id`
and all other symbols where they were. The rule for `id`, if there is one, stays and is rewritten
like the others. The start symbol and the rules keep their places, the memo is empty, and the answer
is the number of references to `id` that there were. References to `id` among the new symbols are
left alone: afterwards there are just as many as the replaced references have brought in. -/
theorem substitution (g : Grammar T N) (id : N) (xs : List (Symbol T N)) :
    let g' := (g.substitute id xs).2
    g'.contents = g.contents.map (fun r => (r.1, spliced id xs r.2)) ∧
    g'.productions id = (g.productions id).map (spliced id xs) ∧
    g'.start = g.start ∧
    g'.rules.keys = g.rules.keys ∧
    g'.memo = .empty ∧
    (g.substitute id xs).1 = g.occurrences id ∧
    g'.occurrences id = g.occurrences id * xs.countP (Symbol.refersTo id) := by
  intro g'
  refine ⟨contents_substitute g id xs, productions_substitute g id xs id, rfl,
    keys_substitute g id xs, rfl, substitute_fst g id xs, ?_⟩
  have haccount := occurrences_substitute g id id xs
  rw [if_pos rfl, Nat.zero_add] at haccount
  exact haccount

/-- A name is replaced by symbols that refer to it, at both ends of a body and in its own rule. -/
example :
    let g : Grammar Char Nat := (ofStart 0).addRule 0 (.ofList [.nonterminal 1, .nonterminal 1]) |>.2
    let g := (g.addRule 1 (.ofList [.nonterminal 1, .terminal 'a'])).2
    ((g.substitute 1 [.terminal 'b', .nonterminal 1]).2.contents,
      (g.substitute 1 []).2.contents) =
      ([(0, [.terminal 'b', .nonterminal 1, .terminal 'b', .nonterminal 1]),
        (1, [.terminal 'b', .nonterminal 1, .terminal 'a'])],
        [(0, []), (1, [.terminal 'a'])]) := by
  decide +kernel

end Grammar

end StraightLine
