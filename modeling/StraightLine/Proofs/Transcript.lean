import StraightLine.Demonstration
import StraightLine.Proofs.Counting
import StraightLine.Proofs.LazyAnswers
import StraightLine.Proofs.Validity

/-!
# What the demonstration prints

The demonstration is run on a word of any length, so its grammars are a family: while its reduction
runs, some letters stand in the rule of the word already and the others have their own rules.

* `letterName_inj` and `letterName_ne` — no two letters have rules of one name, and no such name is
  `W` or `*`.
* `Demonstration.stage` — the rules when the letters `done` are inlined and the letters `rest` are
  not. The demonstration starts with `stage [] word` (`wasteful_stage`) and ends with
  `stage word []`.
* `derives_stage` — at every stage the start symbol derives the word twice with a stroke in between.
* `inlineRule_stage` — one inlining leads to the next stage, and `inlineAll_stage`, the whole loop.
* `report` — what is printed, and `run_demonstration` — **the transcript for every word**.
-/

namespace StraightLine

open Text (Spelled)

/-! ## Grammars known by their contents -/

namespace Grammar

variable {T N : Type}

theorem stats_eq (g : Grammar T N) :
    g.stats = ⟨g.contents.length, (g.contents.map fun r => r.2.length).sum⟩ := by
  simp only [stats, contents, OrderedMap.size, OrderedMap.values, List.length_map, List.map_map]
  congr 2
  exact List.map_congr_left fun r _ => r.2.size_eq_length_toList

theorem plain_eq [Spelled T] [Spelled N] (g : Grammar T N) :
    g.plain = "Start: " ++ Spelled.plain g.start ++ "\n" ++ String.join (g.contents.map fun r =>
      Spelled.plain r.1 ++ " :> " ++ " ".intercalate (r.2.map Symbol.plain) ++ "\n") := by
  rw [plain, contents, List.map_map]
  rfl

theorem occurrences_eq_contents [DecidableEq N] (g : Grammar T N) (x : N) :
    g.occurrences x = (g.contents.map fun r => r.2.countP (Symbol.refersTo x)).sum := by
  rw [occurrences, contents, OrderedMap.values, List.map_map, List.map_map]
  rfl

/-- An expansion does not change what is listed. -/
theorem plain_expand [DecidableEq N] [Spelled T] [Spelled N] (g : Grammar T N) (id : N) :
    (g.expand id).grammar.plain = g.plain := rfl

end Grammar

namespace Demonstration

/-! ## Names -/

theorem letterName_inj {i j : Nat} : letterName i = letterName j ↔ i = j := by
  constructor
  · intro h
    have hdigits : Nat.toDigits 10 i = Nat.toDigits 10 j := by
      simpa [Spelled.plain] using congrArg String.toList ((String.append_right_inj "C").mp h)
    simpa using congrArg (Nat.ofDigitChars 10 · 0) hdigits
  · rintro rfl
    rfl

/-- The name of a letter starts with another character than those of the other two rules. -/
theorem letterName_ne (i : Nat) : letterName i ≠ "W" ∧ letterName i ≠ "*" := by
  have hhead : (letterName i).toList.head? = some 'C' := by
    simp [letterName]
  constructor
  · intro h
    rw [h] at hhead
    cases hhead
  · intro h
    rw [h] at hhead
    cases hhead

/-! ## The grammars on the way -/

/-- The rules of the letters, the first of which has index `i`. -/
def letterRules (i : Nat) (letters : List Char) : List (String × List (Symbol Char String)) :=
  (letters.zipIdx i).map fun e => (letterName e.2, [.terminal e.1])

/-- References to the rules of `n` letters, the first of which has index `i`. -/
def letterReferences (i n : Nat) : List (Symbol Char String) :=
  (List.range' i n).map fun j => .nonterminal (letterName j)

/-- The rules when the letters `done` stand in the rule of the word and the letters `rest` do not. -/
def stage (done rest : List Char) : List (String × List (Symbol Char String)) :=
  letterRules done.length rest ++
    [("W", done.map .terminal ++ letterReferences done.length rest.length),
      ("*", [.nonterminal "W", .terminal '/', .nonterminal "W"])]

@[simp] theorem letterRules_cons (i : Nat) (c : Char) (rest : List Char) :
    letterRules i (c :: rest) = (letterName i, [.terminal c]) :: letterRules (i + 1) rest := rfl

@[simp] theorem letterReferences_succ (i n : Nat) :
    letterReferences i (n + 1) = .nonterminal (letterName i) :: letterReferences (i + 1) n := by
  simp [letterReferences, List.range'_succ]

/-- The names of the rules of letters. -/
theorem map_fst_letterRules (i : Nat) (letters : List Char) :
    (letterRules i letters).map Prod.fst = (List.range' i letters.length).map letterName := by
  rw [letterRules, List.map_map, ← List.zipIdx_map_snd i letters, List.map_map]
  rfl

theorem mem_letterReferences {i : Nat} {letters : List Char} {x : String} :
    .nonterminal x ∈ letterReferences i letters.length ↔
      ∃ e ∈ letters.zipIdx i, x = letterName e.2 := by
  rw [letterReferences, ← List.zipIdx_map_snd i letters, List.map_map, List.mem_map]
  simp [eq_comm]

/-! ### The first one -/

theorem letters_added (letters : List Char) (i : Nat) (g : Grammar Char String)
    (hfresh : ∀ j, i ≤ j → letterName j ∉ g.rules.keys) :
    let g' := (letters.zipIdx i).foldl
      (fun g (c, i) => (g.addRule (letterName i) (.ofList [.terminal c])).2) g
    g'.start = g.start ∧ g'.contents = g.contents ++ letterRules i letters := by
  induction letters generalizing i g with
  | nil => simp [letterRules]
  | cons c letters ih =>
    rw [List.zipIdx_cons, List.foldl_cons]
    obtain ⟨hstart, hcontents⟩ :=
      ih (i + 1) (g.addRule (letterName i) (.ofList [.terminal c])).2 fun j hj hmem => by
        rcases (OrderedMap.mem_keys_insert _ _ _ _).mp hmem with he | hold
        · have := letterName_inj.mp he
          omega
        · exact hfresh j (by omega) hold
    refine ⟨hstart, ?_⟩
    rw [hcontents, Grammar.contents_addRule (hfresh i (Nat.le_refl i))]
    simp

theorem not_mem_letterRules {x : String} (hx : ∀ i, letterName i ≠ x) (i : Nat)
    (letters : List Char) : x ∉ (letterRules i letters).map Prod.fst := by
  rw [map_fst_letterRules]
  simp [hx]

/-- The demonstration starts where no letter is inlined; no rule has replaced another one. -/
theorem wasteful_stage (word : List Char) :
    (wasteful word).start = "*" ∧ (wasteful word).contents = stage [] word := by
  obtain ⟨hstart, hletters⟩ := letters_added word 0 Grammar.standard fun _ _ => List.not_mem_nil
  have hnoW := not_mem_letterRules (fun i => (letterName_ne i).1) 0 word
  have hnoStar := not_mem_letterRules (fun i => (letterName_ne i).2) 0 word
  unfold wasteful
  generalize (word.zipIdx.foldl
    (fun g (c, i) => (g.addRule (letterName i) (.ofList [.terminal c])).2) Grammar.standard) =
      g at hstart hletters ⊢
  have hcontents : g.contents = letterRules 0 word := hletters
  refine ⟨hstart, ?_⟩
  rw [← hcontents, Grammar.map_fst_contents] at hnoW hnoStar
  rw [Grammar.contents_addRule, Grammar.contents_addRule hnoW, hcontents]
  · simp [stage, letterReferences, List.range_eq_range']
  · intro hmem
    rcases (OrderedMap.mem_keys_insert _ _ _ _).mp hmem with he | hold
    · exact absurd he (by decide)
    · exact hnoStar hold

/-! ## Words and validity -/

section

variable {g : Grammar Char String} {done rest : List Char} {c : Char}

theorem productions_letter (h : g.contents = stage done rest) {e : Char × Nat}
    (he : e ∈ rest.zipIdx done.length) : g.productions (letterName e.2) = some [.terminal e.1] := by
  rw [← Grammar.mem_contents_iff, h]
  exact List.mem_append_left _ (List.mem_map_of_mem he)

theorem productions_word (h : g.contents = stage done rest) :
    g.productions "W" =
      some (done.map .terminal ++ letterReferences done.length rest.length) := by
  rw [← Grammar.mem_contents_iff, h]
  simp [stage]

theorem productions_start (h : g.contents = stage done rest) :
    g.productions "*" = some [.nonterminal "W", .terminal '/', .nonterminal "W"] := by
  rw [← Grammar.mem_contents_iff, h]
  simp [stage]

/-- Nothing else has a rule. -/
theorem productions_cases (h : g.contents = stage done rest) {x : String}
    {ss : List (Symbol Char String)} (hx : g.productions x = some ss) :
    (∃ e ∈ rest.zipIdx done.length, x = letterName e.2 ∧ ss = [.terminal e.1]) ∨
      (x = "W" ∧ ss = done.map .terminal ++ letterReferences done.length rest.length) ∨
        (x = "*" ∧ ss = [.nonterminal "W", .terminal '/', .nonterminal "W"]) := by
  rw [← Grammar.mem_contents_iff, h, stage, List.mem_append, letterRules, List.mem_map] at hx
  simpa [eq_comm] using hx

theorem yields_letterReferences {P : Productions Char String} (letters : List Char) (i : Nat)
    (h : ∀ e ∈ letters.zipIdx i, P (letterName e.2) = some [.terminal e.1]) :
    P.Yields (letterReferences i letters.length) letters := by
  induction letters generalizing i with
  | nil => exact .nil
  | cons c letters ih =>
    rw [List.zipIdx_cons, List.forall_mem_cons] at h
    rw [List.length_cons, letterReferences_succ]
    exact .reference h.1 (.terminal .nil) (ih (i + 1) h.2)

/-- **At every stage the start symbol derives the word twice, with a stroke in between.** -/
theorem derives_stage (h : g.contents = stage done rest) :
    g.productions.Derives "*" ((done ++ rest) ++ '/' :: (done ++ rest)) := by
  have hword : g.productions.Yields
      (done.map .terminal ++ letterReferences done.length rest.length) (done ++ rest) :=
    (yields_letterReferences rest done.length fun _ he => productions_letter h he).terminals done
  refine ⟨_, productions_start h, ?_⟩
  have hlast := Productions.Yields.reference (productions_word h) hword .nil
  rw [List.append_nil] at hlast
  exact .reference (productions_word h) hword (.terminal hlast)

/-- The references of a stage: from the start symbol to the word, and from the word to letters. -/
theorem refers_stage (h : g.contents = stage done rest) {x y : String}
    (hxy : g.productions.Refers x y) :
    (x = "*" ∧ y = "W") ∨ (x = "W" ∧ ∃ e ∈ rest.zipIdx done.length, y = letterName e.2) := by
  obtain ⟨ss, hss, hy⟩ := hxy
  rcases productions_cases h hss with ⟨e, -, -, rfl⟩ | ⟨rfl, rfl⟩ | ⟨rfl, rfl⟩
  · simp at hy
  · right
    simpa [mem_letterReferences] using hy
  · left
    simpa using hy

/-- Every reference of a stage goes to a lower rule: from the start symbol to the word, and from the
word to letters. -/
theorem acyclic_stage (h : g.contents = stage done rest) : g.productions.Acyclic := by
  refine Productions.acyclic_of_height
    (fun x => if x = "*" then 2 else if x = "W" then 1 else 0) fun x y hxy => ?_
  rcases refers_stage h hxy with ⟨rfl, rfl⟩ | ⟨rfl, e, -, rfl⟩
  · decide
  · simp [letterName_ne]

/-- Unless the word is empty, the grammar of every stage is valid. -/
theorem valid_stage (hs : g.start = "*") (h : g.contents = stage done rest)
    (hword : done ++ rest ≠ []) : g.Valid where
  start_defined := by
    rw [hs, productions_start h]
    rfl
  nonempty x ss hx := by
    rcases productions_cases h hx with ⟨e, -, -, rfl⟩ | ⟨-, rfl⟩ | ⟨-, rfl⟩
    · simp
    · simpa [letterReferences] using hword
    · simp
  defined x y hxy := by
    rcases refers_stage h hxy with ⟨-, rfl⟩ | ⟨-, e, he, rfl⟩
    · rw [productions_word h]
      rfl
    · rw [productions_letter h he]
      rfl
  unreferenced x hx := by
    rw [hs] at hx
    rcases refers_stage h hx with ⟨-, hy⟩ | ⟨-, e, -, hy⟩
    · exact absurd hy (by decide)
    · exact (letterName_ne e.2).2 hy.symm
  acyclic := acyclic_stage h

/-! ## The reduction -/

theorem sum_letterRules (x : String) (i : Nat) (letters : List Char) :
    ((letterRules i letters).map fun r => r.2.countP (Symbol.refersTo x)).sum = 0 := by
  simp [letterRules, Function.comp_def, Symbol.refersTo]

/-- The letters from `k` on do not include an earlier one. -/
theorem not_mem_letterReferences {i k : Nat} (hik : i < k) (n : Nat) :
    .nonterminal (letterName i) ∉ letterReferences k n := by
  intro h
  obtain ⟨j, hj, he⟩ := List.mem_map.mp h
  rw [Symbol.nonterminal.injEq, letterName_inj] at he
  rw [List.mem_range'_1] at hj
  omega

/-- The rule of the first letter that is left is used once, in the rule of the word. -/
theorem occurrences_letter (h : g.contents = stage done (c :: rest)) :
    g.occurrences (letterName done.length) = 1 := by
  obtain ⟨hW, -⟩ := letterName_ne done.length
  have hdone : (done.map (Symbol.terminal (N := String))).countP
      (Symbol.refersTo (letterName done.length)) = 0 := by
    simp [Symbol.refersTo]
  have hrest : (letterReferences (done.length + 1) rest.length).countP
      (Symbol.refersTo (letterName done.length)) = 0 := by
    rw [List.countP_eq_zero]
    intro s hs hrefers
    rw [Symbol.refersTo_iff] at hrefers
    exact not_mem_letterReferences (Nat.lt_succ_self _) _ (hrefers ▸ hs)
  rw [g.occurrences_eq_contents, h, stage, List.map_append, List.sum_append, sum_letterRules]
  simp [hdone, hrest, Symbol.refersTo, hW.symm]

theorem nextReducible_stage (hs : g.start = "*") (h : g.contents = stage done (c :: rest)) :
    g.nextReducible = some (letterName done.length) := by
  have hkeys : g.rules.keys =
      letterName done.length :: (letterRules (done.length + 1) rest).map Prod.fst ++ ["W", "*"] := by
    rw [← g.map_fst_contents, h]
    simp [stage]
  rw [Grammar.nextReducible_eq, hkeys, List.cons_append, List.find?_cons_of_pos]
  simp [hs, occurrences_letter h, letterName_ne]

theorem filter_map_letterRules {i k : Nat} (hik : i < k) (c : Char) (letters : List Char) :
    ((letterRules k letters).filter fun r => r.1 ≠ letterName i).map
      (fun r => (r.1, spliced (letterName i) [.terminal c] r.2)) = letterRules k letters := by
  have hkeep : (letterRules k letters).filter (fun r => r.1 ≠ letterName i) =
      letterRules k letters := by
    refine List.filter_eq_self.mpr fun r hr => ?_
    have hname : r.1 ∈ (letterRules k letters).map Prod.fst := List.mem_map_of_mem hr
    rw [map_fst_letterRules] at hname
    obtain ⟨j, hj, hr⟩ := List.mem_map.mp hname
    rw [List.mem_range'_1] at hj
    have hji : j ≠ i := by omega
    simpa [← hr, letterName_inj] using hji
  rw [hkeep]
  simp [letterRules]

theorem spliced_word (done : List Char) (c : Char) (n : Nat) :
    spliced (letterName done.length) [.terminal c]
        (done.map .terminal ++ letterReferences done.length (n + 1)) =
      (done ++ [c]).map .terminal ++ letterReferences (done ++ [c]).length n := by
  have hrest := not_mem_letterReferences (Nat.lt_succ_self done.length) n
  rw [letterReferences_succ, spliced, List.flatMap_append, ← spliced, ← spliced, spliced_self,
    spliced_of_not_mem (by simp), spliced_of_not_mem hrest]
  simp

/-- **One inlining is one stage**: the letter takes the place of its name in the rule of the word. -/
theorem inlineRule_stage (hs : g.start = "*") (h : g.contents = stage done (c :: rest)) :
    let step := g.inlineRule (letterName done.length)
    step.answer = .ok 1 ∧ step.records = [.inlined (letterName done.length) 1] ∧
      step.grammar.start = "*" ∧ step.grammar.contents = stage (done ++ [c]) rest := by
  have hproduction : g.productions (letterName done.length) = some [.terminal c] :=
    productions_letter h (e := (c, done.length)) (by simp)
  obtain ⟨b, hb, hletter⟩ := productionsOf_eq_some_iff.mp hproduction
  have hne : letterName done.length ≠ g.start := by
    rw [hs]
    exact (letterName_ne _).2
  have hself : ¬ g.productions.Refers (letterName done.length) (letterName done.length) := by
    rintro ⟨ss, hss, hmem⟩
    rw [hproduction] at hss
    cases hss
    simp at hmem
  have hsites : ((g.dropRule (letterName done.length)).substitute (letterName done.length)
      b.toList).1 = 1 := by
    have hsum := Grammar.outerOccurrences_add_count hb
    have hown : Body.count b (letterName done.length) = 0 := by
      simp [Body.count, hletter, Symbol.refersTo]
    rw [occurrences_letter h, hown, Nat.add_zero] at hsum
    rw [Grammar.substitute_dropRule_fst, hsum]
  have hinlined := Grammar.inlined_inlineRule hb hne hself
  intro step
  refine ⟨?_, ?_, hinlined.start.trans hs, ?_⟩
  · simp only [step, Grammar.inlineRule_of_get? hb hne hself, hsites]
  · simp only [step, Grammar.inlineRule_of_get? hb hne hself, hsites]
  · obtain ⟨hW, hstar⟩ := letterName_ne done.length
    rw [hinlined.contents_eq, h, hletter, stage, stage, List.filter_append, List.map_append,
      letterRules_cons, List.filter_cons_of_neg (by simp),
      filter_map_letterRules (Nat.lt_succ_self _)]
    simpa [hW.symm, hstar.symm, spliced_of_ne] using spliced_word done c rest.length

/-- At the last stage nothing is reducible: the rule of the word is used twice. -/
theorem nextReducible_lastStage (hs : g.start = "*") (h : g.contents = stage done []) :
    g.nextReducible = none := by
  have hkeys : g.rules.keys = ["W", "*"] := by
    rw [← g.map_fst_contents, h]
    rfl
  have htwice : g.occurrences "W" = 2 := by
    rw [g.occurrences_eq_contents, h]
    simp [stage, letterRules, letterReferences, Symbol.refersTo]
  simp [Grammar.nextReducible_eq, hkeys, hs, htwice]

/-- **The loop runs through the stages.** It inlines the letters that are left, in their order, and
each of them in one place. -/
theorem inlineAll_stage (hs : g.start = "*") (h : g.contents = stage done rest) :
    let all := g.inlineAll
    all.answer = .ok rest.length ∧
      all.records =
        (List.range' done.length rest.length).map (fun i => .inlined (letterName i) 1) ∧
      all.grammar.start = "*" ∧ all.grammar.contents = stage (done ++ rest) [] := by
  induction rest generalizing done g with
  | nil =>
    rw [Grammar.inlineAll_of_none (nextReducible_lastStage hs h), List.append_nil]
    exact ⟨rfl, rfl, hs, h⟩
  | cons c rest ih =>
    obtain ⟨hok, hrecords, hs', h'⟩ := inlineRule_stage hs h
    rw [Grammar.inlineAll_of_some (nextReducible_stage hs h) hok]
    obtain ⟨hall, hmore, hstart, hcontents⟩ := ih hs' h'
    refine ⟨?_, ?_, hstart, ?_⟩
    · simp [hall, Except.map]
    · simp [hrecords, hmore, List.range'_succ]
    · rw [hcontents, List.append_assoc, List.singleton_append]

/-- The rules that are left in the end. -/
def reducedRules (letters : List Char) : List (String × List (Symbol Char String)) :=
  [("W", letters.map .terminal), ("*", [.nonterminal "W", .terminal '/', .nonterminal "W"])]

theorem stage_nil (letters : List Char) : stage letters [] = reducedRules letters := by
  simp [stage, letterRules, letterReferences, reducedRules]

theorem size_stage (h : g.contents = stage done rest) : g.size = rest.length + 2 := by
  have hlength := congrArg List.length h
  simpa [Grammar.contents, stage, letterRules, Grammar.size, OrderedMap.size] using hlength

/-- **The reduction inlines every letter and nothing else.** -/
theorem reduce_stage (hs : g.start = "*") (h : g.contents = stage [] rest) :
    g.reduce.answer = .ok rest.length ∧
      g.reduce.records = (List.range rest.length).map (fun i => .inlined (letterName i) 1) ++
        [.reduced (rest.length + 2) 2 rest.length] ∧
      g.reduce.grammar.start = "*" ∧ g.reduce.grammar.contents = stage rest [] := by
  obtain ⟨hall, hrecords, hstart, hcontents⟩ := inlineAll_stage hs h
  rw [Grammar.reduce_of_acyclic (acyclic_stage h) hall]
  refine ⟨rfl, ?_, hstart, hcontents⟩
  rw [hrecords, size_stage h, size_stage hcontents, List.range_eq_range']
  rfl

end

/-! ## The transcript -/

/-- The whole way of a demonstration, whose letters are any but none. -/
theorem demonstration_way {letters : List Char} (hne : letters ≠ []) :
    let g := wasteful letters
    let g' := g.expandStart.grammar.reduce
    g.validate = .ok () ∧ g.expandStart.answer = .ok (letters ++ '/' :: letters) ∧
      g'.answer = .ok letters.length ∧
      g'.records = (List.range letters.length).map (fun i => .inlined (letterName i) 1) ++
        [.reduced (letters.length + 2) 2 letters.length] ∧
      g'.grammar.start = "*" ∧ g'.grammar.contents = reducedRules letters ∧
      g'.grammar.walk.toList = letters ++ '/' :: letters := by
  obtain ⟨hs, h⟩ := wasteful_stage letters
  have hvalid : (wasteful letters).Valid := valid_stage hs h (by simpa using hne)
  have hsettled : (wasteful letters).Settled := .empty
  have hderives : (wasteful letters).productions.Derives (wasteful letters).start
      (letters ++ '/' :: letters) := by
    rw [hs]
    simpa using derives_stage h
  have hexpand := (Grammar.expand_eq_ok_iff hsettled).mpr hderives
  -- the expansion has changed the memo alone
  have hs' : (wasteful letters).expandStart.grammar.start = "*" := hs
  have h' : (wasteful letters).expandStart.grammar.contents = stage [] letters := h
  obtain ⟨hreduce, hrecords, hstart, hcontents⟩ := reduce_stage hs' h'
  have hafter := Productions.derives_iff_unfolds.mp (derives_stage hcontents)
  rw [← hstart, List.append_nil, ← List.append_nil (List.map _ _)] at hafter
  rw [stage_nil] at hcontents
  exact ⟨Grammar.validate_eq_ok_iff.mpr hvalid, hexpand, hreduce, hrecords, hstart, hcontents,
    Grammar.toList_walk hafter rfl⟩

/-- The listing of the reduced grammar. -/
def reducedListing (letters : List Char) : String :=
  "Start: *\n"
    ++ "W :> " ++ " ".intercalate (letters.map String.singleton) ++ "\n"
    ++ "* :> <W> / <W>\n"

/-- The numbers for a word of `n` letters. -/
def summary (n : Nat) : String :=
  "=== Statistics ===\n"
    ++ "Expanded length: " ++ Nat.repr (2 * n + 1) ++ "\n"
    ++ "Symbols in grammar: " ++ Nat.repr (n + 3) ++ "\n"
    ++ "Rules: " ++ Nat.repr 2 ++ "\n"
    ++ "Compression ratio: " ++ Decimal.fixed 2 (Size.compressionRatio ⟨2, n + 3⟩ (2 * n + 1))
    ++ "%\n"

/-- What is printed for the letters of a word. -/
def report (letters : List Char) : String :=
  "=== Before ===\n" ++ (wasteful letters).plain ++ "\n"
    ++ "=== After (" ++ Nat.repr letters.length ++ " rules inlined)" ++ " ===\n"
    ++ reducedListing letters ++ "\n"
    ++ summary letters.length

theorem plain_reduced {g : Grammar Char String} {letters : List Char} (hs : g.start = "*")
    (h : g.contents = reducedRules letters) :
    g.plain = reducedListing letters := by
  rw [g.plain_eq, hs, h]
  have hword : (letters.map (Symbol.terminal (N := String))).map Symbol.plain =
      letters.map String.singleton := by
    rw [List.map_map]
    rfl
  simp only [reducedRules, List.map_cons, List.map_nil, hword, reducedListing]
  simp [Spelled.plain, Symbol.plain, ← String.append_assoc]

theorem stats_reduced {g : Grammar Char String} {letters : List Char}
    (h : g.contents = reducedRules letters) : g.stats = ⟨2, letters.length + 3⟩ := by
  rw [g.stats_eq, h]
  simp [reducedRules]

theorem conclude_eq {g : Grammar Char String} {letters : List Char} (shown : String)
    (h : g.contents = reducedRules letters) (hwalk : g.walk.toList = letters ++ '/' :: letters) :
    conclude shown (letters ++ '/' :: letters) g = ⟨0, shown ++ summary letters.length, ""⟩ := by
  have hlength : (letters ++ '/' :: letters).length = 2 * letters.length + 1 := by
    simp
    omega
  rw [conclude, hwalk, if_pos rfl, hlength]
  unfold statistics summary
  rw [stats_reduced h]
  rfl

theorem demonstrate_eq {letters : List Char} (hne : letters ≠ []) :
    demonstrate letters = ⟨0, report letters, ""⟩ := by
  obtain ⟨hvalid, hexpand, hreduce, -, hstart, hcontents, hwalk⟩ := demonstration_way hne
  have hbefore : (wasteful letters).expandStart.grammar.plain = (wasteful letters).plain :=
    Grammar.plain_expand _ _
  have hafter := plain_reduced hstart hcontents
  simp only [demonstrate, hvalid, hexpand, hreduce, conclude_eq _ hcontents hwalk, listing, hbefore,
    hafter]
  unfold report
  simp [Spelled.plain, ← String.append_assoc]

/-- **The transcript for every word.** Whatever characters a word has, unless it has none, its
grammar has a rule of its own for each of them and is valid. The first expansion is the word, a
stroke and the word; the reduction inlines exactly the rules of the letters, in their order; what is
left is the rule of the word with its letters and the start rule; and a walk of it reads what the
expansion was. So the demonstration ends with code zero, prints the report and complains of nothing.
For the empty word it ends with code one, prints nothing, and complains that the rule of the word is
empty. Other arguments are not read. -/
theorem run_demonstration (others : List String) :
    (∀ word : String, word ≠ "" →
      let letters := word.toList
      let n := letters.length
      let g := wasteful letters
      let g' := g.expandStart.grammar.reduce
      g.contents = stage [] letters ∧ g.validate = .ok () ∧
      g.expandStart.answer = .ok (letters ++ '/' :: letters) ∧
      g'.answer = .ok n ∧
      g'.records = (List.range n).map (fun i => .inlined (letterName i) 1) ++
        [.reduced (n + 2) 2 n] ∧
      g'.grammar.contents = reducedRules letters ∧
      g'.grammar.walk.toList = letters ++ '/' :: letters ∧
      run (word :: others) = ⟨0, report letters, ""⟩) ∧
    run ("" :: others) = ⟨1, "", "Invalid grammar: rule for \"W\" has an empty body\n"⟩ := by
  constructor
  · intro word hword
    have hne : word.toList ≠ [] := by simpa using hword
    obtain ⟨hvalid, hexpand, hreduce, hrecords, -, hcontents, hwalk⟩ := demonstration_way hne
    exact ⟨(wasteful_stage _).2, hvalid, hexpand, hreduce, hrecords, hcontents, hwalk,
      demonstrate_eq hne⟩
  · show demonstrate [] = _
    decide +kernel

/-- A word of characters that the grammar has a use for itself. -/
theorem run_demonstration_strokes :
    "/*/" ≠ "" ∧ (run ["/*/"]).code = 0 ∧ (run ["/*/"]).stderr = "" ∧
      (wasteful "/*/".toList).expandStart.grammar.reduce.grammar.contents =
        [("W", [.terminal '/', .terminal '*', .terminal '/']),
          ("*", [.nonterminal "W", .terminal '/', .nonterminal "W"])] ∧
      reducedListing "/*/".toList = "Start: *\nW :> / * /\n* :> <W> / <W>\n" := by
  have hne : "/*/" ≠ "" := by decide
  obtain ⟨-, -, -, -, -, hcontents, -, hrun⟩ := (run_demonstration []).1 "/*/" hne
  rw [hrun]
  exact ⟨hne, rfl, rfl, hcontents, by decide +kernel⟩

end Demonstration

end StraightLine
