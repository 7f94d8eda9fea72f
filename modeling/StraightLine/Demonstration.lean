import StraightLine.Decimal.Fixed
import StraightLine.Grammar.Expansion
import StraightLine.Grammar.Listing
import StraightLine.Grammar.Reduction
import StraightLine.Grammar.Unfolding

/-!
# A demonstration of reduction

The demonstration spells a word with one rule for each letter, reduces the grammar and shows it
before and after. It is the example program `reduce`.

* `wasteful` is the grammar: a rule for each letter, `W` for the word, and a start rule that reads
  the word twice with a stroke in between.
* `demonstrate` runs validation, expansion, reduction and a lazy walk, and compares the word
  before with the word after.
* A `Transcript` is what a run prints and the code it ends with.
-/

namespace StraightLine.Demonstration

open Text (Spelled)

/-- What a program writes and how it ends. -/
structure Transcript where
  code : Nat
  stdout : String
  stderr : String
  deriving DecidableEq, Repr

/-- The name of the rule for the letter at index `i`. -/
def letterName (i : Nat) : String := "C" ++ Spelled.plain i

/-- One rule for each letter of the word, one for the word and one for the start symbol. -/
def wasteful (word : List Char) : Grammar Char String :=
  let letters := word.zipIdx.foldl
    (fun g (c, i) => (g.addRule (letterName i) (.ofList [.terminal c])).2) Grammar.standard
  let body := (List.range word.length).map fun i => Symbol.nonterminal (letterName i)
  let worded := (letters.addRule "W" (.ofList body)).2
  (worded.addRule "*" (.ofList [.nonterminal "W", .terminal '/', .nonterminal "W"])).2

/-- The listing of a grammar under a headline. -/
def listing (headline : String) (g : Grammar Char String) : String :=
  "=== " ++ headline ++ " ===\n" ++ g.plain ++ "\n"

/-- The numbers that the demonstration ends with. -/
def statistics (g : Grammar Char String) (length : Nat) : String :=
  "=== Statistics ===\n"
    ++ "Expanded length: " ++ Spelled.plain length ++ "\n"
    ++ "Symbols in grammar: " ++ Spelled.plain g.stats.symbols ++ "\n"
    ++ "Rules: " ++ Spelled.plain g.stats.rules ++ "\n"
    ++ "Compression ratio: " ++ Decimal.fixed 2 (g.stats.compressionRatio length) ++ "%\n"

/-- A run that ends with a complaint, after what it has printed so far. -/
def complain (stdout complaint : String) : Transcript := ⟨1, stdout, complaint ++ "\n"⟩

/-- Compares the word before the reduction with that of the reduced grammar, and sums up. -/
def conclude (shown : String) (before : List Char) (g : Grammar Char String) : Transcript :=
  let after := g.walk.toList
  if before = after then ⟨0, shown ++ statistics g after.length, ""⟩
  else
    complain shown ("Mismatch: " ++ Spelled.literal (String.ofList before) ++ " != "
      ++ Spelled.literal (String.ofList after))

/-- The demonstration for a word. -/
def demonstrate (word : List Char) : Transcript :=
  let g := wasteful word
  match g.validate with
  | .error e => complain "" ("Invalid grammar: " ++ e.message)
  | .ok () =>
    let expanded := g.expandStart
    match expanded.answer with
    | .error e => complain "" ("Expansion failed: " ++ e.message)
    | .ok before =>
      let shown := listing "Before" expanded.grammar
      let reduced := expanded.grammar.reduce
      match reduced.answer with
      | .error e => complain shown ("Reduction failed: " ++ e.message)
      | .ok steps =>
        let headline := "After (" ++ Spelled.plain steps ++ " rules inlined)"
        conclude (shown ++ listing headline reduced.grammar) before reduced.grammar

/-- The word that is used if none is given. -/
def usualWord : String := "abracadabra"

/-- The demonstration for the first argument of a command line. -/
def run (arguments : List String) : Transcript :=
  demonstrate (arguments.headD usualWord).toList

end StraightLine.Demonstration
