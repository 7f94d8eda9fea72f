import StraightLine.Main
import StraightLine.Grammar.Merge
import StraightLine.Proofs.Productions
import StraightLine.Proofs.Unfolds
import StraightLine.Proofs.Derivation
import StraightLine.Proofs.Evaluation
import StraightLine.Proofs.Visit
import StraightLine.Proofs.Memo
import StraightLine.Proofs.History
import StraightLine.Proofs.Lengths
import StraightLine.Proofs.Acyclicity
import StraightLine.Proofs.Inlining
import StraightLine.Proofs.Occurrences
import StraightLine.Proofs.Substitution
import StraightLine.Proofs.Reduction
import StraightLine.Proofs.Cursors
import StraightLine.Proofs.LazyWalk
import StraightLine.Proofs.Equivalence
import StraightLine.Proofs.MergeSearch
import StraightLine.Proofs.Merging
import StraightLine.Proofs.Validity
import StraightLine.Proofs.Diagnosis
import StraightLine.Proofs.MergeVerdict
import StraightLine.Proofs.MergeMeaning
import StraightLine.Proofs.Refusal
import StraightLine.Proofs.ValidRuns
import StraightLine.Proofs.Lifetime
import StraightLine.Proofs.Edits
import StraightLine.Proofs.FixedPoint
import StraightLine.Proofs.LazyAnswers
import StraightLine.Proofs.Accounts
import StraightLine.Proofs.Commutation
import StraightLine.Proofs.PlainWalk
import StraightLine.Proofs.MemoGrowth
import StraightLine.Proofs.SinglePass
import StraightLine.Proofs.Counting
import StraightLine.Proofs.Locality
import StraightLine.Proofs.Linkage
import StraightLine.Proofs.Transcript
import StraightLine.Proofs.Splices
import StraightLine.Proofs.Appearance
import StraightLine.Proofs.Patience
import StraightLine.Proofs.Sentential
import StraightLine.Proofs.DepthFirst
import StraightLine.Proofs.Economy
