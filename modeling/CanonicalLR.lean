import CanonicalLR.Calculator.CommandLine
import CanonicalLR.Derivation.Leftmost
import CanonicalLR.Evaluation.BottomUp
import CanonicalLR.Evaluation.TopDown
import CanonicalLR.Example.Grammars
import CanonicalLR.Example.Tokens
import CanonicalLR.Grammar.Session
import CanonicalLR.Main
import CanonicalLR.Table.Witness
import CanonicalLR.Proofs.Augmentation
import CanonicalLR.Proofs.Derivation
import CanonicalLR.Proofs.Closure
import CanonicalLR.Proofs.Automaton
import CanonicalLR.Proofs.Table
import CanonicalLR.Proofs.Machine
import CanonicalLR.Proofs.Soundness
import CanonicalLR.Proofs.Leftmost
import CanonicalLR.Proofs.Completeness
import CanonicalLR.Proofs.Evaluation
import CanonicalLR.Proofs.Validity
import CanonicalLR.Proofs.ErrorDetection
import CanonicalLR.Proofs.ViablePrefix
import CanonicalLR.Proofs.Beginnings
import CanonicalLR.Proofs.LeastClosure
import CanonicalLR.Proofs.Discovery
import CanonicalLR.Proofs.Registration
import CanonicalLR.Proofs.Cells
import CanonicalLR.Proofs.Construction
import CanonicalLR.Proofs.Safety
import CanonicalLR.Proofs.Termination
import CanonicalLR.Proofs.Agreement
import CanonicalLR.Proofs.Arithmetic.LeftRecursive
import CanonicalLR.Proofs.Arithmetic.Inheriting
import CanonicalLR.Proofs.Traversal
import CanonicalLR.Proofs.Attribution
import CanonicalLR.Proofs.TopDown
import CanonicalLR.Proofs.Branching
import CanonicalLR.Proofs.BottomUp
import CanonicalLR.Proofs.Lookup
import CanonicalLR.Proofs.Witness.Soundness
import CanonicalLR.Proofs.Witness.Completeness
import CanonicalLR.Proofs.Witness.Bound
import CanonicalLR.Proofs.WellFormed
import CanonicalLR.Proofs.Bounds
import CanonicalLR.Proofs.Accounting
import CanonicalLR.Proofs.Authoring
import CanonicalLR.Proofs.Numbering
import CanonicalLR.Proofs.Calculator.Evaluation
import CanonicalLR.Proofs.Calculator.Language
import CanonicalLR.Proofs.Calculator.Grammar
import CanonicalLR.Proofs.Calculator.Lexing
import CanonicalLR.Proofs.Calculator.Correctness
import CanonicalLR.Proofs.Compression
import CanonicalLR.Proofs.Propagation
import CanonicalLR.Proofs.Halting
import CanonicalLR.Proofs.Overlong.Construction
import CanonicalLR.Proofs.Overlong.Runs
import CanonicalLR.Proofs.Lexer.LineIndex
import CanonicalLR.Proofs.Lexer.Pieces
import CanonicalLR.Proofs.Lexer.Tokens
import CanonicalLR.Proofs.Lexer.Agreement
