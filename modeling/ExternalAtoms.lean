import ExternalAtoms.Bundled.Plugins
import ExternalAtoms.Evaluation.Evaluator
import ExternalAtoms.Interpretation.Assignment
import ExternalAtoms.Proofs.Evaluation.Failure
import ExternalAtoms.Proofs.Symbol.Canonical
import ExternalAtoms.Signature.Describe
import ExternalAtoms.Proofs.Interpretation.Built
import ExternalAtoms.Proofs.Interpretation.Refinement
import ExternalAtoms.Proofs.Evaluation.Premise
import ExternalAtoms.Proofs.Evaluation.OutputAtom
import ExternalAtoms.Proofs.Nogood.Literals
import ExternalAtoms.Proofs.Evaluation.Draft
import ExternalAtoms.Proofs.Evaluation.Justification
import ExternalAtoms.Proofs.Evaluation.Derivation
import ExternalAtoms.Proofs.Evaluation.Value
import ExternalAtoms.Proofs.Evaluation.Learning
import ExternalAtoms.Proofs.Bundled.Operand
import ExternalAtoms.Proofs.Bundled.Strings
import ExternalAtoms.Proofs.Bundled.Differences
import ExternalAtoms.Proofs.Bundled.Counting
import ExternalAtoms.Proofs.Bundled.Submission
import ExternalAtoms.Proofs.Bundled.Plugins
import ExternalAtoms.Proofs.Bundled.Database
import ExternalAtoms.Proofs.Bundled.Refinement
import ExternalAtoms.Proofs.Text.Token
import ExternalAtoms.Proofs.Symbol.Rendering
import ExternalAtoms.Proofs.Registry
import ExternalAtoms.Proofs.Evaluation.Commit
import ExternalAtoms.Proofs.Evaluation.Session
import ExternalAtoms.Proofs.Evaluation.Constraints
import ExternalAtoms.Proofs.Evaluation.Outputs
import ExternalAtoms.Proofs.Symbol.Steps
import ExternalAtoms.Proofs.Signature.WellFormed
import ExternalAtoms.Proofs.Registration
import ExternalAtoms.Proofs.Interpretation.Views
import ExternalAtoms.Proofs.Evaluation.Success
import ExternalAtoms.Proofs.Bundled.Agreement
import ExternalAtoms.Proofs.Symbol.Alike
import ExternalAtoms.Proofs.Interpretation.Alike
import ExternalAtoms.Proofs.Retrieval.Alike
import ExternalAtoms.Proofs.Evaluation.Alike
import ExternalAtoms.Proofs.Bundled.Uniformity
import ExternalAtoms.Proofs.Evaluation.Learned
import ExternalAtoms.Proofs.Evaluation.Balance
import ExternalAtoms.Proofs.Bundled.Soundness
import ExternalAtoms.Proofs.Interpretation.Completion
import ExternalAtoms.Proofs.Bundled.Completion
import ExternalAtoms.Proofs.Answer
import ExternalAtoms.Proofs.Nogood.Status
import ExternalAtoms.Proofs.Nogood.History
import ExternalAtoms.Proofs.Evaluation.Admission
import ExternalAtoms.Proofs.Text.Quoted
import ExternalAtoms.Proofs.Evaluation.Settings
import ExternalAtoms.Proofs.Retrieval.Replay
import ExternalAtoms.Proofs.Evaluation.Replay
import ExternalAtoms.Proofs.Bundled.Replay
import ExternalAtoms.Proofs.Evaluation.Presentation
import ExternalAtoms.Proofs.Bundled.Faults
import ExternalAtoms.Proofs.Symbol.AtomTuples
import ExternalAtoms.Proofs.Retrieval.Refusal
import ExternalAtoms.Proofs.Bundled.OperandText
import ExternalAtoms.Proofs.Bundled.TextCalls
import ExternalAtoms.Proofs.Bundled.TextAlgebra
import ExternalAtoms.Proofs.Bundled.StringResults
import ExternalAtoms.Proofs.Symbol.Totality
