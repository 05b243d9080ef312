import TinyScript.Alike
import TinyScript.Main
import TinyScript.Proofs.Grammar.Binding
import TinyScript.Proofs.Grammar.Completeness
import TinyScript.Proofs.Grammar.Soundness
import TinyScript.Proofs.Spelling
import TinyScript.Proofs.Agreement
import TinyScript.Proofs.Termination
import TinyScript.Proofs.Growth
import TinyScript.Proofs.Discipline
import TinyScript.Proofs.Persistence
import TinyScript.Proofs.Reach
import TinyScript.Proofs.Discipline.Steps
import TinyScript.Proofs.Storage
import TinyScript.Proofs.Origin
import TinyScript.Proofs.Rereading
import TinyScript.Proofs.History
import TinyScript.Proofs.Lexing.Tiling
import TinyScript.Proofs.Unmentioned
import TinyScript.Proofs.Dialogue
import TinyScript.Proofs.HashKeys
import TinyScript.Proofs.Deques
import TinyScript.Proofs.Rendering
import TinyScript.Proofs.CallDepth
import TinyScript.Proofs.Activation
import TinyScript.Proofs.Summation
import TinyScript.Proofs.Counters
import TinyScript.Proofs.Attempts
import TinyScript.Proofs.Mistakes
import TinyScript.Proofs.Concatenation
import TinyScript.Proofs.Lexing.Written
import TinyScript.Proofs.Equality
import TinyScript.Proofs.Transcript
import TinyScript.Proofs.Arithmetic
import TinyScript.Proofs.PointingBack
import TinyScript.Proofs.Arguments
