import MiniLisp.Eval.Depth
import MiniLisp.Main
import MiniLisp.Workspace
import MiniLisp.Proofs.Binary64.OfDecimal
import MiniLisp.Proofs.Binary64.Shortest
import MiniLisp.Proofs.Decimal.Printer
import MiniLisp.Proofs.Form.Atom
import MiniLisp.Proofs.Form.Tree
import MiniLisp.Proofs.Form.RoundTrip
import MiniLisp.Proofs.Form.Balance
import MiniLisp.Proofs.Eval.Rules
import MiniLisp.Proofs.Run.Ends
import MiniLisp.Proofs.Eval.Refinement
import MiniLisp.Proofs.Eval.Growth
import MiniLisp.Proofs.Session.Growth
import MiniLisp.Proofs.Eval.Invariant
import MiniLisp.Proofs.Primitive.Parts
import MiniLisp.Proofs.Session.Lines
import MiniLisp.Proofs.Value.Nesting
import MiniLisp.Proofs.Session.Scoping
import MiniLisp.Proofs.Store.Root
import MiniLisp.Proofs.Session.Isolation
import MiniLisp.Proofs.Session.Primitives
import MiniLisp.Proofs.Eval.Propagation
import MiniLisp.Proofs.Eval.Unused
import MiniLisp.Proofs.Session.Answers
import MiniLisp.Proofs.Session.Conversation
import MiniLisp.Proofs.Store.WellFormed
import MiniLisp.Proofs.Store.Live
import MiniLisp.Proofs.Eval.Moments
import MiniLisp.Proofs.Session.Environments
import MiniLisp.Proofs.Eval.Cases
import MiniLisp.Proofs.Session.Variables
import MiniLisp.Proofs.Token.Split
import MiniLisp.Proofs.Eval.Descent
import MiniLisp.Proofs.Session.Termination
import MiniLisp.Proofs.Eval.Refusals
import MiniLisp.Proofs.Eval.Calls
import MiniLisp.Proofs.Eval.Quotation
import MiniLisp.Proofs.Program.Mapping
import MiniLisp.Proofs.Program.Counters
import MiniLisp.Proofs.Store.Frame
import MiniLisp.Proofs.Primitive.Arithmetic
import MiniLisp.Proofs.Binary64.Nearest
import MiniLisp.Proofs.Decimal.Quotient
import MiniLisp.Proofs.Numeral.Grammar
import MiniLisp.Proofs.Form.Classes
import MiniLisp.Proofs.Binary64.Integers
import MiniLisp.Proofs.Number.Comparison
import MiniLisp.Proofs.Session.Echo
import MiniLisp.Proofs.Value.Equality
import MiniLisp.Proofs.Eval.Record
import MiniLisp.Proofs.Session.Identity
