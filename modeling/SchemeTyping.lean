import SchemeTyping.Main
import SchemeTyping.Proofs.Forest
import SchemeTyping.Proofs.Partition
import SchemeTyping.Proofs.Forest.Session
import SchemeTyping.Proofs.Numeral
import SchemeTyping.Proofs.Datum.Token
import SchemeTyping.Proofs.Datum.Reader
import SchemeTyping.Proofs.Datum.Text
import SchemeTyping.Proofs.Ty.Text
import SchemeTyping.Proofs.Ty.RoundTrip
import SchemeTyping.Proofs.Expr.Text
import SchemeTyping.Proofs.Expr.StringLiteral
import SchemeTyping.Proofs.Expr.Formed
import SchemeTyping.Proofs.Inference.Acyclic
import SchemeTyping.Proofs.Inference.Solution
import SchemeTyping.Proofs.Inference.Unify
import SchemeTyping.Proofs.Inference.Unify.Complete
import SchemeTyping.Proofs.Inference.Unify.MostGeneral
import SchemeTyping.Proofs.Inference.Calls
import SchemeTyping.Proofs.Expr
import SchemeTyping.Proofs.Tree
import SchemeTyping.Proofs.Inference.Typing
import SchemeTyping.Proofs.Ty.Names
import SchemeTyping.Proofs.Inference.Instantiate
import SchemeTyping.Proofs.Inference.Generalize
import SchemeTyping.Proofs.Inference.Soundness
import SchemeTyping.Proofs.Inference.Complete
import SchemeTyping.Proofs.Inference.Principal
import SchemeTyping.Proofs.Inference.Frame
import SchemeTyping.Proofs.Inference.Live
import SchemeTyping.Proofs.Inference.Finished
import SchemeTyping.Proofs.Inference.Reach
import SchemeTyping.Proofs.Inference.Positions
import SchemeTyping.Proofs.Inference.Renaming
import SchemeTyping.Proofs.Inference.Unify.Equality
import SchemeTyping.Proofs.Inference.Classes
import SchemeTyping.Proofs.Inference.Counted
import SchemeTyping.Proofs.Inference.InTurn
import SchemeTyping.Proofs.Ty.Bounds
import SchemeTyping.Proofs.Ty.Lattice
import SchemeTyping.Proofs.Ty.Usage
import SchemeTyping.Proofs.Ty.Eliminate
import SchemeTyping.Proofs.Constraint
import SchemeTyping.Proofs.Constraint.Quantified
import SchemeTyping.Proofs.Constraint.Comparisons
import SchemeTyping.Proofs.Constraint.Combinable
import SchemeTyping.Proofs.Constraint.Origin
import SchemeTyping.Proofs.Constraint.Intersection
import SchemeTyping.Proofs.Constraint.Permutation
import SchemeTyping.Proofs.Constraint.Minimal
import SchemeTyping.Proofs.Constraint.Complete
import SchemeTyping.Proofs.Constraint.Rename
import SchemeTyping.Proofs.Constraint.Monomorphic
import SchemeTyping.Proofs.Ty.Prenex
import SchemeTyping.Proofs.Checker.Typing
import SchemeTyping.Proofs.Checker.Frame
import SchemeTyping.Proofs.Checker.Calls
import SchemeTyping.Proofs.Checker.Clean
import SchemeTyping.Proofs.Checker.Soundness
import SchemeTyping.Proofs.Checker.Coverage
import SchemeTyping.Proofs.Checker.Mirror
import SchemeTyping.Proofs.Checker.Runs
import SchemeTyping.Proofs.Checker.Edits
import SchemeTyping.Proofs.Checker.OnDemand
import SchemeTyping.Proofs.Checker.Invariants
import SchemeTyping.Proofs.Checker.Waiting
import SchemeTyping.Proofs.Checker.Layers
import SchemeTyping.Proofs.Checker.Scene
import SchemeTyping.Proofs.Checker.Order
import SchemeTyping.Proofs.Checker.Unbound
import SchemeTyping.Proofs.Datum.Lines
import SchemeTyping.Proofs.Forest.Rank
