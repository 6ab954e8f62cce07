import SchemeTyping.Expr.Basic
import SchemeTyping.Text.Record

/-!
# Paths into an expression

A path is a row of child indices.  `Expr.nodeAt` is forgiving at its end: where the last child does
not exist, an empty slot is found.  A path that leaves the expression earlier is invalid.
-/

set_option autoImplicit false

namespace SchemeTyping

/-- A row of child indices. -/
abbrev Path := List Int

/-- The path of a child. -/
def Path.child (path : Path) (index : Nat) : Path := path ++ [(index : Int)]

/-- A path as messages show it. -/
def Path.shown (path : Path) : String := Text.row (path.map toString)

/-- Why an expression cannot be reached or changed. -/
inductive PathError
  | invalidPath (path : Path)
  | noChild (index : Int) (kind : String)
  deriving DecidableEq, Repr, Inhabited

/-- The message for an error. -/
def PathError.message : PathError → String
  | .invalidPath path => "Invalid index path for tree: " ++ path.shown
  | .noChild index kind => "No child " ++ toString index ++ " in " ++ kind

namespace Expr

/-- The expression at a path, if the path exists. -/
def at? (e : Expr) : Path → Option Expr
  | [] => some e
  | i :: path => (e.child? i).bind (·.at? path)

/-- The expression at a path, an empty slot where only the last child is missing, and nothing where
the path leaves the expression earlier. -/
def atOrHole? (e : Expr) : Path → Option Expr
  | [] => some e
  | [i] => some ((e.child? i).getD .hole)
  | i :: j :: path => (e.child? i).bind (·.atOrHole? (j :: path))

/-- The expression at a path, or the error. -/
def nodeAt (e : Expr) (path : Path) : Except PathError Expr :=
  match e.atOrHole? path with
  | some node => .ok node
  | none => .error (.invalidPath path)

/-- Puts an expression at a path; nothing changes where the path does not exist. -/
def setAt (e : Expr) (path : Path) (new : Expr) : Expr :=
  match path with
  | [] => new
  | i :: path =>
    match e.child? i with
    | some c => e.setChild i.toNat (c.setAt path new)
    | none => e

mutual

/-- The paths of all the parts of an expression below a path, an expression before its children. -/
def pathsFrom (path : Path) : Expr → List Path
  | .list es => path :: pathsFromList path 0 es
  | .call called args => path :: pathsFrom (path.child 0) called ++ pathsFromList path 1 args
  | .define name value =>
    path :: pathsFrom (path.child 0) name ++ pathsFrom (path.child 1) value
  | .letIn bindings body =>
    path :: pathsFromPairs path 0 bindings
      ++ pathsFrom (path.child (2 * bindings.length)) body
  | .letrec bindings body =>
    path :: pathsFromPairs path 0 bindings
      ++ pathsFrom (path.child (2 * bindings.length)) body
  | .lambda params body =>
    path :: pathsFromList path 0 params ++ pathsFrom (path.child params.length) body
  | .sequence es => path :: pathsFromList path 0 es
  | .branch c t e =>
    path :: pathsFrom (path.child 0) c ++ pathsFrom (path.child 1) t ++ pathsFrom (path.child 2) e
  | .cond cases => path :: pathsFromPairs path 0 cases
  | _ => [path]

/-- The paths of the parts of a row of children that begins at an index. -/
def pathsFromList (path : Path) (index : Nat) : List Expr → List Path
  | [] => []
  | e :: es => pathsFrom (path.child index) e ++ pathsFromList path (index + 1) es

/-- The paths of the parts of a row of pairs of children that begins at an index. -/
def pathsFromPairs (path : Path) (index : Nat) : List (Expr × Expr) → List Path
  | [] => []
  | (d, e) :: es =>
    pathsFrom (path.child index) d ++ pathsFrom (path.child (index + 1)) e
      ++ pathsFromPairs path (index + 2) es

end

/-- The paths of all the parts of an expression, each before those of its children. -/
def paths (e : Expr) : List Path := e.pathsFrom []

end Expr

end SchemeTyping
