import SchemeTyping.Expr.Printer
import SchemeTyping.Expr.Reader
import SchemeTyping.Tree.Path

/-!
# Trees under edit

A tree is an expression with a number that tells it from other trees and a revision that counts its
edits.  A place is a tree and a path in it.

A *mention* is an expression that some record refers to.  As long as the expression stands in a
tree, the mention follows the edits below it; an edit at the expression itself or above it takes the
expression out of the tree, and from then on the mention does not change any more.  The path of an
expression in its tree never changes, because edits only replace children.
-/

set_option autoImplicit false

namespace SchemeTyping

/-- An expression under edit. -/
structure Tree where
  number : Nat
  root : Expr
  revision : Nat
  deriving DecidableEq, Inhabited

/-- The name of the tree with a number. -/
def treeName (number : Nat) : String := "tree" ++ toString number

/-- A path in a tree. -/
structure Place where
  tree : Nat
  path : Path
  deriving DecidableEq, Repr, Inhabited

namespace Place

/-- The place of a child. -/
def child (p : Place) (index : Nat) : Place := { p with path := p.path.child index }

/-- Whether the first place is strictly above the second. -/
def isAbove (p q : Place) : Bool :=
  p.tree = q.tree && p.path.length < q.path.length && p.path.isPrefixOf q.path

/-- Whether the first place is the second or above it. -/
def isAtOrAbove (p q : Place) : Bool := p = q || p.isAbove q

end Place

namespace Tree

/-- The name of a tree. -/
def name (t : Tree) : String := treeName t.number

/-- The place of the root. -/
def rootPlace (t : Tree) : Place := ⟨t.number, []⟩

/-- Trees numbered from `first` on, one for every expression. -/
def numbered (first : Nat) (es : List Expr) : List Tree :=
  es.zipIdx.map fun (e, i) ↦ ⟨first + i, e, 0⟩

/-- Reads a source text into one tree for every form, numbered from `first` on. -/
def readAll (first : Nat) (source : String) : Except SyntaxError (List Tree) :=
  (Expr.readAll source).map (numbered first)

end Tree

/-! ## Edits -/

/-- Steps of an edit.  An edit that fails keeps what it has done to the tree so far. -/
abbrev Edit := ExceptT PathError (StateM Tree)

namespace Edit

/-- Replaces a child of the expression at a path without making a new revision. -/
def setChildAt (path : Path) (index : Int) (new : Expr) : Edit Unit := do
  match (← get).root.nodeAt path with
  | .error error => throw error
  | .ok node =>
    match node.child? index with
    | none => throw (.noChild index node.kind)
    | some _ => modify fun t ↦ { t with root := t.root.setAt (path ++ [index]) new }

/-- Replaces the expression at a path, which makes a new revision. -/
def replaceAt (path : Path) (new : Expr) : Edit Unit := do
  match path.getLast? with
  | none => modify fun t ↦ { t with root := new }
  | some index => setChildAt path.dropLast index new
  modify fun t ↦ { t with revision := t.revision + 1 }

end Edit

/-! ## Mentions -/

/-- An expression that a record refers to, with the place where it stands if it stands in a tree. -/
structure Mention where
  expr : Expr
  place : Option Place
  deriving DecidableEq, Repr, Inhabited

namespace Mention

/-- A mention of an expression that stands in no tree. -/
def loose (e : Expr) : Mention := ⟨e, none⟩

/-- Whether the mentioned expression stands at a place. -/
def standsAt (m : Mention) (p : Place) : Bool := m.place == some p

/-- The mention after an edit that put `new` at a place. -/
def afterEdit (edited : Place) (new : Expr) (m : Mention) : Mention :=
  match m.place with
  | none => m
  | some p =>
    if p.isAbove edited then { m with expr := m.expr.setAt (edited.path.drop p.path.length) new }
    else if edited.isAtOrAbove p then { m with place := none }
    else m

end Mention

end SchemeTyping
