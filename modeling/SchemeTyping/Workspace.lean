import SchemeTyping.Checker.Definitions
import SchemeTyping.Inference.Rules

/-!
# Workspaces

A workspace holds trees under edit together with what inference and the checker remember of them.
Every operation gives a result or an error, and the workspace afterwards: what an operation has done
before it fails stays done.

An edit changes a tree, and with it every diagnostic and every waiting definition that mentions an
expression of that tree.
-/

set_option autoImplicit false

namespace SchemeTyping

/-- Trees under edit and what is known of them. -/
structure Workspace where
  trees : List Tree
  /-- The number of the next tree. -/
  next : Nat
  /-- The types of names that the checker starts from. -/
  base : Env
  /-- Whether the checker forgets everything before every tree. -/
  autoReset : Bool
  inference : InferenceState
  checker : CheckerState
  /-- The naming of the last generalisation. -/
  naming : Option Store
  deriving Inhabited

namespace Workspace

/-- A workspace without trees. -/
def new (base : Env) (autoReset : Bool) : Workspace :=
  ⟨[], 1, base, autoReset, .initial, .initial, none⟩

/-- Adds trees with the given roots, which come back too. -/
def addExprs (w : Workspace) (es : List Expr) : List Tree × Workspace :=
  let trees := Tree.numbered w.next es
  (trees, { w with trees := w.trees ++ trees, next := w.next + es.length })

/-- Reads a source text and adds a tree for every form.  If a form makes no sense nothing is added,
but the numbers of the forms before it are used up. -/
def addSource (w : Workspace) (source : String) : Except SyntaxError (List Tree) × Workspace :=
  match Datum.readAll source with
  | .error e => (.error e, w)
  | .ok ds =>
    match Expr.readable ds with
    | (es, some e) => (.error e, { w with next := w.next + es.length })
    | (es, none) => let (trees, w) := w.addExprs es; (.ok trees, w)

/-- The revision of the tree with a number. -/
def revision (w : Workspace) (number : Nat) : Nat :=
  ((w.trees.find? (·.number = number)).map (·.revision)).getD 0

/-- How the checker looks at the trees and their definitions. -/
def resolver (w : Workspace) : Resolver := .onDemand w.revision

/-- The events since the last call, which are forgotten. -/
def takeLog (w : Workspace) : List Event × Workspace :=
  ((w.inference.log ++ w.checker.log).toList,
    { w with
      inference := { w.inference with log := #[] }
      checker := { w.checker with log := #[] } })

/-! ## Edits -/

/-- The workspace with a tree in place of the one with the same number. -/
def putTree (w : Workspace) (tree : Tree) : Workspace :=
  { w with trees := w.trees.map fun t ↦ if t.number = tree.number then tree else t }

/-- The workspace after an edit of a tree that put `new` at a path. -/
def afterEdit (w : Workspace) (tree : Tree) (path : Path) (new : Expr) : Workspace :=
  let edited : Place := ⟨tree.number, path⟩
  { w.putTree tree with
    inference :=
      { w.inference with
        error := w.inference.error.map (·.mapMentions (Mention.afterEdit edited new)) }
    checker := w.checker.afterEdit edited new }

/-- Does steps of an edit of a tree that put `new` at a path. -/
def edit (w : Workspace) (tree : Tree) (path : Path) (new : Expr) (step : Edit Unit) :
    Except PathError Unit × Workspace :=
  match step.run tree with
  | (.ok (), tree) => (.ok (), w.afterEdit tree path new)
  | (.error error, tree) => (.error error, w.putTree tree)

/-- Replaces the expression at a path of a tree, which makes a new revision. -/
def replaceAt (w : Workspace) (tree : Tree) (path : Path) (new : Expr) :
    Except PathError Unit × Workspace :=
  w.edit tree path new (Edit.replaceAt path new)

/-- Replaces a child of the expression at a path of a tree without making a new revision. -/
def setChildAt (w : Workspace) (tree : Tree) (path : Path) (index : Int) (new : Expr) :
    Except PathError Unit × Workspace :=
  w.edit tree (path ++ [index]) new (Edit.setChildAt path index new)

/-! ## Inference -/

/-- Does steps of an inference. -/
def infer {α : Type} (w : Workspace) (step : Infer α) : Except Failure α × Workspace :=
  let (result, inference) := step.run w.inference
  (result, { w with inference })

/-- Generalises a type over an environment, with the naming of the last generalisation if `reuse`.
A naming that is used again keeps the names given even when the generalisation fails. -/
def generalize (w : Workspace) (env : Env) (t : Ty) (reuse : Bool) :
    Except Failure Ty × Workspace :=
  let again := if reuse then w.naming else none
  let (result, naming) := Infer.generalizeWith (again.getD w.inference.store) env t
  match result with
  | .ok generalized =>
    let (_, w) := w.infer (Infer.tell (.generalized t generalized))
    (.ok generalized, { w with naming := some naming })
  | .error failure => (.error failure, if again.isSome then { w with naming := some naming } else w)

/-! ## Checking -/

/-- Does steps of a check. -/
def check {α : Type} (w : Workspace) (step : Check α) : Except Fault α × Workspace :=
  let (result, checker) := step.run w.checker
  (result, { w with checker })

/-- Forgets what the checker remembers, if it does so before every tree. -/
def prepared (w : Workspace) : Workspace :=
  if w.autoReset then { w with checker := w.checker.reset } else w

/-- The type of a tree, in the given context or else in the base one. -/
def checkTree (w : Workspace) (tree : Tree) (context : Option Env) : Except Fault Ty × Workspace :=
  w.prepared.check (Check.typeOfRoot w.resolver (context.getD w.base) tree)

/-- The type at a path of a tree. -/
def checkAt (w : Workspace) (tree : Tree) (path : Path) (context : Option Env) :
    Except Fault Ty × Workspace :=
  w.prepared.check (Check.typeAt w.resolver (context.getD w.base) tree path)

/-- Makes the definition of a tree known. -/
def addDefine (w : Workspace) (tree : Tree) : Except Fault Unit × Workspace :=
  w.check (Check.addDefine w.resolver w.base tree)

/-- Makes all definitions among the trees known. -/
def addDefines (w : Workspace) : Except Fault Unit × Workspace :=
  w.check (Check.addDefines w.resolver w.base w.trees)

/-- The type of a definition. -/
def definitionType (w : Workspace) (name : String) : Except Fault (Option Ty) × Workspace :=
  w.check (Check.definitionType w.resolver name)

/-- Computes the types of all definitions. -/
def computeAll (w : Workspace) : Except Fault Unit × Workspace :=
  w.check (Check.computeAll w.resolver)

/-- Forgets everything the checker remembers. -/
def resetChecker (w : Workspace) : Workspace := { w with checker := w.checker.reset }

/-- Forgets the types that the checker found. -/
def clearTypes (w : Workspace) : Workspace := { w with checker := w.checker.clearTypes }

end Workspace

end SchemeTyping
