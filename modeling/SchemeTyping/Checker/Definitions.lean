import SchemeTyping.Checker.Rules

/-!
# Definitions and whole trees

The type of a definition is computed when it is first asked for, which may ask for the types of
other definitions.  A definition that needs its own type gets the gradual one, with a warning.

Every definition that is being computed has another name than those around it, so computations are
nested no deeper than there are definitions: in the expression at hand, among those that wait, and
inside the latter.
-/

set_option autoImplicit false

namespace SchemeTyping

/-- How a checker looks at the world outside an expression. -/
structure Resolver where
  /-- The revision of a tree. -/
  revision : Nat → Nat
  /-- The type of a definition, if there is one of that name.  Computations are nested at most
  `depth` deep. -/
  typeOf (depth : Nat) (name : String) : Check (Option Ty)

namespace Check

/-- The type of a waiting definition. -/
def compute (w : Surroundings) (d : Pending) : Check Ty := do
  let spot : Spot := ⟨d.place, d.node.place.isSome⟩
  match d.node.expr with
  | .define name value =>
    let found ← synth w d.context (spot.child 1) d.declared value
    if let some declared := d.declared then demand (spot.child 1) value found declared
    let type := d.declared.getD found
    let context ←
      if name.isHole then pure d.context
      else do pure (.fixed (d.context.types.insert (← identifier name) type))
    let _ ← synth w context (spot.child 0) none name
    return type
  | _ => return Ty.untyped

/-- Computes a type under a name.  The name is marked as long as that takes, even if it fails. -/
def marked (name : String) (step : Check Ty) : Check Ty := do
  modify fun s ↦ { s with computing := name :: s.computing }
  let unmark : Check Unit := modify fun s ↦ { s with computing := s.computing.erase name }
  let type ← tryCatch step fun fault ↦ do
    unmark
    throw fault
  unmark
  modify fun s ↦ { s with computed := s.computed.insert name type }
  return type

/-- The type of a definition: the known one, the gradual one while it is being computed, or else the
result of a step for the waiting definition. -/
def fetch (name : String) (step : Pending → Check Ty) : Check (Option Ty) := do
  let s ← get
  match s.computed.get? name with
  | some t => return some t
  | none =>
    if s.computing.contains name then
      tell (.circular name)
      return some Ty.untyped
    else
      match s.definitions.get? name with
      | none => return none
      | some d => some <$> step d

/-- The type of a definition, computations nested at most `depth` deep. -/
def typeOfDefinition (revision : Nat → Nat) : (depth : Nat) → String → Check (Option Ty)
  | 0, name => fetch name fun _ ↦ return Ty.untyped
  | depth + 1, name =>
    fetch name fun d ↦ marked name (compute ⟨revision, typeOfDefinition revision depth⟩ d)

/-- How deep computations can be nested: the number of definitions that wait, with those inside
them. -/
def nesting (s : CheckerState) : Nat :=
  (s.definitions.values.map fun d ↦ d.node.expr.defineCount + 1).foldl (· + ·) 0

end Check

/-- Computes the types of definitions when they are first asked for. -/
def Resolver.onDemand (revision : Nat → Nat) : Resolver :=
  ⟨revision, Check.typeOfDefinition revision⟩

namespace Check

/-- The surroundings of an expression. -/
def surroundings (r : Resolver) (e : Expr) : Check Surroundings := do
  return ⟨r.revision, r.typeOf (nesting (← get) + e.defineCount)⟩

/-- The type of a definition. -/
def definitionType (r : Resolver) (name : String) : Check (Option Ty) := do
  r.typeOf (nesting (← get)) name

/-- Computes the types of definitions. -/
def computeNames (r : Resolver) : List String → Check Unit
  | [] => return
  | name :: names => do
    let _ ← definitionType r name
    computeNames r names

/-- Computes the types of all definitions. -/
def computeAll (r : Resolver) : Check Unit := do
  computeNames r (← get).definitions.keys

/-- The type of the root of a tree. -/
def typeOfRoot (r : Resolver) (context : Env) (tree : Tree) : Check Ty := do
  synth (← surroundings r tree.root) (.fixed context) ⟨tree.rootPlace, true⟩ none tree.root

/-- Makes a definition known.  A second definition of a name is an error. -/
def addDefine (r : Resolver) (base : Env) (tree : Tree) : Check Unit := do
  match tree.root with
  | .define name _ =>
    let id ← identifier name
    if !name.isHole && (← get).definitions.contains id then
      report tree.rootPlace (.duplicateDefinition id)
    let _ ← typeOfRoot r base tree
  | root => throw (.notDefinition root)

/-- Makes known those of the trees that are definitions. -/
def addDefines (r : Resolver) (base : Env) : List Tree → Check Unit
  | [] => return
  | tree :: trees => do
    if tree.root.isDefine then addDefine r base tree
    addDefines r base trees

/-- The type at a path of a tree.  The types of all definitions are computed too, whether or not
something refers to them.  A path without a type has the gradual one, with a warning. -/
def typeAt (r : Resolver) (context : Env) (tree : Tree) (path : Path) : Check Ty := do
  let _ ← typeOfRoot r context tree
  computeAll r
  match (← get).cache.get? (tree.key path) with
  | some t => return t
  | none =>
    tell (.noType path)
    return Ty.untyped

end Check

end SchemeTyping
