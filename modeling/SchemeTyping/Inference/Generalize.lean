import SchemeTyping.Inference.Basic
import SchemeTyping.Ty.Names

/-!
# Generalisation and instantiation

Generalising a type replaces the unknowns that are left in it by type variables, except for those
that occur in the environment.  The names are recorded in a copy of the store, the *naming*: a later
generalisation with the same naming uses the same names.

Instantiating a type replaces its variables by new unknowns, one for each name, drops quantifiers
and turns functions into chains of functions of one argument.
-/

set_option autoImplicit false

namespace SchemeTyping.Infer

/-- The state of a generalisation: the naming so far and the names to go on with. -/
structure NamingState where
  naming : Store
  names : Names
  deriving Inhabited

/-- Steps of a generalisation, with failures that keep the state. -/
abbrev Naming := ExceptT Failure (StateM NamingState)

/-- The type variable of an unknown, a new one if it has none yet. -/
def nameOf (id : String) : Naming Ty := do
  let s ← get
  match s.naming.value? id with
  | some (.var name) => return .var name
  | _ =>
    let (name, names) := s.names.fresh
    let (result, naming) := (Forest.setValue id (.var name)).run s.naming
    set (NamingState.mk naming names)
    match result with
    | .ok () => return .var name
    | .error id => throw (.missingUnknown id)

mutual

/-- Replaces the unknowns of a type by type variables, but not the `fixed` ones. -/
def nameUnknowns (fixed : List String) : Ty → Naming Ty
  | .var name => return .var name
  | .unknown id => if fixed.contains id then return .unknown id else nameOf id
  | .con tag ps => return .con tag (← nameUnknownsList fixed ps)
  | .variadic min max ps => return .variadic min max (← nameUnknownsList fixed ps)
  | .all bound body => return .all bound (← nameUnknowns fixed body)

/-- Replaces the unknowns of a row of types by type variables. -/
def nameUnknownsList (fixed : List String) : List Ty → Naming (List Ty)
  | [] => return []
  | t :: ts => do
    let t ← nameUnknowns fixed t
    return t :: (← nameUnknownsList fixed ts)

end

/-- Generalises a type with a given naming; the naming comes back even when that fails. -/
def generalizeWith (naming : Store) (env : Env) (t : Ty) : Except Failure Ty × Store :=
  if env.values.all naming.settles && naming.settles t then
    let envTypes : Env := env.mapValues naming.apply
    let fixed := envTypes.values.flatMap Ty.unknowns
    let avoid := envTypes.freeVars ++ t.freeVars ++ naming.values.flatMap Ty.freeVars
    let (result, s) := (nameUnknowns fixed (naming.apply t)).run ⟨naming, .avoiding avoid⟩
    (result, s.naming)
  else (.error .unbounded, naming)

/-- Generalises a type with a given naming and notes it. -/
def generalizeNamed (naming : Store) (env : Env) (t : Ty) : Infer (Ty × Store) := do
  let (result, naming) := generalizeWith naming env t
  match result with
  | .error failure => throw failure
  | .ok generalized =>
    tell (.generalized t generalized)
    return (generalized, naming)

/-- Generalises a type with a new naming. -/
def generalize (env : Env) (t : Ty) : Infer (Ty × Store) := do
  generalizeNamed (← get).store env t

/-! ## Instantiation -/

mutual

/-- Replaces variables by unknowns; `instances` are those of the names met so far. -/
def instantiateWith (instances : Env) : Ty → Infer (Ty × Env)
  | .unknown id => return (.unknown id, instances)
  | .var name =>
    match instances.get? name with
    | some t => return (t, instances)
    | none => do
      let t ← newUnknown name
      return (t, instances.insert name t)
  | .all _ body => instantiateWith instances body
  | .con tag ps => do
    let (ps, instances) ← instantiateList instances ps
    return ((Ty.con tag ps).curried, instances)
  | .variadic min max ps => do
    let (ps, instances) ← instantiateList instances ps
    return (.variadic min max ps, instances)

/-- Replaces the variables of a row of types by unknowns. -/
def instantiateList (instances : Env) : List Ty → Infer (List Ty × Env)
  | [] => return ([], instances)
  | t :: ts => do
    let (t, instances) ← instantiateWith instances t
    let (ts, instances) ← instantiateList instances ts
    return (t :: ts, instances)

end

/-- Replaces the variables of a type by new unknowns. -/
def instantiate (t : Ty) : Infer Ty := return (← instantiateWith ∅ t).1

end SchemeTyping.Infer
