import SchemeTyping.Checker.Basic
import SchemeTyping.Constraint.Solve

/-!
# The rules of the checker

`Check.synth` finds the type of an expression in a context.  It trusts annotations, and wherever a
part fails it records a diagnostic and goes on with the gradual type, which is also the type of
holes and of names without annotation.

A type that is expected of an expression only matters for functions: it gives types to parameters
that have none.  The type found at a place is cached, and a cached type is not computed again.

How the type of a definition is found is a parameter of the rules, because it uses them in turn.
-/

set_option autoImplicit false

namespace SchemeTyping

/-- What the rules need to know of the world outside the expression. -/
structure Surroundings where
  /-- The revision of a tree. -/
  revision : Nat → Nat
  /-- The type of a definition, if there is one of that name. -/
  typeOf : String → Check (Option Ty)

/-- Where the checker is: the place that types and diagnostics are recorded at, and whether the
expression still stands there. -/
structure Spot where
  place : Place
  attached : Bool
  deriving DecidableEq, Repr, Inhabited

namespace Spot

/-- The spot of a child. -/
def child (s : Spot) (index : Nat) : Spot := { s with place := s.place.child index }

/-- A mention of the expression at a spot. -/
def mention (s : Spot) (e : Expr) : Mention := ⟨e, if s.attached then some s.place else none⟩

end Spot

namespace Check

open Ty

/-- The key of a spot in the cache. -/
def cacheKey (w : Surroundings) (spot : Spot) : CacheKey :=
  ⟨spot.place.tree, w.revision spot.place.tree, spot.place.path⟩

/-! ## Functions -/

/-- What a type that is expected of a function with `count` parameters says of them and of the
result. -/
def expectation (count : Nat) : Ty → Option (List Ty × Ty)
  | .con "Function" ps =>
    if (arguments ps).length = count then some (arguments ps, result ps) else none
  | _ => none

/-- The types of parameters: the declared ones, or else the expected ones. -/
def paramTypes : List Expr → List Ty → List Ty
  | p :: ps, t :: ts => p.declared?.getD t :: paramTypes ps ts
  | _, _ => []

theorem length_expected (expected : Option Ty) (n : Nat) :
    ((expected.bind (expectation n)).elim (List.replicate n untyped) (·.1)).length = n := by
  cases h : expected.bind (expectation n) with
  | none => simp
  | some wanted =>
    obtain ⟨t, -, ht⟩ := Option.bind_eq_some_iff.1 h
    unfold expectation at ht
    split at ht
    · split at ht
      · rename_i hlen
        cases ht
        exact hlen
      · cases ht
    · cases ht

theorem length_paramTypes {params : List Expr} {ts : List Ty} (h : ts.length = params.length) :
    (paramTypes params ts).length = params.length := by
  induction params generalizing ts with
  | nil => rfl
  | cons p params ih =>
    obtain ⟨t, ts, rfl⟩ := List.exists_cons_of_length_eq_add_one h
    rw [paramTypes, List.length_cons, List.length_cons, ih (Nat.succ.inj h)]

/-- The types of names inside a function. -/
def bindParams (types : Env) : List Expr → List Ty → Check Env
  | p :: ps, t :: ts =>
    if p.isHole then bindParams types ps ts
    else do bindParams (types.insert (← identifier p) t) ps ts
  | _, _ => return types

/-- The types of names for the values of a `letrec`: its names have their declared types or the
gradual one. -/
def bindRecursive (types : Env) : List (Expr × Expr) → Check Env
  | [] => return types
  | (name, _) :: rest =>
    if name.isHole then bindRecursive types rest
    else do
      bindRecursive (types.insert (← identifier name) (name.declared?.getD untyped)) rest

/-- A context that the values of a `letrec` share. -/
def newGroup (types : Env) : Check Context := do
  let group := (← get).groups
  modify fun s ↦ { s with groups := group + 1 }
  return ⟨types, some group⟩

/-- Gives a type to a name of a `letrec` whose values are being typed. -/
def settle (context : Context) (name : String) (type : Ty) : Check Context := do
  modify (·.settle context.group name type)
  return context.insert name type

/-! ## Calls -/

/-- Takes quantifiers off a type: the quantified names and the body. -/
def unquantified : Ty → List String × Ty
  | .all bound body => (bound ++ (unquantified body).1, (unquantified body).2)
  | t => ([], t)

/-- A procedure as a function without arguments. -/
def asFunction : Ty → Ty
  | .con "Procedure" ps => function ps
  | t => t

/-- What becomes of a call before its arguments are looked at. -/
inductive CallPlan
  /-- The call has this type, whatever its arguments. -/
  | ignore (type : Ty)
  /-- The number of arguments is wrong. -/
  | refuse (result : Ty) (diagnostic : Diagnostic)
  | fail (diagnostic : Diagnostic)
  /-- The arguments have to fit the parameters. -/
  | solve (params : List Ty) (result : Ty)

/-- Looks at the type of what is called, quantifiers taken off. -/
def plan (call : Mention) (argCount : Nat) (type : Ty) : CallPlan :=
  match type with
  | .variadic min max ps =>
    if (Ty.variadic min max ps).accepts argCount then .solve (spread ps argCount) (result ps)
    else .refuse (result ps) (.variadicArityMismatch call type min max argCount)
  | .con tag ps =>
    match tag with
    | "?" => .ignore untyped
    | "Any" => .ignore type
    | "Never" => .ignore type
    | "Function" =>
      if argCount = (arguments ps).length then .solve (arguments ps) (result ps)
      else .refuse (result ps) (.arityMismatch call type (arguments ps).length argCount)
    | _ => .fail (.notCallable call type)
  | _ => .fail (.notCallable call type)

/-- A mention of an argument of a call. -/
def argument (spot : Spot) (args : List Expr) (index : Nat) : Mention :=
  (spot.child (index + 1)).mention (args.getD index .hole)

/-- Records an error unless a type found fits the type wanted. -/
def demand (spot : Spot) (e : Expr) (found wanted : Ty) : Check Unit :=
  if found.isSubtype wanted then pure ()
  else report spot.place (.notAssignableTo (spot.mention e) wanted)

/-- Lets a definition wait until its type is asked for. -/
def postpone (context : Context) (spot : Spot) (define name : Expr) : Check Unit := do
  let id ← identifier name
  let pending : Pending := ⟨spot.mention define, name.declared?, context, spot.place⟩
  modify fun s ↦ { s with definitions := s.definitions.insert id pending }

/-- The type of a name: the context hides definitions. -/
def typeOfName (w : Surroundings) (context : Context) (name : String) : Check (Option Ty) :=
  match context.types.get? name with
  | some t => return some t
  | none => w.typeOf name

mutual

/-- The type of an expression of which a type may be expected. -/
def synth (w : Surroundings) (context : Context) (spot : Spot) (expected : Option Ty) (e : Expr) :
    Check Ty := do
  match (← get).cache.get? (cacheKey w spot) with
  | some t => return t
  | none =>
    let type ← reporting spot.place <|
      match e with
      | .bool _ => pure boolean
      | .number n => pure (if n.isInteger then integer else number)
      | .string _ => pure string
      | .null => pure null
      | .hole => pure untyped
      | .list es => do
        let element ← joinAll w context spot 0 never es
        pure (list element)
      | .var name | .binding name _ => do
        match ← typeOfName w context name with
        | some t => pure t
        | none => throw (.diagnosed (.unboundVariable (spot.mention e)))
      | .define name value =>
        if name.isHole then do
          let _ ← synth w context (spot.child 1) none value
          let _ ← synth w context (spot.child 0) none name
          pure empty
        else do
          postpone context spot e name
          pure empty
      | .lambda params body => do
        let wanted := expected.bind (expectation params.length)
        let types := paramTypes params
          (wanted.elim (List.replicate params.length untyped) (·.1))
        let inner := Context.fixed (← bindParams context.types params types)
        synthAll w inner spot 0 params
        let bodyType ← synth w inner (spot.child params.length) (wanted.map (·.2)) body
        pure (function (types ++ [bodyType]))
      | .call called args => do
        let calledType ← synth w context (spot.child 0) none called
        let (vars, type) := unquantified calledType
        match plan (spot.mention e) args.length (asFunction type) with
        | .ignore t => do
          synthAll w context spot 1 args
          pure t
        | .refuse t d => do
          report spot.place d
          pure t
        | .fail d => throw (.diagnosed d)
        | .solve params result => do
          let argTypes ← synthArgs w context spot vars 1 args params
          match callResult vars argTypes params result with
          | .result t => pure t
          | .badArgument i t => throw (.diagnosed (.notAssignableTo (argument spot args i) t))
          | .noAssignment => throw (.diagnosed (.notAssignable (spot.mention e)))
      | .letIn bindings body => do
        let inner := Context.fixed (← synthLetValues w context spot context.types 0 bindings)
        synthNames w inner spot 0 bindings
        synth w inner (spot.child (2 * bindings.length)) none body
      | .letrec bindings body => do
        let group ← newGroup (← bindRecursive context.types bindings)
        let inner ← synthRecursiveValues w spot group 0 bindings
        synthNames w inner spot 0 bindings
        synth w inner (spot.child (2 * bindings.length)) none body
      | .sequence es => synthSequence w context spot 0 untyped es
      | .branch condition consequent alternative => do
        let _ ← synth w context (spot.child 0) none condition
        let t₁ ← synth w context (spot.child 1) none consequent
        let t₂ ← synth w context (spot.child 2) none alternative
        pure (t₁.join t₂)
      | .cond cases => joinCases w context spot 0 never cases
    modify fun s ↦ { s with cache := s.cache.insert (cacheKey w spot) type }
    return type

/-- Types a row of children that begins at an index. -/
def synthAll (w : Surroundings) (context : Context) (spot : Spot) (index : Nat) (es : List Expr) :
    Check Unit :=
  match es with
  | [] => return
  | e :: es => do
    let _ ← synth w context (spot.child index) none e
    synthAll w context spot (index + 1) es

/-- The join of the types of a row of children that begins at an index. -/
def joinAll (w : Surroundings) (context : Context) (spot : Spot) (index : Nat) (type : Ty)
    (es : List Expr) : Check Ty :=
  match es with
  | [] => return type
  | e :: es => do
    let found ← synth w context (spot.child index) none e
    joinAll w context spot (index + 1) (type.join found) es

/-- The join of the types of the values of a `cond` whose children begin at an index. -/
def joinCases (w : Surroundings) (context : Context) (spot : Spot) (index : Nat) (type : Ty)
    (cases : List (Expr × Expr)) : Check Ty :=
  match cases with
  | [] => return type
  | (condition, value) :: cases => do
    let _ ← synth w context (spot.child index) none condition
    let found ← synth w context (spot.child (index + 1)) none value
    joinCases w context spot (index + 2) (type.join found) cases

/-- The type of the last of a row of children that begins at an index. -/
def synthSequence (w : Surroundings) (context : Context) (spot : Spot) (index : Nat) (type : Ty)
    (es : List Expr) : Check Ty :=
  match es with
  | [] => return type
  | e :: es => do
    let type ← synth w context (spot.child index) none e
    synthSequence w context spot (index + 1) type es

/-- The types of the arguments of a call from an index on.  A parameter type that mentions a
quantified variable is not expected of its argument. -/
def synthArgs (w : Surroundings) (context : Context) (spot : Spot) (vars : List String)
    (index : Nat) (args : List Expr) (params : List Ty) : Check (List Ty) :=
  match args, params with
  | arg :: args, param :: params => do
    let expected := if param.freeVars.any vars.contains then none else some param
    let type ← synth w context (spot.child index) expected arg
    return type :: (← synthArgs w context spot vars (index + 1) args params)
  | _, _ => return []

/-- Types the values of a `let`, whose children begin at an index, in the context outside, and binds
its names in the context inside. -/
def synthLetValues (w : Surroundings) (context : Context) (spot : Spot) (inner : Env) (index : Nat)
    (bindings : List (Expr × Expr)) : Check Env :=
  match bindings with
  | [] => return inner
  | (name, value) :: bindings => do
    let spot' := spot.child (index + 1)
    let found ← synth w context spot' name.declared? value
    if let some declared := name.declared? then demand spot' value found declared
    let inner ←
      if name.isHole then pure inner
      else do pure (inner.insert (← identifier name) (name.declared?.getD found))
    synthLetValues w context spot inner (index + 2) bindings

/-- Types the values of a `letrec` whose children begin at an index.  A name without annotation has
the type of its value from there on. -/
def synthRecursiveValues (w : Surroundings) (spot : Spot) (group : Context) (index : Nat)
    (bindings : List (Expr × Expr)) : Check Context :=
  match bindings with
  | [] => return group
  | (name, value) :: bindings => do
    let spot' := spot.child (index + 1)
    let found ← synth w group spot' name.declared? value
    let group ←
      match name.declared? with
      | some declared => do
        demand spot' value found declared
        pure group
      | none => if name.isHole then pure group else do settle group (← identifier name) found
    synthRecursiveValues w spot group (index + 2) bindings

/-- Types the names of bindings whose children begin at an index. -/
def synthNames (w : Surroundings) (context : Context) (spot : Spot) (index : Nat)
    (bindings : List (Expr × Expr)) : Check Unit :=
  match bindings with
  | [] => return
  | (name, _) :: bindings => do
    let _ ← synth w context (spot.child index) none name
    synthNames w context spot (index + 2) bindings

end

end Check

end SchemeTyping
