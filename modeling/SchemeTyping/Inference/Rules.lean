import SchemeTyping.Inference.Generalize
import SchemeTyping.Inference.Unify

/-!
# The rules of inference

`Infer.visit` finds the type of an expression from the types of its parts, solving unknowns on the
way, and records the type found at every place.  It visits each place once, in an order that fixes
the numbers of the unknowns.

A function takes its arguments one at a time: its type is a chain of functions of one argument, and
every argument of a call consumes the outermost one.  A value bound by `let` or `letrec` is
generalised before its name is used.
-/

set_option autoImplicit false

namespace SchemeTyping

/-- Where inference is in a revision of a tree. -/
structure Site where
  tree : Nat
  revision : Nat
  path : Path
  deriving DecidableEq, Repr, Inhabited

namespace Site

/-- The site of a child. -/
def child (s : Site) (index : Nat) : Site := { s with path := s.path.child index }

/-- A mention of the expression at a site. -/
def mention (s : Site) (e : Expr) : Mention := ⟨e, some ⟨s.tree, s.path⟩⟩

/-- The key of a site in a cache. -/
def key (s : Site) : CacheKey := ⟨s.tree, s.revision, s.path⟩

end Site

/-- The site of the root of a tree. -/
def Tree.site (t : Tree) : Site := ⟨t.number, t.revision, []⟩

namespace Infer

open Ty

/-- Records the type found at a site. -/
def record (site : Site) (t : Ty) : Infer Unit :=
  modify fun s ↦ { s with types := s.types.insert site.key t }

/-- The name that an expression binds. -/
def identifier (e : Expr) : Infer String :=
  match e.identifier? with
  | some name => pure name
  | none => throw (.notBinder e)

/-- The type of a bound name: the declared one, or a new unknown. -/
def binderType (binder : Expr) (stem : String) : Infer Ty :=
  match binder.declared? with
  | some t => instantiate t
  | none => newUnknown stem

/-- The type of a value for a bound name: the one found, made equal to the declared one. -/
def valueType (binder : Expr) (found : Ty) (e₁ e₂ : Option Mention) : Infer Ty :=
  match binder.declared? with
  | some t => do unify (← instantiate t) found e₁ e₂
  | none => pure found

/-- The types of the parameters of a function, and the names that they bind. -/
def paramTypes : List Expr → Infer (List Ty × List (String × Ty))
  | [] => return ([], [])
  | p :: ps => do
    let name ← identifier p
    let t ← binderType p name
    let (ts, bindings) ← paramTypes ps
    return (t :: ts, if p.isHole then bindings else (name, t) :: bindings)

/-- The types of the names of a `letrec` before their values are known. -/
def recursiveTypes (bindings : List (Expr × Expr)) (known : Env) : Infer Env :=
  match bindings with
  | [] => return known
  | (name, _) :: rest =>
    if name.isHole then recursiveTypes rest known
    else do
      let id ← identifier name
      let t ← binderType name id
      recursiveTypes rest (known.insert id t)

/-- Generalises every type of an environment over another one. -/
def generalizeAll (env : Env) : List (String × Ty) → Infer (List (String × Ty))
  | [] => return []
  | (name, t) :: rest => do
    let (t, _) ← generalize env t
    return (name, t) :: (← generalizeAll env rest)

/-- A call as it is being typed. -/
structure CallSite where
  site : Site
  call : Mention
  called : Mention
  /-- The type of what is called. -/
  type : Ty
  /-- The stem of the unknowns for results. -/
  stem : String
  argCount : Nat

/-- The stem of the unknowns for the results of a call. -/
def stemOf : Expr → String
  | .var name => name
  | _ => "Anonymous"

/-- What becomes of a call before its arguments are looked at. -/
inductive CallPlan
  /-- The call has this type, and there are no arguments. -/
  | done (type : Ty)
  /-- The call has this type, whatever its arguments. -/
  | ignore (type : Ty)
  /-- Every argument consumes one argument type of this type. -/
  | consume (type : Ty)

/-- Looks at the type of what is called. -/
def plan (c : CallSite) : Infer CallPlan :=
  match c.type with
  | .unknown id =>
    if c.argCount = 0 then do
      let result ← newUnknown c.stem
      let _ ← unify (.unknown id) (procedure result) (some c.called) (some c.call)
      return .done (← applied result)
    else return .consume c.type
  | .variadic min max ps =>
    if (Ty.variadic min max ps).accepts c.argCount then
      let type := chain (spread ps c.argCount) (result ps)
      return if c.argCount = 0 then .done type else .consume type
    else fail (.variadicArguments c.call c.type min max c.argCount)
  | .con tag ps =>
    match tag, ps with
    | "Procedure", [result] =>
      if c.argCount = 0 then return .done result
      else fail (.procedureArguments c.call c.type c.argCount)
    | "Any", _ => return .ignore any
    | "Never", _ => return .ignore never
    | _, _ =>
      if tag ≠ "Function" then fail (.notCallable c.call c.type)
      else if c.argCount = 0 then fail (.missingArguments c.call c.type)
      else return .consume c.type
  | _ =>
    if c.argCount = 0 then fail (.missingArguments c.call c.type) else return .consume c.type

mutual

/-- The type of an expression. -/
def visit (env : Env) (site : Site) (e : Expr) : Infer Ty := do
  let type ←
    match e with
    | .hole => newUnknown "_"
    | .number n => pure (if n.isInteger then integer else number)
    | .bool _ => pure boolean
    | .string _ => pure string
    | .null => pure null
    | .list es => do
      let element ← newUnknown "Element"
      let element ← visitElements env site 0 none element es
      pure (list element)
    | .var name | .binding name _ =>
      match env.get? name with
      | some t => instantiate t
      | none => fail (.unbound (site.mention e) name)
    | .call called args => do
      let calledType ← visit env (site.child 0) called
      let type ← applied calledType
      let c : CallSite :=
        ⟨site, site.mention e, (site.child 0).mention called, type, stemOf called, args.length⟩
      match ← plan c with
      | .done t => pure t
      | .ignore t => do
        visitAll env site 1 args
        pure t
      | .consume t => visitArgs env { c with type := t } 0 t args
    | .define name value => do
      let id ← identifier name
      let declared ← binderType name id
      let env := if name.isHole then env else env.insert id declared
      let found ← visit env (site.child 1) value
      let type ← unify declared found (some ((site.child 0).mention name))
        (some ((site.child 1).mention value))
      let _ ← visit env (site.child 0) name
      pure type
    | .letIn bindings body => do
      let names ← visitLetValues env site 0 bindings
      let env := env.insertAll names
      visitNames env site 0 bindings
      visit env (site.child (2 * bindings.length)) body
    | .letrec bindings body => do
      let recursive ← recursiveTypes bindings ∅
      visitRecursiveValues (env.insertAll recursive.entries) site recursive 0 bindings
      let env := env.insertAll (← generalizeAll env recursive.entries)
      visitNames env site 0 bindings
      visit env (site.child (2 * bindings.length)) body
    | .lambda params body => do
      let (types, names) ← paramTypes params
      let env := env.insertAll names
      visitAll env site 0 params
      let result ← visit env (site.child params.length) body
      pure (if types.isEmpty then procedure result else chain types result)
    | .sequence es => do
      let result ← newUnknown "EmptySequence"
      visitSequence env site 0 result es
    | .branch condition consequent alternative => do
      let _ ← visit env (site.child 0) condition
      let t₁ ← visit env (site.child 1) consequent
      let t₂ ← visit env (site.child 2) alternative
      unify t₁ t₂ (some ((site.child 1).mention consequent))
        (some ((site.child 2).mention alternative))
    | .cond cases => do
      let overall ← newUnknown "Cond"
      visitCases env site (site.mention e) 0 overall cases
  record site type
  return type

/-- Visits a row of children that begins at an index. -/
def visitAll (env : Env) (site : Site) (index : Nat) (es : List Expr) : Infer Unit :=
  match es with
  | [] => return
  | e :: es => do
    let _ ← visit env (site.child index) e
    visitAll env site (index + 1) es

/-- The common type of the elements of a list literal from an index on.  A mismatch is put down to
the first element and the one that differs. -/
def visitElements (env : Env) (site : Site) (index : Nat) (first : Option Mention) (type : Ty)
    (es : List Expr) : Infer Ty :=
  match es with
  | [] => return type
  | e :: es => do
    let found ← visit env (site.child index) e
    let here := (site.child index).mention e
    let type ← unify type found first (some here)
    visitElements env site (index + 1) (some (first.getD here)) type es

/-- The type of the last expression of a sequence from an index on. -/
def visitSequence (env : Env) (site : Site) (index : Nat) (type : Ty) (es : List Expr) :
    Infer Ty :=
  match es with
  | [] => return type
  | e :: es => do
    let type ← visit env (site.child index) e
    visitSequence env site (index + 1) type es

/-- The common type of the values of a `cond` from an index on. -/
def visitCases (env : Env) (site : Site) (whole : Mention) (index : Nat) (type : Ty)
    (cases : List (Expr × Expr)) : Infer Ty :=
  match cases with
  | [] => return type
  | (condition, value) :: cases => do
    let _ ← visit env (site.child index) condition
    let found ← visit env (site.child (index + 1)) value
    let type ← unify type found (some whole) (some ((site.child (index + 1)).mention value))
    visitCases env site whole (index + 2) type cases

/-- The type of a call whose arguments before the one at `index` are done and left `type`. -/
def visitArgs (env : Env) (c : CallSite) (index : Nat) (type : Ty) (args : List Expr) : Infer Ty :=
  match args with
  | [] => return type
  | arg :: args => do
    let current ← applied type
    if current.hasTag "Any" || current.hasTag "Never" then
      let _ ← visit env (c.site.child (index + 1)) arg
      visitAll env c.site (index + 2) args
      return current
    else if current.tag?.isSome && !current.hasTag "Function" then
      fail (.surplusArguments c.call c.type index c.argCount)
    else
      let argType ← visit env (c.site.child (index + 1)) arg
      let next ← newUnknown c.stem
      let _ ← unify type (function [argType, next]) (some c.called)
        (some ((c.site.child (index + 1)).mention arg))
      let next ← applied next
      visitArgs env c (index + 1) next args

/-- The generalised types of the names of a `let` whose children begin at an index. -/
def visitLetValues (env : Env) (site : Site) (index : Nat) (bindings : List (Expr × Expr)) :
    Infer (List (String × Ty)) :=
  match bindings with
  | [] => return []
  | (name, value) :: bindings => do
    let found ← visit env (site.child (index + 1)) value
    let type ← valueType name found (some ((site.child index).mention name))
      (some ((site.child (index + 1)).mention value))
    if name.isHole then visitLetValues env site (index + 2) bindings
    else
      let (generalized, _) ← generalize env type
      let id ← identifier name
      return (id, generalized) :: (← visitLetValues env site (index + 2) bindings)

/-- Visits the values of a `letrec` whose children begin at an index; `recursive` are the types of
its names. -/
def visitRecursiveValues (env : Env) (site : Site) (recursive : Env) (index : Nat)
    (bindings : List (Expr × Expr)) : Infer Unit :=
  match bindings with
  | [] => return
  | (name, value) :: bindings => do
    let found ← visit env (site.child (index + 1)) value
    if !name.isHole then
      let id ← identifier name
      let _ ← unify ((recursive.get? id).getD found) found (some ((site.child index).mention name))
        (some ((site.child (index + 1)).mention value))
    visitRecursiveValues env site recursive (index + 2) bindings

/-- Visits the names of bindings whose children begin at an index. -/
def visitNames (env : Env) (site : Site) (index : Nat) (bindings : List (Expr × Expr)) :
    Infer Unit :=
  match bindings with
  | [] => return
  | (name, _) :: bindings => do
    let _ ← visit env (site.child index) name
    visitNames env site (index + 2) bindings

end

/-- Fails if an unknown is left in a finished type. -/
def ensureSolved (t : Ty) : Infer Unit := if t.isSolved then pure () else throw (.incomplete t)

/-- The generalised type of a whole tree. -/
def inferTree (env : Env) (tree : Tree) : Infer Ty := do
  modify InferenceState.reset
  tell (.inferring tree.root)
  let type ← visit env tree.site tree.root
  let (generalized, _) ← generalize env type
  ensureSolved generalized
  tell (.inferred generalized)
  return generalized

/-- The type of the part of a tree at a path, with the names that it has in the type of the whole
tree. -/
def inferAt (env : Env) (tree : Tree) (path : Path) : Infer Ty := do
  modify InferenceState.reset
  tell (.inferringAt tree.root path)
  let rootType ← visit env tree.site tree.root
  let (_, naming) ← generalize env rootType
  match (← get).types.get? (tree.key path) with
  | none => throw (.invalidPath path)
  | some type =>
    let (generalized, _) ← generalizeNamed naming env type
    ensureSolved generalized
    return generalized

end Infer

end SchemeTyping
