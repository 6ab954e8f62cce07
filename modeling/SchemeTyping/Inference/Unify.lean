import SchemeTyping.Inference.Basic

/-!
# Unification

`unify` makes two types equal by solving unknowns, or fails.  `any` and the gradual type fit
everything and take the other side's place.  An integer and a number unify to an integer, and an
unknown that stood for the number is solved anew.

The expressions that the types belong to are only used for diagnostics.
-/

set_option autoImplicit false

namespace SchemeTyping.Infer

open Ty

/-- Whether the type fits every other one. -/
def fitsAll (t : Ty) : Bool := t.hasTag "Any" || t.hasTag "?"

/-- Whether one type is that of integers and the other that of numbers. -/
def isPromotion (s t : Ty) : Bool :=
  (s = integer && t = number) || (s = number && t = integer)

/-- Whether two constructors agree in kind, tag and number of parameters. -/
def sameShape : Ty → Ty → Bool
  | .con tag ps, .con tag' qs => tag = tag' && ps.length = qs.length
  | .variadic _ _ ps, .variadic _ _ qs => ps.length = qs.length
  | _, _ => false

/-- A constructor with other parameters. -/
def withParams (params : List Ty) : Ty → Ty
  | .con tag _ => .con tag params
  | .variadic min max _ => .variadic min max params
  | t => t

/-- Gives a new solution to the class of an unknown. -/
def solveAnew (side unified : Ty) : Infer Unit :=
  match side with
  | .unknown id => onStore (Forest.setValue id unified)
  | _ => pure ()

/-- Lets both sides know the type that they have been unified to, and returns it. -/
def conclude (t₁ t₂ unified : Ty) : Infer Ty := do
  solveAnew t₁ unified
  solveAnew t₂ unified
  applied unified

/-- Binds an unknown that has no solution to a type. -/
def bind (e₁ e₂ : Option Mention) (id : String) (t : Ty) : Infer Ty := do
  let solution ← applied t
  if solution.unknowns.contains id then fail (.occurs e₁ e₂ (.unknown id) solution)
  match t with
  | .unknown id' => onStore (Forest.union Store.preferSolved id id')
  | _ => onStore (Forest.setValue id t)
  tell (.unified (.unknown id) solution)
  return solution

/-- Makes two types equal, going at most `depth` parameters deep. -/
def unifyWithin (e₁ e₂ : Option Mention) : (depth : Nat) → Ty → Ty → Infer Ty
  | 0, _, _ => throw .tooDeep
  | depth + 1, t₁, t₂ => do
    let a₁ ← applied t₁
    let a₂ ← applied t₂
    if a₁ = a₂ then return a₁
    let store := (← get).store
    match store.resolve t₁, store.resolve t₂ with
    | .unknown id, r₂ => bind e₁ e₂ id r₂
    | r₁, .unknown id => bind e₁ e₂ id r₁
    | r₁, r₂ =>
      if r₁.tag?.isNone then throw (.uninstantiated r₁)
      if r₂.tag?.isNone then throw (.uninstantiated r₂)
      if fitsAll r₁ then return ← applied r₂
      if fitsAll r₂ then return ← applied r₁
      let unified ←
        if isPromotion r₁ r₂ then pure integer
        else if sameShape r₁ r₂ then do
          let params ← (r₁.params.zip r₂.params).mapM fun p ↦ unifyWithin e₁ e₂ depth p.1 p.2
          pure (withParams params r₁)
        else fail (.mismatch e₁ e₂ a₁ a₂)
      conclude t₁ t₂ unified

/-- How deep unification of two types may go, given with their solutions put in.  Between types
without `any` and the gradual type it never goes deeper: every unknown that gets solved on the way
at most doubles their depth.  Where these two occur, solutions can change while they are in use,
and unification that goes deeper is taken to have no end. -/
def unifyDepth (store : Store) (a₁ a₂ : Ty) : Nat :=
  Nat.pow 2 (store.size + 1) * (a₁.size + a₂.size)

/-- Makes two types equal and returns the common type.  `e₁` and `e₂` are the expressions that have
the types. -/
def unify (t₁ t₂ : Ty) (e₁ e₂ : Option Mention) : Infer Ty := do
  let a₁ ← applied t₁
  let a₂ ← applied t₂
  unifyWithin e₁ e₂ (unifyDepth (← get).store a₁ a₂) t₁ t₂

end SchemeTyping.Infer
