import SchemeTyping.Constraint.Generate
import SchemeTyping.Ty.Subst

/-!
# Solving constraints

`ConstraintSet.minimal` chooses a type for every constrained variable so that a goal type becomes as
small as possible: a variable that the goal uses contravariantly takes its upper bound, any other
one its lower bound.

`callResult` is the type of a call of a polymorphic function.  It generates constraints for every
argument, meets them, solves them for the result type, and removes the quantified variables that are
left over.
-/

set_option autoImplicit false

namespace SchemeTyping

/-- The type that a constraint gives to a variable that the goal uses in the given way. -/
def Constraint.choose (usage : Usage) : Constraint → Ty
  | .equal t => t
  | .untyped => Ty.untyped
  | .between lower upper => if usage = .contravariant then upper else lower

namespace ConstraintSet

/-- The set in which the variables of a row that have no constraint get the empty one. -/
def completed (s : ConstraintSet) (names : List String) : ConstraintSet :=
  (sortedNames names).foldl (fun s name ↦ if s.contains name then s else s.insert name .top) s

/-- Types for the constrained variables and for those of the goal that keep the goal small; nothing
when a constraint cannot be satisfied. -/
def minimal (s : ConstraintSet) (goal : Ty) : Option Subst :=
  if s.isSatisfiable then
    some ⟨(s.completed goal.freeVars).entries.map fun e ↦ (e.1, e.2.choose (goal.usage e.1))⟩
  else none

/-- The constraints of every argument type against its parameter type, or the index of the first
argument that does not fit together with the type it should have. -/
def ofArguments (vars : List String) : Nat → List (Ty × Ty) → Except (Nat × Ty) (List ConstraintSet)
  | _, [] => .ok []
  | i, (arg, param) :: rest =>
    match generate vars [] arg param with
    | none => .error (i, param)
    | some set => do return set :: (← ofArguments vars (i + 1) rest)

end ConstraintSet

/-- How a call comes out. -/
inductive CallOutcome
  | result (type : Ty)
  /-- The argument at an index has not the type of its parameter. -/
  | badArgument (index : Nat) (expected : Ty)
  /-- No types for the quantified variables make the call fit. -/
  | noAssignment
  deriving DecidableEq, Repr, Inhabited

/-- The type of a call of a function whose type quantifies `vars`, from the types of the arguments
and of the parameters. -/
def callResult (vars : List String) (args params : List Ty) (result : Ty) : CallOutcome :=
  match ConstraintSet.ofArguments vars 0 (args.zip params) with
  | .error (i, param) => .badArgument i param
  | .ok sets =>
    match (ConstraintSet.meetAll sets).bind (·.minimal result) with
    | none => .noAssignment
    | some σ => .result ((result.subst (σ.filterKeys vars.contains)).eliminateUp vars)

end SchemeTyping
