import SchemeTyping.OrdMap
import SchemeTyping.Ty.Bounds

/-!
# Constraints on a type variable

A constraint says that a variable is a given type, that it lies between two types, or that it has
met the gradual type.  `Constraint.meet` combines two constraints on one variable and fails when
nothing satisfies both; `ConstraintSet.meet` does so for every variable of two sets, a variable
without a constraint lying between `never` and `any`.
-/

set_option autoImplicit false

namespace SchemeTyping

/-- What is known of a type variable. -/
inductive Constraint
  | equal (type : Ty)
  | between (lower upper : Ty)
  | untyped
  deriving DecidableEq, Repr, Inhabited

namespace Constraint

/-- The constraint that says nothing. -/
def top : Constraint := .between Ty.never Ty.any

/-- Whether some type satisfies the constraint. -/
def isSatisfiable : Constraint → Bool
  | .between lower upper => lower.isSubtype upper
  | _ => true

/-- The constraint itself if some type satisfies it. -/
def satisfiable? (c : Constraint) : Option Constraint := if c.isSatisfiable then some c else none

/-- Both constraints at once. -/
def meet : Constraint → Constraint → Option Constraint
  | .untyped, _ => some .untyped
  | _, .untyped => some .untyped
  | .equal s, .equal t => if s = t then some (.equal s) else none
  | .between lower upper, .equal t | .equal t, .between lower upper =>
    if lower.isSubtype t && t.isSubtype upper then some (.equal t) else none
  | .between lower upper, .between lower' upper' =>
    satisfiable? (.between (lower'.join lower) (upper'.meet upper))

/-- All constraints at once. -/
def meetAll (cs : List Constraint) : Option Constraint :=
  cs.foldl (fun acc c ↦ acc.bind (meet · c)) (some top)

end Constraint

/-- Constraints on several variables. -/
abbrev ConstraintSet := OrdMap String Constraint

namespace ConstraintSet

/-- The constraint on a variable. -/
def on (s : ConstraintSet) (name : String) : Constraint := (s.get? name).getD .top

/-- Whether every single constraint is satisfiable. -/
def isSatisfiable (s : ConstraintSet) : Bool := s.values.all Constraint.isSatisfiable

/-- The set that says of the given variables that they are untyped. -/
def untyped (names : List String) : ConstraintSet :=
  .ofList ((sortedNames names).map (·, .untyped))

/-- The variables of either set. -/
def names (s t : ConstraintSet) : List String :=
  s.keys ++ t.keys.filter fun name ↦ !s.contains name

/-- Both sets at once. -/
def meet (s t : ConstraintSet) : Option ConstraintSet :=
  ((names s t).mapM fun name ↦ ((on s name).meet (on t name)).map (name, ·)).map OrdMap.mk

/-- All sets at once. -/
def meetAll (ss : List ConstraintSet) : Option ConstraintSet :=
  ss.foldl (fun acc s ↦ acc.bind (meet · s)) (some ∅)

end ConstraintSet

end SchemeTyping
