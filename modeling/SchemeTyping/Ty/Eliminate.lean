import SchemeTyping.Ty.Variance

/-!
# Types without given variables

`eliminate` removes variables from a type by going to a supertype or to a subtype: a variable
becomes `any` or `never`, the direction turning around at contravariant parameters.  An invariant
parameter that mentions one of the variables becomes `any` as a whole, which is in general neither
above nor below.
-/

set_option autoImplicit false

namespace SchemeTyping.Ty

/-- Removes variables from a parameter that allows neither direction. -/
def eliminateFixed (vars : List String) (t : Ty) : Ty :=
  if t.freeVars.any vars.contains then any else t

mutual

/-- Removes variables, towards a supertype when `up` and towards a subtype otherwise. -/
def eliminate (vars : List String) (up : Bool) : Ty → Ty
  | .var name => if vars.contains name then (if up then any else never) else .var name
  | .unknown id => .unknown id
  | .all bound body =>
    .all bound (body.eliminate (vars.filter fun name ↦ !bound.contains name) up)
  | .con tag ps => .con tag (eliminateList vars up (Variance.ofTag tag ps.length) ps)
  | .variadic min max ps =>
    .variadic min max (eliminateList vars up (List.replicate ps.length .invariant) ps)

/-- Removes variables from parameters as their variances say. -/
def eliminateList (vars : List String) (up : Bool) : List Variance → List Ty → List Ty
  | _, [] => []
  | [], _ :: _ => []
  | v :: vs, t :: ts =>
    (match v with
      | .covariant => t.eliminate vars up
      | .contravariant => t.eliminate vars (!up)
      | .invariant => t.eliminateFixed vars)
    :: eliminateList vars up vs ts

end

/-- A supertype that mentions none of the variables. -/
def eliminateUp (vars : List String) (t : Ty) : Ty := t.eliminate vars true

/-- A subtype that mentions none of the variables. -/
def eliminateDown (vars : List String) (t : Ty) : Ty := t.eliminate vars false

end SchemeTyping.Ty
