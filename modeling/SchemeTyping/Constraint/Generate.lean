import SchemeTyping.Constraint.Basic
import SchemeTyping.Ty.Eliminate

/-!
# Constraints that make a type a subtype of another

`ConstraintSet.generate vars scope sub sup` looks for constraints on the variables `vars` under
which `sub` is a subtype of `sup`, and gives up when there are none.  The variables of `scope` are
bound by a quantifier around the two types and are eliminated from the constraints.  Where the
gradual type stands on one side, every variable of the other side is marked untyped.
-/

set_option autoImplicit false

namespace SchemeTyping.ConstraintSet

/-- The name of a type that is one of the variables. -/
def varAmong? (vars : List String) : Ty → Option String
  | .var name => if vars.contains name then some name else none
  | _ => none

/-- The set with one constraint. -/
def single (name : String) (c : Constraint) : ConstraintSet := ⟨[(name, c)]⟩

open Ty

mutual

/-- Constraints under which the first type is a subtype of the second. -/
def generate (vars scope : List String) (sub sup : Ty) : Option ConstraintSet :=
  if sub.isUntyped || sup.isUntyped then
    some (untyped (if sub.isUntyped then sup else sub).freeVars)
  else if sub.isSubtype sup then some ∅
  else
    match varAmong? vars sub, varAmong? vars sup with
    | some name, _ => some (single name (.between never (sup.eliminateDown scope)))
    | none, some name => some (single name (.between (sub.eliminateUp scope) any))
    | none, none =>
      match sub, sup with
      | .all bound body, .all bound' body' =>
        if bound = bound' then generate vars (scope ++ bound) body body' else none
      | .variadic min max ps, .con tag qs =>
        if tag = "Function" then
          if h : ps ≠ [] ∧ qs ≠ [] then
            if !(arguments ps).isEmpty
                && (Ty.variadic min max ps).accepts (arguments qs).length then do
              let sets ← generateSpread vars scope (arguments ps) (arguments qs)
              let last ← generate vars scope (ps.getLast h.1) (qs.getLast h.2)
              meetAll (sets ++ [last])
            else none
          else none
        else if tag = "Function*" && ps.length = qs.length then do
          meetAll (← generateParams vars scope (List.replicate ps.length .invariant) ps qs)
        else none
      | .con tag ps, .con tag' qs =>
        if tag = tag' && ps.length = qs.length then do
          meetAll (← generateParams vars scope (Variance.ofTag tag ps.length) ps qs)
        else none
      | _, _ => none
termination_by sizeOf sub + sizeOf sup
decreasing_by
  · simp; omega
  · have := sizeOf_dropLast_le ps
    have := sizeOf_dropLast_le qs
    simp only [variadic.sizeOf_spec, con.sizeOf_spec, arguments]; omega
  · have := sizeOf_getLast_lt h.1
    have := sizeOf_getLast_lt h.2
    simp only [variadic.sizeOf_spec, con.sizeOf_spec]; omega
  · simp; omega
  · simp; omega

/-- One set for every pair of parameters. -/
def generateParams (vars scope : List String) (vs : List Variance) (ps qs : List Ty) :
    Option (List ConstraintSet) :=
  match vs, ps, qs with
  | v :: vs, p :: ps, q :: qs => do
    let set ←
      match v with
      | .covariant => generate vars scope p q
      | .contravariant => generate vars scope q p
      | .invariant => do meet (← generate vars scope p q) (← generate vars scope q p)
    return set :: (← generateParams vars scope vs ps qs)
  | _, _, _ => some []
termination_by sizeOf ps + sizeOf qs

/-- One set for every argument type `qs` of a function with the argument types `ps`, the last one
repeated. -/
def generateSpread (vars scope : List String) (ps qs : List Ty) : Option (List ConstraintSet) :=
  match ps, qs with
  | p :: p' :: ps, q :: qs => do
    let set ← generate vars scope q p
    return set :: (← generateSpread vars scope (p' :: ps) qs)
  | [p], q :: qs => do
    let set ← generate vars scope q p
    return set :: (← generateSpread vars scope [p] qs)
  | _, _ => some []
termination_by sizeOf ps + sizeOf qs

end

end SchemeTyping.ConstraintSet
