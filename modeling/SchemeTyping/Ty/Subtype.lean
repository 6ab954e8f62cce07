import SchemeTyping.Ty.Variance

/-!
# Subtyping

`isSubtype s t` says whether a value of type `s` may stand where one of type `t` is wanted.

* The gradual type is on both sides of every type.  `never` is below everything and `any` above
  everything, whatever parameters they carry.
* Three pairs of constructors are related by name alone: integers are numbers, and the types of the
  empty list and of a form without value are below every list.
* Parameters are compared as their variance says, an invariant one by equality.
* A variadic function is below a function of fixed arity that it accepts, its last argument repeated
  as often as needed.  Two variadic functions are related only when they are equal.
* Quantified types are compared under the same names.

The gradual type makes the relation intransitive.
-/

set_option autoImplicit false

namespace SchemeTyping.Ty

/-- Pairs of constructors related whatever their parameters. -/
def nominal (tag tag' : String) : Bool :=
  (tag == "Integer" && tag' == "Number") || (tag == "Empty" && tag' == "List")
    || (tag == "Null" && tag' == "List")

theorem sizeOf_dropLast_le (ts : List Ty) : sizeOf ts.dropLast ≤ sizeOf ts := by
  induction ts with
  | nil => simp
  | cons t ts ih =>
    cases ts with
    | nil => simp
    | cons u us => simp only [List.dropLast_cons_cons, List.cons.sizeOf_spec] at ih ⊢; omega

theorem sizeOf_getLast_lt {ts : List Ty} (h : ts ≠ []) : sizeOf (ts.getLast h) < sizeOf ts :=
  List.sizeOf_lt_of_mem (List.getLast_mem h)

mutual

/-- Whether the first type is a subtype of the second. -/
def isSubtype (s t : Ty) : Bool :=
  if s.isUntyped || t.isUntyped then true
  else if s = t then true
  else if s.hasTag "Never" || t.hasTag "Any" then true
  else
    match s, t with
    | .all bound body, .all bound' body' => bound = bound' && isSubtype body body'
    | .con tag ps, .con tag' qs =>
      nominal tag tag'
        || tag = tag' && ps.length = qs.length && areSubtypes (Variance.ofTag tag ps.length) ps qs
    | .variadic min max ps, .con tag qs =>
      tag = "Function" && !(arguments ps).isEmpty
        && (variadic min max ps).accepts (arguments qs).length
        && (if h : ps ≠ [] ∧ qs ≠ [] then isSubtype (ps.getLast h.1) (qs.getLast h.2) else true)
        && acceptsAll (arguments ps) (arguments qs)
    | _, _ => false
termination_by sizeOf s + sizeOf t
decreasing_by
  · simp; omega
  · simp; omega
  · have := sizeOf_getLast_lt h.1
    have := sizeOf_getLast_lt h.2
    simp only [variadic.sizeOf_spec, con.sizeOf_spec]; omega
  · have := sizeOf_dropLast_le ps
    have := sizeOf_dropLast_le qs
    simp only [variadic.sizeOf_spec, con.sizeOf_spec, arguments]; omega

/-- Whether parameters are related as their variances say. -/
def areSubtypes (vs : List Variance) (ps qs : List Ty) : Bool :=
  match vs, ps, qs with
  | v :: vs, p :: ps, q :: qs =>
    (match v with
      | .covariant => isSubtype p q
      | .contravariant => isSubtype q p
      | .invariant => p = q)
    && areSubtypes vs ps qs
  | _, _, _ => true
termination_by sizeOf ps + sizeOf qs

/-- Whether a function with the argument types `ps`, the last one repeated, takes arguments of the
types `qs`. -/
def acceptsAll (ps qs : List Ty) : Bool :=
  match ps, qs with
  | p :: p' :: ps, q :: qs => isSubtype q p && acceptsAll (p' :: ps) qs
  | [p], q :: qs => isSubtype q p && acceptsAll [p] qs
  | _, _ => true
termination_by sizeOf ps + sizeOf qs

end

end SchemeTyping.Ty
