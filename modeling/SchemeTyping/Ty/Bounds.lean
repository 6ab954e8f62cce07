import SchemeTyping.Ty.Subtype

/-!
# Meets and joins

`meet` and `join` combine two types into a lower and an upper bound.  The gradual type wins over
everything, and of two related types one is the answer.  Unrelated types are combined parameter by
parameter where the constructors agree, contravariant parameters the other way round; where that
fails the answer is the extreme type of the direction, `never` or `any`.
-/

set_option autoImplicit false

namespace SchemeTyping

/-- Which bound is looked for. -/
inductive Bound
  | lower
  | upper
  deriving DecidableEq, Repr, Inhabited

namespace Bound

/-- The other bound. -/
def opposite : Bound → Bound
  | .lower => .upper
  | .upper => .lower

/-- The bound that every two types have. -/
def extreme : Bound → Ty
  | .lower => Ty.never
  | .upper => Ty.any

/-- The bound of two types of which the first is a subtype of the second. -/
def ofSubtypes (b : Bound) (small large : Ty) : Ty :=
  match b with
  | .lower => small
  | .upper => large

end Bound

namespace Ty

mutual

/-- A bound of two types. -/
def bound (b : Bound) (s t : Ty) : Ty :=
  if s.isUntyped then s
  else if t.isUntyped then t
  else if isSubtype s t then b.ofSubtypes s t
  else if isSubtype t s then b.ofSubtypes t s
  else
    match s, t with
    | .all names body, .all names' body' =>
      if names = names' then .all names (bound b body body') else b.extreme
    | .con tag ps, .con tag' qs =>
      if tag = tag' ∧ ps.length = qs.length then
        match bounds b (Variance.ofTag tag ps.length) ps qs with
        | some rs => .con tag rs
        | none => b.extreme
      else b.extreme
    | _, _ => b.extreme
termination_by sizeOf s + sizeOf t

/-- The bounds of parameters; there are none at an invariant position, because types that are not
related differ there. -/
def bounds (b : Bound) (vs : List Variance) (ps qs : List Ty) : Option (List Ty) :=
  match vs, ps, qs with
  | v :: vs, p :: ps, q :: qs =>
    match v with
    | .covariant => (bounds b vs ps qs).map (bound b p q :: ·)
    | .contravariant => (bounds b vs ps qs).map (bound b.opposite p q :: ·)
    | .invariant => none
  | _, _, _ => some []
termination_by sizeOf ps + sizeOf qs

end

/-- A type below both. -/
def meet (s t : Ty) : Ty := bound .lower s t

/-- A type above both. -/
def join (s t : Ty) : Ty := bound .upper s t

end Ty

end SchemeTyping
