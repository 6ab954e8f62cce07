import SchemeTyping.OrdMap
import SchemeTyping.Ty.Basic

/-!
# Substitution for type variables

A substitution gives types to some variables.  A quantifier hides the variables that it binds; bound
names are not renamed, so a type that is put under a quantifier can be captured by it.
-/

set_option autoImplicit false

namespace SchemeTyping

/-- Types for some type variables. -/
abbrev Subst := OrdMap String Ty

namespace Ty

mutual

/-- Puts types in the place of free type variables. -/
def subst (σ : Subst) : Ty → Ty
  | .var name => (σ.get? name).getD (.var name)
  | .unknown id => .unknown id
  | .con tag ps => .con tag (substList σ ps)
  | .variadic min max ps => .variadic min max (substList σ ps)
  | .all bound body => .all bound (body.subst (σ.filterKeys fun name ↦ !bound.contains name))

/-- Puts types in the place of the free type variables of a row of types. -/
def substList (σ : Subst) : List Ty → List Ty
  | [] => []
  | t :: ts => t.subst σ :: substList σ ts

end

theorem substList_eq_map (σ : Subst) (ts : List Ty) : substList σ ts = ts.map (·.subst σ) := by
  induction ts with
  | nil => rfl
  | cons t ts ih => simp [substList, ih]

end Ty

end SchemeTyping
