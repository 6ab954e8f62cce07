import SchemeTyping.Ty.Basic

/-!
# Variance

How a constructor treats its parameters, and how a variable is used in a type.  Lists, promises and
procedures are covariant, the arguments of a function contravariant and its result covariant; any
other parameter is invariant.
-/

set_option autoImplicit false

namespace SchemeTyping

/-- How a constructor treats a parameter. -/
inductive Variance
  | covariant
  | contravariant
  | invariant
  deriving DecidableEq, Repr, Inhabited

/-- How a variable is used in a type. -/
inductive Usage
  | constant
  | covariant
  | contravariant
  | invariant
  deriving DecidableEq, Repr, Inhabited

namespace Variance

/-- The word for a variance. -/
def text : Variance → String
  | .covariant => "covariant"
  | .contravariant => "contravariant"
  | .invariant => "invariant"

/-- How a constructor treats each of `count` parameters.  A function without parameters still has
the entry of its result. -/
def ofTag (tag : String) (count : Nat) : List Variance :=
  if tag = "List" ∨ tag = "Procedure" ∨ tag = "Promise" then List.replicate count .covariant
  else if tag = "Function" then List.replicate (count - 1) .contravariant ++ [.covariant]
  else List.replicate count .invariant

end Variance

/-- How the constructor of a type treats its parameters. -/
def Ty.variances : Ty → List Variance
  | .con tag ps => Variance.ofTag tag ps.length
  | .variadic _ _ ps => List.replicate ps.length .invariant
  | _ => []

namespace Usage

/-- The word for a usage. -/
def text : Usage → String
  | .constant => "constant"
  | .covariant => "covariant"
  | .contravariant => "contravariant"
  | .invariant => "invariant"

/-- The usage in two places at once. -/
def combine : Usage → Usage → Usage
  | .constant, u => u
  | u, .constant => u
  | u, v => if u = v then u else .invariant

/-- The usage under a parameter of the given variance. -/
def under : Variance → Usage → Usage
  | _, .constant => .constant
  | .covariant, u => u
  | .contravariant, .covariant => .contravariant
  | .contravariant, .contravariant => .covariant
  | .contravariant, .invariant => .invariant
  | .invariant, _ => .invariant

end Usage

namespace Ty

mutual

/-- How a variable is used in a type. -/
def usage (name : String) : Ty → Usage
  | .var v => if v = name then .covariant else .constant
  | .unknown _ => .constant
  | .all bound body => if bound.contains name then .constant else body.usage name
  | .con tag ps => usageList name (Variance.ofTag tag ps.length) ps
  | .variadic _ _ ps => usageList name (List.replicate ps.length .invariant) ps

/-- How a variable is used in a row of parameters. -/
def usageList (name : String) : List Variance → List Ty → Usage
  | _, [] => .constant
  | [], _ :: _ => .constant
  | v :: vs, t :: ts => (Usage.under v (t.usage name)).combine (usageList name vs ts)

end

end Ty

end SchemeTyping
