/-!
# Types

A type is a variable, an unknown that inference still has to solve, a constructor applied to
parameters, a function of a variable number of arguments, or a quantified type.

The parameters of a function type are the types of its arguments followed by the type of its result.
A function of a variable number of arguments repeats its last argument type.  A type may have no
parameters where some are expected: the result is then `any`.
-/

set_option autoImplicit false

namespace SchemeTyping

/-- A type. -/
inductive Ty
  | var (name : String)
  /-- A placeholder that inference solves. -/
  | unknown (id : String)
  | con (tag : String) (params : List Ty)
  /-- A function that takes from `min` to `max` arguments, as far as these are given. -/
  | variadic (min max : Option Int) (params : List Ty)
  | all (bound : List String) (body : Ty)
  deriving Repr, Inhabited

namespace Ty

mutual

/-- Equality of types is decidable. -/
def decEq (s t : Ty) : Decidable (s = t) :=
  if h : s.ctorIdx = t.ctorIdx then
    match s, t, h with
    | .var m, .var n, _ => decidable_of_iff (m = n) (by simp)
    | .unknown m, .unknown n, _ => decidable_of_iff (m = n) (by simp)
    | .con m ps, .con n qs, _ =>
      @decidable_of_iff _ (m = n ∧ ps = qs) (by simp)
        (@instDecidableAnd _ _ inferInstance (decEqList ps qs))
    | .variadic l m ps, .variadic l' m' qs, _ =>
      @decidable_of_iff _ ((l = l' ∧ m = m') ∧ ps = qs) (by simp [and_assoc])
        (@instDecidableAnd _ _ inferInstance (decEqList ps qs))
    | .all bs s, .all cs t, _ =>
      @decidable_of_iff _ (bs = cs ∧ s = t) (by simp)
        (@instDecidableAnd _ _ inferInstance (decEq s t))
  else isFalse fun he ↦ h (by rw [he])

/-- Equality of rows of types is decidable. -/
def decEqList (ss ts : List Ty) : Decidable (ss = ts) :=
  match ss, ts with
  | [], [] => isTrue rfl
  | [], _ :: _ => isFalse (by simp)
  | _ :: _, [] => isFalse (by simp)
  | s :: ss, t :: ts =>
    @decidable_of_iff _ (s = t ∧ ss = ts) (by simp)
      (@instDecidableAnd _ _ (decEq s t) (decEqList ss ts))

end

instance : DecidableEq Ty := decEq

/-! ## Constructors with a meaning of their own -/

/-- The top type. -/
def any : Ty := .con "Any" []

/-- The bottom type. -/
def never : Ty := .con "Never" []

/-- The gradual type, compatible with every other one. -/
def untyped : Ty := .con "?" []

def integer : Ty := .con "Integer" []

def number : Ty := .con "Number" []

def boolean : Ty := .con "Boolean" []

def string : Ty := .con "String" []

/-- The type of the empty list literal. -/
def null : Ty := .con "Null" []

/-- The type of a form that has no value. -/
def empty : Ty := .con "Empty" []

/-- A function from the types of the arguments to the last type. -/
def function (params : List Ty) : Ty := .con "Function" params

/-- A value that is called without arguments. -/
def procedure (result : Ty) : Ty := .con "Procedure" [result]

def list (element : Ty) : Ty := .con "List" [element]

/-- The tag of the constructor.  A function of a variable number of arguments has one too. -/
def tag? : Ty → Option String
  | .con tag _ => some tag
  | .variadic .. => some "Function*"
  | _ => none

/-- Whether the type is built with the given constructor, whatever its parameters. -/
def hasTag (t : Ty) (tag : String) : Bool := t.tag? == some tag

/-- Whether the type is gradual. -/
def isUntyped (t : Ty) : Bool := t.hasTag "?"

/-- The parameters of a constructor. -/
def params : Ty → List Ty
  | .con _ ps => ps
  | .variadic _ _ ps => ps
  | _ => []

/-! ## Functions -/

/-- The argument types among the parameters of a function. -/
def arguments (params : List Ty) : List Ty := params.dropLast

/-- The result type among the parameters of a function. -/
def result (params : List Ty) : Ty := params.getLastD any

/-- The least number of arguments that a function takes.  Without a bound of its own a variadic
function takes at least the arguments before the repeated one. -/
def minArguments : Ty → Int
  | .all _ body => body.minArguments
  | .variadic min _ ps => min.getD (ps.length - 2 : Nat)
  | .con tag ps => if tag = "Function" then (ps.length - 1 : Nat) else 0
  | _ => 0

/-- The greatest number of arguments that a function takes, `none` when there is no bound. -/
def maxArguments : Ty → Option Int
  | .all _ body => body.maxArguments
  | .variadic _ max _ => max
  | .con tag ps => if tag = "Function" then some (ps.length - 1 : Nat) else none
  | _ => none

/-- Whether a function may be called with `count` arguments. -/
def accepts (t : Ty) (count : Nat) : Bool :=
  decide (t.minArguments ≤ count) && t.maxArguments.all fun max ↦ decide ((count : Int) ≤ max)

/-- The argument types of a variadic function for a call with `count` arguments: positions past the
last argument type repeat it. -/
def spread (params : List Ty) (count : Nat) : List Ty :=
  match arguments params with
  | [] => []
  | a :: as =>
    let last := (a :: as).getLast (by simp)
    (List.range count).map fun i ↦ ((a :: as)[i]?).getD last

/-- A chain of functions of one argument. -/
def chain (args : List Ty) (result : Ty) : Ty :=
  args.foldr (fun a r ↦ function [a, r]) result

/-- A function type as a chain of functions of one argument; without arguments, a procedure.  Only
the outermost constructor changes. -/
def curried : Ty → Ty
  | .con tag ps =>
    if tag = "Function" then
      match arguments ps with
      | [] => procedure (result ps)
      | [_] => .con tag ps
      | args => chain args (result ps)
    else .con tag ps
  | t => t

/-! ## Parts of a type -/

/-- Applies a function to the immediate parts of a type. -/
def mapParams (f : Ty → Ty) : Ty → Ty
  | .con tag ps => .con tag (ps.map f)
  | .variadic min max ps => .variadic min max (ps.map f)
  | .all bound body => .all bound (f body)
  | t => t

mutual

/-- The type variables that occur free. -/
def freeVars : Ty → List String
  | .var name => [name]
  | .unknown _ => []
  | .con _ ps => freeVarsList ps
  | .variadic _ _ ps => freeVarsList ps
  | .all bound body => body.freeVars.filter fun name ↦ !bound.contains name

/-- The type variables that occur free in a row of types. -/
def freeVarsList : List Ty → List String
  | [] => []
  | t :: ts => t.freeVars ++ freeVarsList ts

end

mutual

/-- The unknowns that occur. -/
def unknowns : Ty → List String
  | .var _ => []
  | .unknown id => [id]
  | .con _ ps => unknownsList ps
  | .variadic _ _ ps => unknownsList ps
  | .all _ body => body.unknowns

/-- The unknowns that occur in a row of types. -/
def unknownsList : List Ty → List String
  | [] => []
  | t :: ts => t.unknowns ++ unknownsList ts

end

/-- Whether nothing is left to solve. -/
def isSolved (t : Ty) : Bool := t.unknowns.isEmpty

mutual

/-- Puts types in the place of unknowns. -/
def fill (f : String → Ty) : Ty → Ty
  | .var name => .var name
  | .unknown id => f id
  | .con tag ps => .con tag (fillList f ps)
  | .variadic min max ps => .variadic min max (fillList f ps)
  | .all bound body => .all bound (body.fill f)

/-- Puts types in the place of the unknowns of a row of types. -/
def fillList (f : String → Ty) : List Ty → List Ty
  | [] => []
  | t :: ts => t.fill f :: fillList f ts

end

mutual

/-- The number of nodes of a type. -/
def size : Ty → Nat
  | .var _ => 1
  | .unknown _ => 1
  | .con _ ps => 1 + sizeList ps
  | .variadic _ _ ps => 1 + sizeList ps
  | .all _ body => 1 + body.size

/-- The number of nodes of a row of types. -/
def sizeList : List Ty → Nat
  | [] => 0
  | t :: ts => t.size + sizeList ts

end

theorem fillList_eq_map (f : String → Ty) (ts : List Ty) : fillList f ts = ts.map (·.fill f) := by
  induction ts with
  | nil => rfl
  | cons t ts ih => simp [fillList, ih]

theorem freeVarsList_eq_flatMap (ts : List Ty) : freeVarsList ts = ts.flatMap freeVars := by
  induction ts with
  | nil => rfl
  | cons t ts ih => simp [freeVarsList, ih]

theorem unknownsList_eq_flatMap (ts : List Ty) : unknownsList ts = ts.flatMap unknowns := by
  induction ts with
  | nil => rfl
  | cons t ts ih => simp [unknownsList, ih]

end Ty

/-- Puts a name into a row in alphabetical order, if it is not there. -/
def insertName (name : String) : List String → List String
  | [] => [name]
  | n :: ns =>
    if name < n then name :: n :: ns
    else if name = n then n :: ns
    else n :: insertName name ns

/-- The names of a row, each once and in alphabetical order. -/
def sortedNames (names : List String) : List String := names.foldr insertName []

end SchemeTyping
