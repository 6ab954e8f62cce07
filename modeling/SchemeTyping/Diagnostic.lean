import SchemeTyping.Tree.Basic

/-!
# Diagnostics

What inference and checking find wrong with a program.  A diagnostic holds the expressions and types
that it is about; `Diagnostic.describe` words it for a reader, and `Diagnostic.involves` says
whether an expression at a place is one of those it refers to.
-/

set_option autoImplicit false

namespace SchemeTyping

/-- What is wrong with a program. -/
inductive Diagnostic
  | unboundVariable (var : Mention)
  | typeMismatch (e₁ e₂ : Option Mention) (t₁ t₂ : Ty)
  | arityMismatch (call : Mention) (calledType : Ty) (arity attempted : Int)
  | variadicArityMismatch (call : Mention) (calledType : Ty) (min max : Option Int)
      (attempted : Int)
  | notCallable (call : Mention) (calledType : Ty)
  | occursCheck (e₁ e₂ : Option Mention) (t₁ t₂ : Ty)
  | notAssignableTo (expr : Mention) (type : Ty)
  | notAssignable (expr : Mention)
  | duplicateDefinition (name : String)
  deriving DecidableEq, Repr, Inhabited

namespace Diagnostic

/-- An expression, if it is known. -/
def exprText (m : Option Mention) : String := (m.map (·.expr.text)).getD "<unknown>"

/-- A count with its noun. -/
def counted (n : Int) (noun : String) : String :=
  toString n ++ " " ++ noun ++ (if n = 1 then "" else "s")

/-- The name of a variable. -/
def nameText (m : Mention) : String := m.expr.name?.getD ""

/-- What a call calls. -/
def calledText (m : Mention) : String :=
  match m.expr with
  | .call called _ => called.text
  | e => e.text

/-- A diagnostic in words. -/
def describe : Diagnostic → String
  | .unboundVariable var => "Unbound variable: " ++ nameText var
  | .typeMismatch e₁ e₂ t₁ t₂ =>
    "Type mismatch: " ++ exprText e₁ ++ " has type " ++ t₁.pretty ++ " but " ++ exprText e₂
      ++ " has type " ++ t₂.pretty
  | .arityMismatch _ calledType arity attempted =>
    "Function of type " ++ calledType.pretty ++ " expects " ++ counted arity "argument"
      ++ " but was called with " ++ toString attempted
  | .variadicArityMismatch _ calledType min max attempted =>
    "Function of type " ++ calledType.pretty ++ " expects between " ++ toString (min.getD 0)
      ++ " and " ++ (max.map toString).getD "any number of" ++ " arguments but was called with "
      ++ toString attempted
  | .notCallable call calledType =>
    calledText call ++ " has type " ++ calledType.pretty ++ " and cannot be called"
  | .occursCheck _ _ t₁ t₂ =>
    "Cannot construct infinite type: " ++ t₁.pretty ++ " occurs in " ++ t₂.pretty
  | .notAssignableTo expr type =>
    expr.expr.text ++ " is not assignable to type " ++ type.pretty
  | .notAssignable expr => "No valid type assignment for " ++ expr.expr.text
  | .duplicateDefinition name => "Duplicate definition of " ++ name

/-- The expressions that a diagnostic refers to. -/
def mentions : Diagnostic → List Mention
  | .unboundVariable var => [var]
  | .typeMismatch e₁ e₂ _ _ => e₁.toList ++ e₂.toList
  | .arityMismatch call .. => [call]
  | .variadicArityMismatch call .. => [call]
  | .notCallable call _ => [call]
  | .occursCheck e₁ e₂ _ _ => e₁.toList ++ e₂.toList
  | .notAssignableTo expr _ => [expr]
  | .notAssignable expr => [expr]
  | .duplicateDefinition _ => []

/-- Whether the expression at a place is one that the diagnostic refers to. -/
def involves (d : Diagnostic) (p : Place) : Bool := d.mentions.any (·.standsAt p)

/-- Applies a function to the expressions that a diagnostic refers to. -/
def mapMentions (f : Mention → Mention) : Diagnostic → Diagnostic
  | .unboundVariable var => .unboundVariable (f var)
  | .typeMismatch e₁ e₂ t₁ t₂ => .typeMismatch (e₁.map f) (e₂.map f) t₁ t₂
  | .arityMismatch call t arity attempted => .arityMismatch (f call) t arity attempted
  | .variadicArityMismatch call t min max attempted =>
    .variadicArityMismatch (f call) t min max attempted
  | .notCallable call t => .notCallable (f call) t
  | .occursCheck e₁ e₂ t₁ t₂ => .occursCheck (e₁.map f) (e₂.map f) t₁ t₂
  | .notAssignableTo expr t => .notAssignableTo (f expr) t
  | .notAssignable expr => .notAssignable (f expr)
  | .duplicateDefinition name => .duplicateDefinition name

end Diagnostic

end SchemeTyping
