import SchemeTyping.Diagnostic
import SchemeTyping.Environment
import SchemeTyping.Event
import SchemeTyping.Inference.Store

/-!
# The state of an inference

Inference keeps the classes of its unknowns, the type found at every place, and the last diagnostic.
All of it survives a failure, so that it can be looked at afterwards: the monad `Infer` puts the
failure inside the state.
-/

set_option autoImplicit false

namespace SchemeTyping

/-- Why an inference fails. -/
inductive Failure
  | unbound (var : Mention) (name : String)
  | mismatch (e₁ e₂ : Option Mention) (t₁ t₂ : Ty)
  | occurs (e₁ e₂ : Option Mention) (unknown type : Ty)
  /-- A procedure is called with arguments. -/
  | procedureArguments (call : Mention) (calledType : Ty) (attempted : Nat)
  /-- A function is called without arguments. -/
  | missingArguments (call : Mention) (calledType : Ty)
  /-- A function is called with more arguments than the `arity` it takes. -/
  | surplusArguments (call : Mention) (calledType : Ty) (arity attempted : Nat)
  | variadicArguments (call : Mention) (calledType : Ty) (min max : Option Int) (attempted : Nat)
  | notCallable (call : Mention) (calledType : Ty)
  /-- Only constructors and unknowns can be unified. -/
  | uninstantiated (type : Ty)
  /-- An unknown is left in a finished type. -/
  | incomplete (type : Ty)
  | invalidPath (path : Path)
  | notBinder (expr : Expr)
  /-- An unknown that the store does not know. -/
  | missingUnknown (id : String)
  /-- Replacing unknowns by their solutions does not come to an end. -/
  | unbounded
  /-- Unification went deeper than any finite type allows. -/
  | tooDeep
  deriving DecidableEq, Repr, Inhabited

namespace Failure

/-- The diagnostic that a failure leaves behind. -/
def diagnostic? : Failure → Option Diagnostic
  | .unbound var _ => some (.unboundVariable var)
  | .mismatch e₁ e₂ t₁ t₂ => some (.typeMismatch e₁ e₂ t₁ t₂)
  | .occurs e₁ e₂ t₁ t₂ => some (.occursCheck e₁ e₂ t₁ t₂)
  | .procedureArguments call t attempted => some (.arityMismatch call t 0 attempted)
  | .missingArguments call t => some (.arityMismatch call t 1 0)
  | .surplusArguments call t arity attempted => some (.arityMismatch call t arity attempted)
  | .variadicArguments call t min max attempted =>
    some (.variadicArityMismatch call t min max attempted)
  | .notCallable call t => some (.notCallable call t)
  | _ => none

/-- The message for a failure. -/
def message : Failure → String
  | .unbound _ name => "Unbound variable: " ++ name
  | .mismatch _ _ t₁ t₂ => "Cannot unify " ++ t₁.text ++ " and " ++ t₂.text
  | .occurs _ _ t₁ t₂ => "Occurs check failed: " ++ t₁.text ++ " occurs in " ++ t₂.text
  | .procedureArguments _ _ attempted =>
    "Procedure called with " ++ toString attempted ++ " arguments"
  | .missingArguments _ t => "Function of type " ++ t.text ++ " called without arguments"
  | .surplusArguments _ t _ attempted =>
    "Function of type " ++ t.text ++ " called with " ++ toString attempted ++ " arguments"
  | .variadicArguments _ _ _ _ attempted =>
    "Variadic function called with " ++ toString attempted ++ " arguments"
  | .notCallable _ t => t.text ++ " is not callable"
  | .uninstantiated t => "Cannot unify uninstantiated type " ++ t.text
  | .incomplete t => "Type could not be completely inferred: " ++ t.text
  | .invalidPath path => "Index path not valid for tree: " ++ path.shown
  | .notBinder e => "Not a binder: " ++ e.shown
  | .missingUnknown id => Text.quoted id
  | .unbounded => "Replacement does not end"
  | .tooDeep => "Unification does not end"

/-- A failure for a reader: its diagnostic in words, or else its message. -/
def describe (f : Failure) : String := (f.diagnostic?.map Diagnostic.describe).getD f.message

/-- Whether a failure says that there is no type.  The others say that the question makes no sense,
or that the search for an answer does not end. -/
def isTyping : Failure → Bool
  | .notBinder _ | .missingUnknown _ | .unbounded | .tooDeep => false
  | _ => true

/-- The search for a type does not end. -/
def Endless (f : Failure) : Prop := f = .unbounded ∨ f = .tooDeep

instance (f : Failure) : Decidable f.Endless := inferInstanceAs (Decidable (_ ∨ _))

end Failure

/-- What an inference remembers. -/
structure InferenceState where
  /-- The diagnostic of the last failure that has one. -/
  error : Option Diagnostic
  /-- The type found at every place, unknowns and all. -/
  types : Cache
  store : Store
  /-- How many unknowns were made. -/
  counter : Nat
  log : Array Event
  deriving Inhabited

namespace InferenceState

/-- The state at the beginning. -/
def initial : InferenceState := ⟨none, ∅, ∅, 0, #[]⟩

/-- Forgets everything but the log. -/
def reset (s : InferenceState) : InferenceState := { initial with log := s.log }

end InferenceState

/-- Steps of an inference, with failures that keep the state. -/
abbrev Infer := ExceptT Failure (StateM InferenceState)

namespace Infer

/-- Notes an event. -/
def tell (event : Event) : Infer Unit := modify fun s ↦ { s with log := s.log.push event }

/-- Fails, leaving the diagnostic of the failure in the state. -/
def fail {α : Type} (failure : Failure) : Infer α := do
  if let some d := failure.diagnostic? then modify fun s ↦ { s with error := some d }
  throw failure

/-- Does an operation on the store. -/
def onStore {α : Type} (op : Forest.Op String Ty α) : Infer α := do
  let (result, store) := op.run ((← get).store)
  modify fun s ↦ { s with store }
  match result with
  | .ok a => return a
  | .error id => throw (.missingUnknown id)

/-- Replaces every solved unknown of a type by its solution, if that comes to an end. -/
def applied (t : Ty) : Infer Ty := do
  let store := (← get).store
  if store.settles t then return store.apply t else throw .unbounded

/-- A new unknown.  Its id is a stem and a running number. -/
def newUnknown (stem : String) : Infer Ty := do
  let n := (← get).counter + 1
  let id := stem ++ "#" ++ toString n
  modify fun s ↦ { s with counter := n, store := s.store.add id (.unknown id) }
  return .unknown id

end Infer

end SchemeTyping
