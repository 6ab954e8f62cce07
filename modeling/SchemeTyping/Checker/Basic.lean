import SchemeTyping.Diagnostic
import SchemeTyping.Environment
import SchemeTyping.Event

/-!
# The state of the checker

The checker keeps at most one diagnostic for every place, the definitions met so far, and the types
found.  The type of a definition is computed when it is first asked for: until then the definition
waits with the context in which it was met.

The values of a `letrec` are typed one after the other, and the types of its names get known on the
way.  A definition that waits among these values takes part in that: it sees the names as they are
known when its own type is computed.
-/

set_option autoImplicit false

namespace SchemeTyping

/-- The names in sight and their types. -/
structure Context where
  types : Env
  /-- The `letrec` whose values are being typed, if the context is the one that these share. -/
  group : Option Nat
  deriving Inhabited

namespace Context

/-- A context that does not change any more. -/
def fixed (types : Env) : Context := ⟨types, none⟩

/-- The context with a type for a name. -/
def insert (c : Context) (name : String) (type : Ty) : Context :=
  { c with types := c.types.insert name type }

end Context

/-- A definition whose type is computed when it is asked for. -/
structure Pending where
  /-- The definition, which may be edited while it waits. -/
  node : Mention
  /-- The type that was declared when the definition was met. -/
  declared : Option Ty
  context : Context
  place : Place
  deriving Inhabited

/-- What the checker remembers. -/
structure CheckerState where
  errors : OrdMap Place Diagnostic
  definitions : OrdMap String Pending
  /-- The types of definitions that were computed. -/
  computed : Env
  /-- The names of definitions whose types are being computed. -/
  computing : List String
  cache : Cache
  /-- How many `letrec`s were met. -/
  groups : Nat
  log : Array Event
  deriving Inhabited

namespace CheckerState

/-- The state at the beginning. -/
def initial : CheckerState := ⟨∅, ∅, ∅, [], ∅, 0, #[]⟩

/-- Forgets everything but the log. -/
def reset (s : CheckerState) : CheckerState := { initial with log := s.log }

/-- Forgets all types; diagnostics and definitions stay. -/
def clearTypes (s : CheckerState) : CheckerState :=
  { s with computed := ∅, computing := [], cache := ∅ }

/-- The state after an edit that put `new` at a place: diagnostics and waiting definitions follow
the edit. -/
def afterEdit (edited : Place) (new : Expr) (s : CheckerState) : CheckerState :=
  { s with
    errors := s.errors.mapValues (·.mapMentions (Mention.afterEdit edited new))
    definitions := s.definitions.mapValues fun d ↦
      { d with node := d.node.afterEdit edited new } }

/-- Gives a type to a name in the contexts of the definitions that wait among the values of a
`letrec`. -/
def settle (group : Option Nat) (name : String) (type : Ty) (s : CheckerState) : CheckerState :=
  { s with
    definitions := s.definitions.mapValues fun d ↦
      if d.context.group = group then { d with context := d.context.insert name type } else d }

end CheckerState

/-- Why checking stops.  A diagnostic is recorded and checking goes on; the other two faults come
from expressions in wrong places and end it. -/
inductive Fault
  | diagnosed (diagnostic : Diagnostic)
  | notBinder (expr : Expr)
  | notDefinition (expr : Expr)
  deriving DecidableEq, Repr, Inhabited

/-- The message for a fault. -/
def Fault.message : Fault → String
  | .diagnosed d => d.describe
  | .notBinder e => "Not a binder: " ++ e.shown
  | .notDefinition e => "Not a definition: " ++ e.shown

/-- Steps of a check, with faults that keep the state. -/
abbrev Check := ExceptT Fault (StateM CheckerState)

namespace Check

/-- Notes an event. -/
def tell (event : Event) : Check Unit := modify fun s ↦ { s with log := s.log.push event }

/-- Records a diagnostic at a place. -/
def report (place : Place) (d : Diagnostic) : Check Unit :=
  modify fun s ↦ { s with errors := s.errors.insert place d }

/-- Records the diagnostic of a failing step, which then has the gradual type. -/
def reporting (place : Place) (step : Check Ty) : Check Ty :=
  tryCatch step fun
    | .diagnosed d => do
      report place d
      return Ty.untyped
    | fault => throw fault

/-- The name that an expression binds. -/
def identifier (e : Expr) : Check String :=
  match e.identifier? with
  | some name => pure name
  | none => throw (.notBinder e)

end Check

end SchemeTyping
