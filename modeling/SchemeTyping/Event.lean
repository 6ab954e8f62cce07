import SchemeTyping.Tree.Basic

/-!
# Events

What inference and checking tell of their work.  Warnings are meant for every reader, the other
events for one who follows the steps.
-/

set_option autoImplicit false

namespace SchemeTyping

/-- A step or a warning. -/
inductive Event
  /-- A definition needs its own type. -/
  | circular (name : String)
  /-- No type is known at a path. -/
  | noType (path : Path)
  | inferring (expr : Expr)
  | inferringAt (expr : Expr) (path : Path)
  | inferred (type : Ty)
  | unified (unknown type : Ty)
  | generalized (type generalized : Ty)
  deriving DecidableEq, Repr, Inhabited

namespace Event

/-- Whether the event is a warning. -/
def isWarning : Event → Bool
  | .circular _ => true
  | .noType _ => true
  | _ => false

/-- The name of the level of an event. -/
def level (e : Event) : String := if e.isWarning then "WARNING" else "DEBUG"

/-- The words for an event. -/
def message : Event → String
  | .circular name => "Circular dependency for defined name: " ++ name
  | .noType path => "No type in inference cache for index path " ++ path.shown
  | .inferring e => "Inferring " ++ e.text
  | .inferringAt e path => "Inferring " ++ e.text ++ " at " ++ path.shown
  | .inferred t => "Inferred " ++ t.text
  | .unified t s => "Unified " ++ t.text ++ " with " ++ s.text
  | .generalized t s => "Generalized " ++ t.text ++ " to " ++ s.text

end Event

end SchemeTyping
