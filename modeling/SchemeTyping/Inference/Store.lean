import SchemeTyping.Forest
import SchemeTyping.Ty.Basic

/-!
# What is known of unknowns

The unknowns of an inference fall into classes that must become equal.  The value of a class is its
solution, or one of its unknowns as long as it has none.  A solution may mention other unknowns, so
applying a store to a type goes on until nothing is left to replace.

Unification refuses to bind an unknown to a type in which it occurs, but a class that has a solution
can be given another one without such a check.  A type *settles* if the replacements in it come to
an end.  Along a chain of replacements that does not lead back to itself each class occurs once, so
the number of unknowns bounds its length.
-/

set_option autoImplicit false

namespace SchemeTyping

/-- Classes of unknowns and their solutions. -/
abbrev Store := Forest String Ty

namespace Store

/-- The value of a merged class: a solution rather than an unknown. -/
def preferSolved : Ty → Ty → Ty
  | .unknown id, .unknown _ => .unknown id
  | .unknown _, t => t
  | s, _ => s

/-- The value of the class of an unknown, unless that is the unknown itself. -/
def next? (store : Store) (id : String) : Option Ty :=
  match store.value? id with
  | some t => if t = .unknown id then none else some t
  | none => none

/-- Replaces unknowns by the values of their classes, chains of at most `depth` of them. -/
def applyWithin (store : Store) : (depth : Nat) → Ty → Ty
  | 0, t => t
  | depth + 1, t =>
    t.fill fun id ↦
      match next? store id with
      | some s => applyWithin store depth s
      | none => .unknown id

/-- Replaces every solved unknown of a type by its solution. -/
def apply (store : Store) (t : Ty) : Ty := applyWithin store (store.size + 1) t

/-- Whether the replacements in a type come to an end within chains of at most `depth`. -/
def settlesWithin (store : Store) : (depth : Nat) → Ty → Bool
  | 0, _ => false
  | depth + 1, t =>
    t.unknowns.all fun id ↦
      match next? store id with
      | some s => settlesWithin store depth s
      | none => true

/-- Whether the replacements in a type come to an end. -/
def settles (store : Store) (t : Ty) : Bool := settlesWithin store (store.size + 1) t

/-- Follows an unknown to the value of its class, at most `steps` times. -/
def resolveWithin (store : Store) : (steps : Nat) → Ty → Ty
  | 0, t => t
  | steps + 1, t =>
    match t with
    | .unknown id =>
      match next? store id with
      | some s => resolveWithin store steps s
      | none => t
    | _ => t

/-- Follows an unknown to the value of its class; the parameters of the value stay as they are. -/
def resolve (store : Store) (t : Ty) : Ty := resolveWithin store (store.size + 1) t

end Store

end SchemeTyping
