import SchemeTyping.Number.Basic
import SchemeTyping.Text.Record

/-!
# Data

Source text is read in two steps: characters become data, and data are then understood as
expressions or as types.  A datum is an atom, a quoted datum or a list.
-/

set_option autoImplicit false

namespace SchemeTyping

/-- A piece of source text before it is given a meaning. -/
inductive Datum
  | bool (value : Bool)
  | number (value : Number)
  | string (value : String)
  | symbol (name : String)
  | quote (datum : Datum)
  | list (items : List Datum)
  deriving Inhabited

namespace Datum

mutual

/-- Equality of data is decidable. -/
def decEq (d e : Datum) : Decidable (d = e) :=
  if h : d.ctorIdx = e.ctorIdx then
    match d, e, h with
    | .bool a, .bool b, _ => decidable_of_iff (a = b) (by simp)
    | .number m, .number n, _ => decidable_of_iff (m = n) (by simp)
    | .string s, .string t, _ => decidable_of_iff (s = t) (by simp)
    | .symbol s, .symbol t, _ => decidable_of_iff (s = t) (by simp)
    | .quote d, .quote e, _ => @decidable_of_iff _ (d = e) (by simp) (decEq d e)
    | .list ds, .list es, _ => @decidable_of_iff _ (ds = es) (by simp) (decEqList ds es)
  else isFalse fun he ↦ h (by rw [he])

/-- Equality of rows of data is decidable. -/
def decEqList (ds es : List Datum) : Decidable (ds = es) :=
  match ds, es with
  | [], [] => isTrue rfl
  | [], _ :: _ => isFalse (by simp)
  | _ :: _, [] => isFalse (by simp)
  | d :: ds, e :: es =>
    @decidable_of_iff _ (d = e ∧ ds = es) (by simp)
      (@instDecidableAnd _ _ (decEq d e) (decEqList ds es))

end

instance : DecidableEq Datum := decEq

mutual

/-- A datum as messages show it. -/
def shown : Datum → String
  | .bool b => Text.truth b
  | .number n => n.text
  | .string s => Text.quoted s
  | .symbol name => Text.record "Symbol" [("name", Text.quoted name)]
  | .quote d => Text.record "Quote" [("datum", d.shown)]
  | .list items => Text.bracketed (shownList items)

/-- The entries of a list as messages show them. -/
def shownList : List Datum → List String
  | [] => []
  | d :: ds => d.shown :: shownList ds

end

end Datum

end SchemeTyping
