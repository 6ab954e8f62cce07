import SchemeTyping.Text.Quoted

/-!
# Values written out in messages

A message that refers to a value writes it as the application of a constructor to named fields:
`Symbol(name=...)`, `[a, b]` for a list, `(a, b)` for a fixed row with the comma kept when there is
only one entry.
-/

set_option autoImplicit false

namespace SchemeTyping.Text

/-- `name(field=value, ...)`. -/
def record (name : String) (fields : List (String × String)) : String :=
  name ++ "(" ++ ", ".intercalate (fields.map fun f ↦ f.1 ++ "=" ++ f.2) ++ ")"

/-- `[a, b]`. -/
def bracketed (items : List String) : String := "[" ++ ", ".intercalate items ++ "]"

/-- `()`, `(a,)`, `(a, b)`. -/
def row : List String → String
  | [a] => "(" ++ a ++ ",)"
  | items => "(" ++ ", ".intercalate items ++ ")"

/-- A truth value by name. -/
def truth (b : Bool) : String := if b then "True" else "False"

/-- An optional value, `None` when there is none. -/
def optional (v : Option String) : String := v.getD "None"

end SchemeTyping.Text
