import SchemeTyping.Text.Record
import SchemeTyping.Ty.Basic

/-!
# Written types

Three ways to write a type.  `text` is the form that source text uses and that can be read back,
`pretty` the compact form of messages, with arrows for functions, and `shown` spells out every
constructor.
-/

set_option autoImplicit false

namespace SchemeTyping.Ty

/-- Type variables carry a mark in front. -/
def varText (name : String) : String := "#" ++ name

/-- The names of a quantifier. -/
def boundText (bound : List String) : String := " ".intercalate (bound.map varText)

/-- A bound on the number of arguments, left out when there is none. -/
def optionText (key : String) : Option Int → List String
  | none => []
  | some n => [key ++ " " ++ toString n]

mutual

/-- A type as source text. -/
def text : Ty → String
  | .var name => varText name
  | .unknown id => "?" ++ id
  | .con tag [] => tag
  | .con tag (p :: ps) => "(" ++ " ".intercalate (tag :: p.text :: texts ps) ++ ")"
  | .variadic min max ps =>
    "(" ++ " ".intercalate
      ("Function*" :: optionText ":min" min ++ optionText ":max" max ++ texts ps) ++ ")"
  | .all bound body => "(All (" ++ boundText bound ++ ") " ++ body.text ++ ")"

/-- A row of types as source text. -/
def texts : List Ty → List String
  | [] => []
  | t :: ts => t.text :: texts ts

end

mutual

/-- A type as messages show it. -/
def pretty : Ty → String
  | .var name => varText name
  | .unknown _ => "?"
  | .all bound body => "∀" ++ boundText bound ++ ". " ++ body.pretty
  | .variadic _ _ [] => "Function*"
  | .variadic _ _ (p :: ps) =>
    let shown := p.pretty :: pretties ps
    "(" ++ " ".intercalate shown.dropLast ++ "... → " ++ shown.getLastD "" ++ ")"
  | .con tag [] => tag
  | .con tag (p :: ps) =>
    let shown := p.pretty :: pretties ps
    if tag = "Function" then
      "(" ++ String.join (shown.dropLast.map (· ++ " ")) ++ "→ " ++ shown.getLastD "" ++ ")"
    else if tag = "Procedure" && ps.isEmpty then "(→ " ++ shown.getLastD "" ++ ")"
    else "(" ++ " ".intercalate (tag :: shown) ++ ")"

/-- A row of types as messages show them. -/
def pretties : List Ty → List String
  | [] => []
  | t :: ts => t.pretty :: pretties ts

end

/-- A bound on the number of arguments, spelled out. -/
def shownBound (n : Option Int) : String := Text.optional (n.map toString)

mutual

/-- A type with its constructors spelled out. -/
def shown : Ty → String
  | .var name => Text.record "TypeVar" [("name", Text.quoted name)]
  | .unknown id => Text.record "Unknown" [("id", Text.quoted id)]
  | .con tag ps =>
    Text.record "ConcreteType" [("tag", Text.quoted tag), ("params", Text.row (shownList ps))]
  | .variadic min max ps =>
    Text.record "VariadicFunctionType"
      [("tag", Text.quoted "Function*"), ("params", Text.row (shownList ps)),
       ("min_arg_count", shownBound min), ("max_arg_count", shownBound max)]
  | .all bound body =>
    Text.record "ForallType" [("bound", Text.row (bound.map Text.quoted)), ("body", body.shown)]

/-- A row of types with their constructors spelled out. -/
def shownList : List Ty → List String
  | [] => []
  | t :: ts => t.shown :: shownList ts

end

/-! ## Names of parameters -/

/-- The names of the parameters of a constructor with `count` parameters.  The arguments of a
function are numbered from one, unless there is only one of them.  A count below zero leaves no
arguments, but a function still has its result. -/
def paramNames (tag : String) (count : Int) : List String :=
  let numbered := (List.range count.toNat).map fun i ↦ toString i
  let named (first : String) := (first :: numbered.drop 1).take count.toNat
  match tag with
  | "List" => named "element"
  | "Promise" => named "value"
  | "Procedure" => named "out"
  | "Function" | "Function*" =>
    if count = 0 then []
    else if count = 2 then ["in", "out"]
    else (numbered.drop 1).map ("in" ++ ·) ++ ["out"]
  | _ => numbered

/-- The parameters of a type with their names, those of the body for a quantified type. -/
def namedParams : Ty → List (String × Ty)
  | .var _ => []
  | .unknown _ => []
  | .con tag ps => (paramNames tag ps.length).zip ps
  | .variadic _ _ ps => (paramNames "Function*" ps.length).zip ps
  | .all _ body => body.namedParams

end SchemeTyping.Ty
