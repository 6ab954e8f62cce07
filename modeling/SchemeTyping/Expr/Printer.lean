import SchemeTyping.Expr.Basic
import SchemeTyping.Ty.Printer

/-!
# Written expressions

`text` is an expression as source text.  `shown` spells out every constructor with its fields, the
way messages refer to an expression that stands in a wrong place.
-/

set_option autoImplicit false

namespace SchemeTyping.Expr

/-- A character of a string literal: a backslash or a double quote gets a backslash in front. -/
def stringChar (c : Char) : List Char := if c == '\\' || c == '\x22' then ['\\', c] else [c]

/-- A string literal.  Only backslashes and double quotes are escaped. -/
def stringText (s : String) : String :=
  "\"" ++ String.ofList (s.toList.flatMap stringChar) ++ "\""

/-- A name where it is bound. -/
def bindingText (name : String) : Option Ty → String
  | none => name
  | some t => "(" ++ name ++ " : " ++ t.text ++ ")"

mutual

/-- An expression as source text. -/
def text : Expr → String
  | .number n => n.text
  | .bool b => if b then "#t" else "#f"
  | .string s => stringText s
  | .null => "'()"
  | .list es => "'(" ++ " ".intercalate (texts es) ++ ")"
  | .hole => "_"
  | .binding name declared => bindingText name declared
  | .var name => name
  | .call called args => "(" ++ " ".intercalate (called.text :: texts args) ++ ")"
  | .define name value => "(define " ++ name.text ++ " " ++ value.text ++ ")"
  | .letIn bindings body =>
    "(let (" ++ " ".intercalate (pairTexts bindings) ++ ") " ++ body.text ++ ")"
  | .letrec bindings body =>
    "(letrec (" ++ " ".intercalate (pairTexts bindings) ++ ") " ++ body.text ++ ")"
  | .lambda params body =>
    "(lambda (" ++ " ".intercalate (texts params) ++ ") " ++ body.text ++ ")"
  | .sequence es => "(" ++ " ".intercalate ("sequence" :: texts es) ++ ")"
  | .branch c t e => "(if " ++ c.text ++ " " ++ t.text ++ " " ++ e.text ++ ")"
  | .cond cases => "(" ++ " ".intercalate ("cond" :: pairTexts cases) ++ ")"

/-- A row of expressions as source text. -/
def texts : List Expr → List String
  | [] => []
  | e :: es => e.text :: texts es

/-- A row of pairs of expressions as source text, each in parentheses. -/
def pairTexts : List (Expr × Expr) → List String
  | [] => []
  | (d, e) :: es => ("(" ++ d.text ++ " " ++ e.text ++ ")") :: pairTexts es

end

mutual

/-- An expression with its constructors spelled out. -/
def shown : Expr → String
  | .number n => Text.record "NumberLiteral" [("value", n.text)]
  | .bool b => Text.record "BoolLiteral" [("value", Text.truth b)]
  | .string s => Text.record "StringLiteral" [("value", Text.quoted s)]
  | .null => Text.record "NullLiteral" []
  | .list es => Text.record "ListLiteral" [("elements", Text.bracketed (shownList es))]
  | .hole => Text.record "Hole" []
  | .binding name declared =>
    Text.record "NameBinding"
      [("name", Text.quoted name), ("type", Text.optional (declared.map Ty.shown))]
  | .var name => Text.record "Var" [("name", Text.quoted name)]
  | .call called args =>
    Text.record "Call" [("called", called.shown), ("args", Text.bracketed (shownList args))]
  | .define name value => Text.record "Define" [("name", name.shown), ("value", value.shown)]
  | .letIn bindings body =>
    Text.record "Let"
      [("bindings", Text.bracketed (shownPairs "LetBinding" "name" bindings)), ("body", body.shown)]
  | .letrec bindings body =>
    Text.record "Letrec"
      [("bindings", Text.bracketed (shownPairs "LetBinding" "name" bindings)), ("body", body.shown)]
  | .lambda params body =>
    Text.record "Lambda" [("params", Text.bracketed (shownList params)), ("body", body.shown)]
  | .sequence es => Text.record "Sequence" [("exprs", Text.bracketed (shownList es))]
  | .branch c t e =>
    Text.record "If" [("condition", c.shown), ("consequent", t.shown), ("alternative", e.shown)]
  | .cond cases =>
    Text.record "Cond" [("cases", Text.bracketed (shownPairs "CondCase" "condition" cases))]

/-- A row of expressions with their constructors spelled out. -/
def shownList : List Expr → List String
  | [] => []
  | e :: es => e.shown :: shownList es

/-- A row of pairs, each as a record of the given kind with the given name for its first field. -/
def shownPairs (kind first : String) : List (Expr × Expr) → List String
  | [] => []
  | (d, e) :: es =>
    Text.record kind [(first, d.shown), ("value", e.shown)] :: shownPairs kind first es

end

end SchemeTyping.Expr
