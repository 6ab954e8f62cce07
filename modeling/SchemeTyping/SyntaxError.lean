import SchemeTyping.Datum.Basic

/-!
# Syntax errors

Everything that can be wrong with source text, from a character that begins no word to a form that
has no meaning.  The causes are data; `SyntaxError.message` words them.
-/

set_option autoImplicit false

namespace SchemeTyping

/-- A place in source text.  Lines end at a newline character only, and both counts start at one. -/
structure Position where
  line : Nat
  column : Nat
  deriving DecidableEq, Repr, Inhabited

namespace Position

/-- The place of the first character. -/
def start : Position := ⟨1, 1⟩

/-- The place after a character. -/
def after (p : Position) (c : Char) : Position :=
  if c == '\n' then ⟨p.line + 1, 1⟩ else ⟨p.line, p.column + 1⟩

/-- The place after several characters. -/
def afterAll (p : Position) (cs : List Char) : Position := cs.foldl after p

/-- The place `n` columns to the right. -/
def right (p : Position) (n : Nat) : Position := ⟨p.line, p.column + n⟩

end Position

/-- What is wrong with a source text. -/
inductive SyntaxError
  /-- A closing parenthesis where nothing is open, or right after a quote mark. -/
  | unexpectedClose (place : Position)
  /-- The text ends inside a list or after a quote mark; the place is that of the last word. -/
  | unexpectedEnd (last : Position)
  /-- A character that neither begins a word nor may be passed over. -/
  | unreadable (c : Char) (place : Position)
  /-- A single form was wanted. -/
  | formCount (found : Nat)
  | emptyApplication
  | notQuotable (datum : Datum)
  | malformed (form : String) (datum : Datum)
  | invalidBinder (datum : Datum)
  | invalidBinding (datum : Datum)
  | invalidBindings (datum : Datum)
  | invalidCase (datum : Datum)
  | invalidType (datum : Datum)
  | notTypeVariable (datum : Datum)
  /-- An option of a function type that is not followed by an integer. -/
  | integerExpected (option : String)
  deriving DecidableEq, Inhabited

namespace SyntaxError

/-- The message for an error. -/
def message : SyntaxError → String
  | .unexpectedClose p =>
    "Unexpected token Token('RPAR', ')') at line " ++ toString p.line ++ ", column "
      ++ toString p.column ++ "."
  | .unexpectedEnd p =>
    "Unexpected token Token('$END', '') at line " ++ toString p.line ++ ", column "
      ++ toString p.column ++ "."
  | .unreadable c p =>
    "No terminal matches '" ++ String.singleton c ++ "' in the current parser context, at line "
      ++ toString p.line ++ " col " ++ toString p.column
  | .formCount n => "Expected exactly one form, found " ++ toString n
  | .emptyApplication => "Empty application"
  | .notQuotable d => "Only lists can be quoted: " ++ d.shown
  | .malformed form d => "Malformed " ++ form ++ ": " ++ d.shown
  | .invalidBinder d => "Invalid binder: " ++ d.shown
  | .invalidBinding d => "Invalid binding: " ++ d.shown
  | .invalidBindings d => "Invalid bindings: " ++ d.shown
  | .invalidCase d => "Invalid cond case: " ++ d.shown
  | .invalidType d => "Invalid type: " ++ d.shown
  | .notTypeVariable d => "Expected a type variable, found " ++ d.shown
  | .integerExpected option => option ++ " expects an integer"

end SyntaxError

end SchemeTyping
