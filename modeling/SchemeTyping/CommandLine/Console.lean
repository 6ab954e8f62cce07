import SchemeTyping.Text.Width

/-!
# What the console shows

The console understands markup: a word in brackets that begins with a lower-case letter, `#`, `/` or
`@` is a tag.  Output is protected against that, so that tags stay visible, and the protection
leaves two traces: a backslash right before a bracket that opens no tag disappears, and a backslash
alone at the end is doubled.  Some control characters are dropped, and tabs fill up to the next
column that is a multiple of eight.
-/

set_option autoImplicit false

namespace SchemeTyping.Console

/-- Whether the text after an opening bracket makes it a tag. -/
def opensTag : List Char → Bool
  | [] => false
  | c :: cs =>
    (('a' ≤ c && c ≤ 'z') || c == '#' || c == '/' || c == '@')
      && (cs.find? fun d ↦ d == '[' || d == ']') == some ']'

/-- Drops every backslash before a bracket that opens no tag. -/
def unescapeBrackets : List Char → List Char
  | '\\' :: '[' :: cs =>
    if opensTag cs then '\\' :: '[' :: unescapeBrackets cs else '[' :: unescapeBrackets cs
  | c :: cs => c :: unescapeBrackets cs
  | [] => []

/-- Doubles a backslash that stands alone at the end. -/
def doubleLast (cs : List Char) : List Char :=
  match cs.reverse with
  | '\\' :: '\\' :: _ => cs
  | '\\' :: _ => cs ++ ['\\']
  | _ => cs

/-- The control characters that are not shown: bell, backspace, vertical tab, form feed and carriage
return. -/
def isDropped (c : Char) : Bool :=
  c == '\x07' || c == '\x08' || c == '\x0b' || c == '\x0c' || c == '\r'

/-- Joins the parts of a line that tabs divide.  Each tab becomes at least one blank, and as many as
reach the next column that is a multiple of eight; `column` columns are already taken. -/
def expandTabs (column : Nat) : List (List Char) → List Char
  | [] => []
  | [part] => part
  | part :: parts =>
    let shown := part ++ [' ']
    let reached := column + Text.width shown
    let fill := (8 - reached % 8) % 8
    shown ++ List.replicate fill ' ' ++ expandTabs (reached + fill) parts

/-- The lines that a text makes on the console. -/
def display (text : String) : List String :=
  let cs := (doubleLast (unescapeBrackets text.toList)).filter fun c ↦ !isDropped c
  ((String.ofList cs).splitOn "\n").map fun line ↦
    String.ofList (expandTabs 0 ((line.splitOn "\t").map String.toList))

end SchemeTyping.Console
