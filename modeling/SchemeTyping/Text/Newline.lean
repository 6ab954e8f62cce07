/-!
# Line ends in files

A file may end its lines with a newline, a carriage return, or the one after the other.  Source text
has newlines only.
-/

set_option autoImplicit false

namespace SchemeTyping.Text

/-- Makes every line end a newline. -/
def newlines : List Char → List Char
  | '\r' :: '\n' :: cs => '\n' :: newlines cs
  | '\r' :: cs => '\n' :: newlines cs
  | c :: cs => c :: newlines cs
  | [] => []

/-- The text of a file with every line end a newline. -/
def ofFile (contents : String) : String := String.ofList (newlines contents.toList)

end SchemeTyping.Text
