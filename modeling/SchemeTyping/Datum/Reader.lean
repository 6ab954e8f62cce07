import SchemeTyping.Datum.Token

/-!
# Reading data

The tokens of a text are put together from left to right.  `Frame` is what is open at some point: a
list with the data read so far, or a quote mark that waits for its datum.  Every token does one step
on the row of open frames, so reading is a single pass over the tokens.
-/

set_option autoImplicit false

namespace SchemeTyping.Datum

/-- Something that has begun and not ended yet. -/
inductive Frame
  /-- A list, the last datum first. -/
  | list (items : List Datum)
  /-- A quote mark. -/
  | quote
  deriving Inhabited

/-- Gives a finished datum to the innermost open list, or to the forms of the text when no list is
open.  It is quoted on the way by every quote mark that waits for it. -/
def deliver : Datum → List Frame → List Datum → List Frame × List Datum
  | d, [], forms => ([], d :: forms)
  | d, .list items :: frames, forms => (.list (d :: items) :: frames, forms)
  | d, .quote :: frames, forms => deliver (.quote d) frames forms

/-- Puts the remaining tokens together.  `last` is the place of the token before them, `forms` are
the finished forms of the text, the last one first. -/
def assemble (failure : Option SyntaxError) :
    List (Token × Position) → Position → List Frame → List Datum →
      Except SyntaxError (List Datum)
  | [], last, frames, forms =>
    match failure, frames with
    | some e, _ => .error e
    | none, [] => .ok forms.reverse
    | none, _ :: _ => .error (.unexpectedEnd last)
  | (.open, p) :: ts, _, frames, forms => assemble failure ts p (.list [] :: frames) forms
  | (.quote, p) :: ts, _, frames, forms => assemble failure ts p (.quote :: frames) forms
  | (.atom d, p) :: ts, _, frames, forms =>
    let next := deliver d frames forms
    assemble failure ts p next.1 next.2
  | (.close, p) :: ts, _, .list items :: frames, forms =>
    let next := deliver (.list items.reverse) frames forms
    assemble failure ts p next.1 next.2
  | (.close, p) :: _, _, _, _ => .error (.unexpectedClose p)

/-- All the forms of a text. -/
def readAll (text : String) : Except SyntaxError (List Datum) :=
  let scanned := Token.scan text.toList Position.start
  assemble scanned.failure scanned.tokens Position.start [] []

/-- The only form of a text. -/
def read (text : String) : Except SyntaxError Datum := do
  match ← readAll text with
  | [d] => return d
  | ds => throw (.formCount ds.length)

end SchemeTyping.Datum
