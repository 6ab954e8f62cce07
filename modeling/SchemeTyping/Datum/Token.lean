import SchemeTyping.SyntaxError
import SchemeTyping.Text.Blank

/-!
# Tokens

Source text as a row of parentheses, quote marks and atoms, each with its place.  Blanks of the
class `Text.isSkipped` and comments, from a semicolon to the end of the line, separate tokens and
leave no trace.

A word is as long as possible: it ends at a blank, a parenthesis, a quote mark, a double quote or a
semicolon.  Whether it is a truth value, a number or a symbol is decided on the whole word.

`scan` stops at the first character that it cannot take.  What was read before it is kept, because
a text can have an earlier fault that only shows when the tokens are put together.
-/

set_option autoImplicit false

namespace SchemeTyping

open Text

/-- A parenthesis, a quote mark or an atom. -/
inductive Token
  | open
  | close
  | quote
  | atom (datum : Datum)
  deriving Inhabited

namespace Token

/-- The characters that a word is made of. -/
def isWordChar (c : Char) : Bool :=
  !isBlank c && c != '(' && c != ')' && c != '\x27' && c != '\x22' && c != ';'

/-- A word as a truth value, a number or else a symbol. -/
def ofWord (word : List Char) : Datum :=
  match String.ofList word with
  | "#t" | "#true" => .bool true
  | "#f" | "#false" => .bool false
  | name =>
    match Numeral.read? word with
    | some n => .number n.value
    | none => .symbol name

/-! ## Strings -/

/-- The character that a backslash and `c` stand for. -/
def unescape (c : Char) : Char :=
  if c == 'n' then '\n' else if c == 't' then '\t' else if c == 'r' then '\r' else c

/-- A string literal without its opening quote: what it says, how many characters it is written
with, the closing quote included, and what follows it. -/
structure StringLiteral where
  value : List Char
  width : Nat
  rest : List Char

/-- Reads on after an opening quote.  A string ends at a quote without a backslash before it and
stays on its line. -/
def string? : List Char → Option StringLiteral
  | [] => none
  | '\\' :: c :: cs =>
    if c == '\n' then none
    else (string? cs).map fun s ↦ { s with value := unescape c :: s.value, width := s.width + 2 }
  | c :: cs =>
    if c == '\x22' then some ⟨[], 1, cs⟩
    else if c == '\n' then none
    else (string? cs).map fun s ↦ { s with value := c :: s.value, width := s.width + 1 }

theorem length_rest_lt {cs : List Char} {s : StringLiteral} (h : string? cs = some s) :
    s.rest.length < cs.length := by
  fun_induction string? cs generalizing s with
  | case1 => simp at h
  | case2 => simp at h
  | case3 c cs _ ih =>
    obtain ⟨t, ht, rfl⟩ := Option.map_eq_some_iff.1 h
    have := ih ht
    simp only [List.length_cons]
    omega
  | case4 c cs _ _ => cases h; simp
  | case5 => simp at h
  | case6 c cs _ _ _ ih =>
    obtain ⟨t, ht, rfl⟩ := Option.map_eq_some_iff.1 h
    have := ih ht
    simp only [List.length_cons]
    omega

/-! ## Scanning -/

/-- The tokens up to the end of the text or to the first unreadable character. -/
structure Scan where
  tokens : List (Token × Position)
  failure : Option SyntaxError
  deriving Inhabited

/-- Puts a token in front. -/
def Scan.cons (t : Token) (p : Position) (s : Scan) : Scan :=
  { s with tokens := (t, p) :: s.tokens }

theorem length_dropWhile_le (p : Char → Bool) (cs : List Char) :
    (cs.dropWhile p).length ≤ cs.length :=
  (List.dropWhile_suffix p).length_le

/-- The tokens of a text that begins at the given place. -/
def scan : List Char → Position → Scan
  | [], _ => ⟨[], none⟩
  | c :: cs, p =>
    if isSkipped c then scan cs (p.after c)
    else if c == ';' then
      scan (cs.dropWhile (· != '\n')) (p.afterAll (c :: cs.takeWhile (· != '\n')))
    else if c == '(' then (scan cs (p.after c)).cons .open p
    else if c == ')' then (scan cs (p.after c)).cons .close p
    else if c == '\x27' then (scan cs (p.after c)).cons .quote p
    else if c == '\x22' then
      match h : string? cs with
      | none => ⟨[], some (.unreadable c p)⟩
      | some s =>
        (scan s.rest (p.right (s.width + 1))).cons (.atom (.string (String.ofList s.value))) p
    else if isBlank c then ⟨[], some (.unreadable c p)⟩
    else
      let word := c :: cs.takeWhile isWordChar
      (scan (cs.dropWhile isWordChar) (p.afterAll word)).cons (.atom (ofWord word)) p
termination_by cs => cs.length
decreasing_by
  all_goals simp only [List.length_cons]
  · omega
  · have := length_dropWhile_le (· != '\n') cs
    omega
  · omega
  · omega
  · omega
  · have := length_rest_lt h
    omega
  · have := length_dropWhile_le isWordChar cs
    omega

end Token

end SchemeTyping
