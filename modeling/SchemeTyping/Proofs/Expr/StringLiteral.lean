import SchemeTyping.Expr.Reader
import SchemeTyping.Proofs.Datum.Text

/-!
# String literals

A string literal ends on the line it begins on, so a newline in a string has to be written as an
escape. The reader knows this escape, but `Expr.text` escapes backslashes and double quotes only.

## What is here

* `literal`, `read_literal` — every string is read from its literal on one line.
* `string?_of_newline`, `read_text_of_newline` — the text of a string with a newline is not a
  literal, because no quote in it ends the string before the line does.
-/

set_option autoImplicit false

namespace SchemeTyping

open Token

namespace Expr

/-- A character of a literal on one line: as `stringChar`, and a newline as an escape. -/
def literalChar (c : Char) : List Char := if c = '\n' then ['\\', 'n'] else stringChar c

/-- The literal of a string on one line. -/
def literal (s : String) : String :=
  "\"" ++ String.ofList (s.toList.flatMap literalChar) ++ "\""

end Expr

open SchemeTyping.Expr

/-! ## Characters -/

namespace Token

variable {c : Char} {s cs : List Char} {t : StringLiteral}

/-- An escape contributes `unescape c` in front of the string that follows. -/
theorem string?_escape (hc : c ≠ '\n') (h : string? cs = some t) :
    string? ('\\' :: c :: cs) =
      some { t with value := unescape c :: t.value, width := t.width + 2 } := by
  simp [string?, hc, h]

theorem string?_plain (hc : c ≠ '\\' ∧ c ≠ '\x22' ∧ c ≠ '\n') (h : string? cs = some t) :
    string? (c :: cs) = some { t with value := c :: t.value, width := t.width + 1 } := by
  simp [string?, hc, h]

theorem stringChar_cases (c : Char) :
    stringChar c = ['\\', c] ∧ (c = '\\' ∨ c = '\x22') ∨
      stringChar c = [c] ∧ c ≠ '\\' ∧ c ≠ '\x22' := by
  rw [stringChar]
  split
  · next h => exact .inl ⟨rfl, by simpa using h⟩
  · next h => exact .inr ⟨rfl, by simpa using h⟩

/-- `string?` reads the literal of `s`, whatever follows it. -/
theorem string?_literal (s cs : List Char) :
    ∃ width, string? (s.flatMap literalChar ++ '\x22' :: cs) = some ⟨s, width, cs⟩ := by
  induction s with
  | nil => exact ⟨1, by simp [string?]⟩
  | cons c s ih =>
    obtain ⟨width, ih⟩ := ih
    rw [List.flatMap_cons, List.append_assoc, literalChar]
    split
    · next hc =>
      subst hc
      exact ⟨width + 2, string?_escape (c := 'n') (by decide) ih⟩
    · next hc =>
      rcases stringChar_cases c with ⟨heq, hesc⟩ | ⟨heq, hplain⟩
      · have hself : unescape c = c := by rcases hesc with rfl | rfl <;> rfl
        rw [heq]
        refine ⟨width + 2, (string?_escape hc ih).trans ?_⟩
        rw [hself]
      · rw [heq]
        exact ⟨width + 1, string?_plain ⟨hplain.1, hplain.2, hc⟩ ih⟩

/-- `string?` fails on the text of a string with a newline. -/
theorem string?_of_newline (h : '\n' ∈ s) (cs : List Char) :
    string? (s.flatMap stringChar ++ cs) = none := by
  induction s with
  | nil => simp at h
  | cons c s ih =>
    rw [List.flatMap_cons, List.append_assoc]
    rcases stringChar_cases c with ⟨heq, hesc⟩ | ⟨heq, hplain⟩
    · have hc : c ≠ '\n' := by rcases hesc with rfl | rfl <;> decide
      have hrest := ih ((List.mem_cons.1 h).resolve_left hc.symm)
      simp [heq, string?, hc, hrest]
    · rw [heq]
      by_cases hc : c = '\n'
      · simp [string?, hc]
      · have hrest := ih ((List.mem_cons.1 h).resolve_left fun h ↦ hc h.symm)
        simp [string?, hplain, hc, hrest]

end Token

/-! ## Texts -/

namespace Expr

/-- Every string is read from its literal. -/
theorem read_literal (s : String) : read (literal s) = .ok (.string s) := by
  obtain ⟨width, hstring⟩ := string?_literal s.toList []
  have htext : (literal s).toList = '\x22' :: (s.toList.flatMap literalChar ++ ['\x22']) := by
    simp [literal]
  have hdata : Datum.readAll (literal s) = .ok [.string s] := by
    obtain ⟨hfailure, htokens⟩ := Lexes.nil (Position.start.right (width + 1))
    rw [Datum.readAll_eq_ok_iff, htext, scan_string hstring]
    simp [Scan.cons, Datum.tokensList, Datum.tokens, hfailure, htokens]
  rw [read, Datum.read, hdata]
  rfl

theorem text_string (s : String) : (Expr.string s).text = stringText s := rfl

/-- `read` fails at the first character of the text of a string with a newline. -/
theorem read_text_of_newline {s : String} (h : '\n' ∈ s.toList) :
    read (Expr.string s).text = .error (.unreadable '\x22' Position.start) := by
  have htext :
      (Expr.string s).text.toList = '\x22' :: (s.toList.flatMap stringChar ++ ['\x22']) := by
    rw [text_string]
    simp [stringText]
  have hdata : Datum.readAll (Expr.string s).text = .error (.unreadable '\x22' Position.start) := by
    rw [Datum.readAll, htext, scan_unclosed (string?_of_newline h _)]
    rfl
  rw [read, Datum.read, hdata]
  rfl

/-- **Which strings are read back from their text.**  Every string is read from some source text.  A
string without a newline is read back from `(Expr.string s).text`; the text of any other string
cannot be read. -/
theorem read_string_text (s : String) :
    (∃ source, read source = .ok (.string s)) ∧
    read (Expr.string s).text =
      if '\n' ∈ s.toList then .error (.unreadable '\x22' Position.start) else .ok (.string s) := by
  refine ⟨⟨literal s, read_literal s⟩, ?_⟩
  split
  · next h => exact read_text_of_newline h
  · next h =>
    have hdatum : Datum.read (stringText s) = .ok (.string s) :=
      Datum.read_text (d := .string s) (Datum.atoms_string.2 (Datum.legible_string h))
    rw [read, text_string, hdatum]
    rfl

/-- A literal with an escaped newline is read, and its text is not. -/
theorem read_escaped_newline : read "\"a\\nb\"" = .ok (.string "a\nb") ∧
    (Expr.string "a\nb").text = "\"a\nb\"" ∧
    read "\"a\nb\"" = .error (.unreadable '\x22' Position.start) :=
  ⟨read_literal "a\nb", by decide, read_text_of_newline (s := "a\nb") (by decide)⟩

end Expr

end SchemeTyping
