import SchemeTyping.Datum.Token
import SchemeTyping.Proofs.Numeral

/-!
# Written tokens

`Written after ts cs` says that the text `cs` is a way to write the tokens `ts`: every atom in one
of its spellings, and between the tokens blanks and comments, which are needed between two atoms
only.

## What is here

* `Written.lexes` — `scan` finds the tokens of every such text.  The converse does not hold of all
  texts, since an inexact number has no spelling here.
* `sayable_of_mem_scan` — an atom that `scan` returns is one that a word or a string literal stands
  for.
-/

set_option autoImplicit false

namespace SchemeTyping.Token

open Text Numeral

/-! ## Spellings -/

/-- What may be between tokens: characters with `isSkipped`, and comments up to the end of their
line. -/
inductive Gap : List Char → Prop
  | nil : Gap []
  | blank {c : Char} {cs : List Char} (hc : isSkipped c = true) (h : Gap cs) : Gap (c :: cs)
  | comment {body cs : List Char} (hbody : '\n' ∉ body) (h : Gap cs) :
      Gap (';' :: (body ++ '\n' :: cs))

/-- The words of the truth values. -/
inductive TruthWord : List Char → Bool → Prop
  | t : TruthWord ['#', 't'] true
  | true : TruthWord ['#', 't', 'r', 'u', 'e'] true
  | f : TruthWord ['#', 'f'] false
  | false : TruthWord ['#', 'f', 'a', 'l', 's', 'e'] false

/-- `StringBody s w`: the characters `s`, none of them a newline, are written `w` between double
quotes. -/
inductive StringBody : List Char → List Char → Prop
  | nil : StringBody [] []
  | plain {c : Char} {s w : List Char} (hc : c ≠ '\\' ∧ c ≠ '\x22' ∧ c ≠ '\n')
      (h : StringBody s w) : StringBody (c :: s) (c :: w)
  | escaped {c : Char} {s w : List Char} (hc : c = '\\' ∨ c = '\x22') (h : StringBody s w) :
      StringBody (c :: s) ('\\' :: c :: w)

/-- `Spelling d w`: the atom `d` may be written `w`.  Zeros in front count among the digits of an
integer. -/
inductive Spelling : Datum → List Char → Prop
  | number {s ds : List Char} {negative : Bool} {n : Nat} (hs : Sign s negative)
      (hd : Decimal ds n) (hlen : ds.length ≤ 4300) :
      Spelling (.number (.exact (if negative then -(n : Int) else n))) (s ++ ds)
  | bool {w : List Char} {b : Bool} (h : TruthWord w b) : Spelling (.bool b) w
  | string {s w : List Char} (h : StringBody s w) :
      Spelling (.string (String.ofList s)) ('\x22' :: (w ++ ['\x22']))
  | symbol {w : List Char} (hne : w ≠ []) (hw : ∀ c ∈ w, isWordChar c = true)
      (hnumber : ¬ NumberWord w) (htruth : ∀ b, ¬ TruthWord w b) :
      Spelling (.symbol (String.ofList w)) w

/-- The character of a token that is no atom. -/
inductive Mark : Token → Char → Prop
  | open : Mark .open '('
  | close : Mark .close ')'
  | quote : Mark .quote '\x27'

/-- `Written after ts cs`: the tokens `ts` may be written `cs`, in a text where `after` says whether
an atom stands right before. -/
inductive Written : Bool → List Token → List Char → Prop
  | nil {after : Bool} {gap : List Char} (hgap : Gap gap) : Written after [] gap
  | mark {after : Bool} {gap : List Char} {t : Token} {c : Char} {ts : List Token} {cs : List Char}
      (hgap : Gap gap) (ht : Mark t c) (h : Written false ts cs) :
      Written after (t :: ts) (gap ++ c :: cs)
  | atom {after : Bool} {gap : List Char} {d : Datum} {w : List Char} {ts : List Token}
      {cs : List Char} (hgap : Gap gap) (hsep : after = true → gap ≠ []) (hd : Spelling d w)
      (h : Written true ts cs) : Written after (.atom d :: ts) (gap ++ (w ++ cs))

/-! ## Word characters -/

theorem isWordChar_iff {c : Char} : isWordChar c = true ↔
    isBlank c = false ∧ c ≠ '(' ∧ c ≠ ')' ∧ c ≠ '\x27' ∧ c ≠ '\x22' ∧ c ≠ ';' := by
  simp [isWordChar, and_assoc]

theorem isSkipped_eq_false_of_isWordChar {c : Char} (hc : isWordChar c = true) :
    isSkipped c = false := by
  by_contra h
  rw [Bool.not_eq_false] at h
  simp [isWordChar, isBlank_of_isSkipped h] at hc

/-- A digit of any script is neither a blank nor a mark. -/
theorem isWordChar_of_isDigit {c : Char} (hc : isDigit c = true) : isWordChar c = true := by
  have htable : ∀ z ∈ zeros, ∀ k < 10, inRanges (z + k) blankRanges = false ∧
      z + k ∉ ['('.toNat, ')'.toNat, '\x27'.toNat, '\x22'.toNat, ';'.toNat] := by
    decide +kernel
  obtain ⟨d, hd⟩ := Option.isSome_iff_exists.1 hc
  obtain ⟨z, hz, rfl⟩ := Option.map_eq_some_iff.1 hd
  have hmem := List.mem_of_find?_eq_some hz
  have hrange := List.find?_some hz
  simp only [Bool.and_eq_true, decide_eq_true_eq] at hrange
  obtain ⟨hblank, hmarks⟩ := htable z hmem (c.toNat - z) (by omega)
  rw [show z + (c.toNat - z) = c.toNat by omega] at hblank hmarks
  refine isWordChar_iff.2 ⟨hblank, ?_⟩
  refine ⟨?_, ?_, ?_, ?_, ?_⟩ <;> rintro rfl <;> simp at hmarks

theorem isWordChar_of_sign {s : List Char} {negative : Bool} (h : Sign s negative) :
    ∀ c ∈ s, isWordChar c = true := by
  cases h <;> exact List.all_eq_true.1 (by decide)

/-! ## Words -/

theorem ofWord_of_truthWord {w : List Char} {b : Bool} (h : TruthWord w b) :
    ofWord w = .bool b := by
  cases h <;> rfl

theorem read?_of_truthWord {w : List Char} {b : Bool} (h : TruthWord w b) : read? w = none := by
  cases h <;> rfl

/-- A word other than a truth word is a number if `read?` accepts it, and a symbol otherwise. -/
theorem ofWord_of_not_truthWord {w : List Char} (h : ∀ b, ¬ TruthWord w b) :
    ofWord w = ((read? w).map fun n ↦ Datum.number n.value).getD (.symbol (String.ofList w)) := by
  have hne : ∀ {b : Bool} {w' : List Char}, TruthWord w' b →
      String.ofList w ≠ String.ofList w' := by
    intro b w' hw' heq
    exact h b (String.ofList_injective heq ▸ hw')
  rw [ofWord]
  split
  · next heq => exact absurd heq (hne .t)
  · next heq => exact absurd heq (hne .true)
  · next heq => exact absurd heq (hne .f)
  · next heq => exact absurd heq (hne .false)
  · cases read? w <;> rfl

theorem ofWord_of_decimal {s ds : List Char} {negative : Bool} {n : Nat} (hs : Sign s negative)
    (hd : Decimal ds n) (hlen : ds.length ≤ exactLimit) :
    ofWord (s ++ ds) = .number (.exact (if negative then -(n : Int) else n)) := by
  obtain ⟨numeral, hread, hvalue⟩ := Option.map_eq_some_iff.1 (value_of_decimal hs hd hlen)
  have htruth : ∀ b, ¬ TruthWord (s ++ ds) b := by
    intro b hb
    rw [read?_of_truthWord hb] at hread
    exact absurd hread (by simp)
  rw [ofWord_of_not_truthWord htruth, hread, Option.map_some, Option.getD_some, hvalue]

theorem ofWord_of_not_numberWord {w : List Char} (hnumber : ¬ NumberWord w)
    (htruth : ∀ b, ¬ TruthWord w b) : ofWord w = .symbol (String.ofList w) := by
  have hread : read? w = none := by
    rw [← Option.not_isSome_iff_eq_none, isSome_read?_iff]
    exact hnumber
  rw [ofWord_of_not_truthWord htruth, hread, Option.map_none, Option.getD_none]

/-! ## Scanning -/

theorem string?_of_stringBody {s w : List Char} (h : StringBody s w) (cs : List Char) :
    ∃ width, string? (w ++ '\x22' :: cs) = some ⟨s, width, cs⟩ := by
  induction h with
  | nil => exact ⟨1, by simp [string?]⟩
  | plain hc _ ih =>
    obtain ⟨width, ih⟩ := ih
    exact ⟨width + 1, by simp [string?, hc, ih]⟩
  | escaped hc _ ih =>
    obtain ⟨width, ih⟩ := ih
    refine ⟨width + 2, ?_⟩
    rcases hc with rfl | rfl <;> simp +decide [string?, ih]

theorem scan_string {cs : List Char} {s : StringLiteral} (h : string? cs = some s) (p : Position) :
    scan ('\x22' :: cs) p =
      (scan s.rest (p.right (s.width + 1))).cons (.atom (.string (String.ofList s.value))) p := by
  rw [scan]
  simp +decide only [if_false, if_true]
  split
  · next hnone => rw [h] at hnone; cases hnone
  · next hsome => rw [h] at hsome; cases hsome; rfl

theorem scan_unclosed {cs : List Char} (h : string? cs = none) (p : Position) :
    scan ('\x22' :: cs) p = ⟨[], some (.unreadable '\x22' p)⟩ := by
  rw [scan]
  simp +decide only [if_false, if_true]
  split
  · rfl
  · next hsome => rw [h] at hsome; cases hsome

theorem scan_word {c : Char} (hc : isWordChar c = true) (cs : List Char) (p : Position) :
    scan (c :: cs) p =
      (scan (cs.dropWhile isWordChar) (p.afterAll (c :: cs.takeWhile isWordChar))).cons
      (.atom (ofWord (c :: cs.takeWhile isWordChar))) p := by
  have hskip := isSkipped_eq_false_of_isWordChar hc
  obtain ⟨hblank, hopen, hclose, hquote, hstring, hcomment⟩ := isWordChar_iff.1 hc
  rw [scan]
  simp only [hskip, hblank, beq_iff_eq, hopen, hclose, hquote, hstring, hcomment, if_false,
    Bool.false_eq_true]

/-- `scan` finds the tokens `ts` in `cs`, to its end, wherever `cs` begins. -/
def Lexes (cs : List Char) (ts : List Token) : Prop :=
  ∀ p, (scan cs p).failure = none ∧ (scan cs p).tokens.map Prod.fst = ts

namespace Lexes

variable {cs : List Char} {ts : List Token}

theorem nil : Lexes [] [] := fun p ↦ by simp [scan]

theorem blank {c : Char} (hc : isSkipped c = true) (h : Lexes cs ts) : Lexes (c :: cs) ts := by
  intro p
  rw [scan, if_pos hc]
  exact h _

theorem comment {body : List Char} (hbody : '\n' ∉ body) (h : Lexes cs ts) :
    Lexes (';' :: (body ++ '\n' :: cs)) ts := by
  have hline : ∀ c ∈ body, (c != '\n') = true := by
    intro c hc
    rw [bne_iff_ne]
    rintro rfl
    exact hbody hc
  intro p
  rw [scan, if_neg (by decide), if_pos (by decide),
    dropWhile_append_of_head? hline (by simp)]
  exact h.blank (by decide) _

theorem gap {gap : List Char} (hgap : Gap gap) (h : Lexes cs ts) : Lexes (gap ++ cs) ts := by
  induction hgap with
  | nil => exact h
  | blank hc _ ih => exact ih.blank hc
  | @comment body gap hbody _ ih =>
    rw [List.cons_append, List.append_assoc]
    exact ih.comment hbody

theorem mark {t : Token} {c : Char} (ht : Mark t c) (h : Lexes cs ts) :
    Lexes (c :: cs) (t :: ts) := by
  intro p
  obtain ⟨hfailure, htokens⟩ := h (p.after c)
  cases ht <;> simp +decide [scan, Scan.cons, hfailure, htokens]

/-- A word ends before a character that is not one of a word. -/
theorem word {w : List Char} (hne : w ≠ []) (hw : ∀ c ∈ w, isWordChar c = true)
    (hcs : ∀ c ∈ cs.head?, isWordChar c = false) (h : Lexes cs ts) :
    Lexes (w ++ cs) (.atom (ofWord w) :: ts) := by
  obtain ⟨c, w, rfl⟩ := List.exists_cons_of_ne_nil hne
  obtain ⟨hc, hw⟩ := List.forall_mem_cons.1 hw
  intro p
  obtain ⟨hfailure, htokens⟩ := h (p.afterAll (c :: w))
  rw [List.cons_append, scan_word hc, takeWhile_append_of_head? hw hcs,
    dropWhile_append_of_head? hw hcs]
  simp [Scan.cons, hfailure, htokens]

theorem string {s w : List Char} (hw : StringBody s w) (h : Lexes cs ts) :
    Lexes ('\x22' :: (w ++ '\x22' :: cs)) (.atom (.string (String.ofList s)) :: ts) := by
  obtain ⟨width, hstring⟩ := string?_of_stringBody hw cs
  intro p
  obtain ⟨hfailure, htokens⟩ := h (p.right (width + 1))
  rw [scan_string hstring]
  simp [Scan.cons, hfailure, htokens]

/-- An atom in one of its spellings. -/
theorem atom {d : Datum} {w : List Char} (hd : Spelling d w)
    (hcs : ∀ c ∈ cs.head?, isWordChar c = false) (h : Lexes cs ts) :
    Lexes (w ++ cs) (.atom d :: ts) := by
  cases hd with
  | number hs hd hlen =>
    rw [← ofWord_of_decimal hs hd hlen]
    refine h.word (by simp [hd.ne_nil]) ?_ hcs
    intro c hc
    rcases List.mem_append.1 hc with hc | hc
    · exact isWordChar_of_sign hs c hc
    · exact isWordChar_of_isDigit (hd.isDigit c hc)
  | bool hb =>
    rw [← ofWord_of_truthWord hb]
    exact h.word (by cases hb <;> simp)
      (List.all_eq_true.1 (by cases hb <;> decide)) hcs
  | string hw => simpa using h.string hw
  | symbol hne hw hnumber htruth =>
    rw [← ofWord_of_not_numberWord hnumber htruth]
    exact h.word hne hw hcs

end Lexes

theorem Gap.head {gap : List Char} (h : Gap gap) : ∀ c ∈ gap.head?, isWordChar c = false := by
  cases h with
  | nil => simp
  | blank hc _ => simp [isWordChar, isBlank_of_isSkipped hc]
  | comment => simp +decide

namespace Written

variable {after : Bool} {ts : List Token} {cs : List Char}

/-- After an atom, `cs` does not begin with a character of a word. -/
theorem head (h : Written true ts cs) : ∀ c ∈ cs.head?, isWordChar c = false := by
  have happend : ∀ {gap rest : List Char}, Gap gap →
      (gap = [] → ∀ c ∈ rest.head?, isWordChar c = false) →
      ∀ c ∈ (gap ++ rest).head?, isWordChar c = false := by
    intro gap rest hgap hrest
    cases gap with
    | nil => exact hrest rfl
    | cons b gap => exact hgap.head
  cases h with
  | nil hgap => exact hgap.head
  | mark hgap ht _ => exact happend hgap fun _ ↦ by cases ht <;> simp +decide
  | atom hgap hsep _ _ => exact happend hgap fun hnil ↦ absurd hnil (hsep rfl)

theorem mono (h : Written true ts cs) : Written false ts cs := by
  cases h with
  | nil hgap => exact .nil hgap
  | mark hgap ht h => exact .mark hgap ht h
  | atom hgap _ hd h => exact .atom hgap (by simp) hd h

/-- **Tokens are found however they are written.**  `scan` finds the tokens `ts` in every text that
is `Written` for them. -/
theorem lexes (h : Written after ts cs) : Lexes cs ts := by
  induction h with
  | nil hgap => simpa using Lexes.nil.gap hgap
  | mark hgap ht _ ih => exact (ih.mark ht).gap hgap
  | atom hgap _ hd h ih => exact (ih.atom hd h.head).gap hgap

end Written

/-! ## The atoms of a text -/

/-- The atoms that a text can have: an integer has at most 4300 digits, and a symbol is its own
spelling. -/
def Sayable : Datum → Prop
  | .bool _ | .string _ | .number (.inexact _) => True
  | .number (.exact n) => (Nat.toDigits 10 n.natAbs).length ≤ 4300
  | .symbol name => Spelling (.symbol name) name.toList
  | .quote _ | .list _ => False

theorem Sayable.not_truthWord {name : String} (h : Sayable (.symbol name)) (b : Bool) :
    ¬ TruthWord name.toList b := by
  have hinv : ∀ {w : List Char}, Spelling (.symbol name) w → ¬ TruthWord w b := by
    intro w hw
    cases hw with
    | symbol _ _ _ htruth => exact htruth b
  exact hinv h

theorem sayable_ofWord {w : List Char} (hne : w ≠ []) (hw : ∀ c ∈ w, isWordChar c = true) :
    Sayable (ofWord w) := by
  by_cases htruth : ∃ b, TruthWord w b
  · obtain ⟨b, hb⟩ := htruth
    rw [ofWord_of_truthWord hb]
    trivial
  · rw [not_exists] at htruth
    rw [ofWord_of_not_truthWord htruth]
    cases hread : read? w with
    | some numeral =>
      rw [Option.map_some, Option.getD_some]
      cases hvalue : numeral.value with
      | exact n => exact length_toDigits_le_of_value hvalue
      | inexact x => trivial
    | none =>
      have hnumber : ¬ NumberWord w := by
        rw [← isSome_read?_iff, hread]
        simp
      rw [Option.map_none, Option.getD_none, Sayable, String.toList_ofList]
      exact .symbol hne hw hnumber htruth

theorem mem_cons_tokens {t : Token} {p : Position} {s : Scan} {x : Token × Position} :
    x ∈ (s.cons t p).tokens ↔ x = (t, p) ∨ x ∈ s.tokens := by
  simp [Scan.cons]

theorem sayable_of_mem_scan {cs : List Char} {p : Position} {x : Token × Position}
    (hx : x ∈ (scan cs p).tokens) {d : Datum} (hd : x.1 = .atom d) : Sayable d := by
  fun_induction scan cs p with
  | case1 => simp at hx
  | case2 c cs p _ ih => exact ih hx
  | case3 c cs p _ _ ih => exact ih hx
  | case4 c cs p _ _ _ ih | case5 c cs p _ _ _ _ ih | case6 c cs p _ _ _ _ _ ih =>
    rcases mem_cons_tokens.1 hx with rfl | hx
    · cases hd
    · exact ih hx
  | case7 => simp at hx
  | case8 c cs p _ _ _ _ _ _ s _ ih =>
    rcases mem_cons_tokens.1 hx with rfl | hx
    · cases hd
      trivial
    · exact ih hx
  | case9 => simp at hx
  | case10 c cs p _ hcomment hopen hclose hquote hstring hblank word ih =>
    rcases mem_cons_tokens.1 hx with rfl | hx
    · cases hd
      refine sayable_ofWord (List.cons_ne_nil _ _) (List.forall_mem_cons.2 ⟨?_, ?_⟩)
      · simp_all [isWordChar_iff]
      · exact fun _ hc ↦ List.mem_takeWhile_imp hc
    · exact ih hx

end SchemeTyping.Token
