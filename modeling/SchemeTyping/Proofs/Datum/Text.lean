import SchemeTyping.Expr.Printer
import SchemeTyping.Proofs.Datum.Reader

/-!
# The plain text of a datum

`Datum.text` writes a datum with single blanks between the members of a list.  If the atoms are
`Legible`, which is to say spelled by their own text, the datum is read back from it (`read_text`).
The atoms that the reader returns are legible, except inexact numbers and strings with a newline.
-/

set_option autoImplicit false

namespace SchemeTyping.Datum

open Token

/-! ## Atoms -/

/-- Every atom of `d` satisfies `P`. -/
def Atoms (P : Datum → Prop) (d : Datum) : Prop := ∀ a, Token.atom a ∈ d.tokens → P a

section Atoms

variable {P : Datum → Prop}

@[simp] theorem atoms_bool {b : Bool} : (bool b).Atoms P ↔ P (bool b) := by simp [Atoms, tokens]

@[simp] theorem atoms_number {n : Number} : (number n).Atoms P ↔ P (number n) := by
  simp [Atoms, tokens]

@[simp] theorem atoms_string {s : String} : (string s).Atoms P ↔ P (string s) := by
  simp [Atoms, tokens]

@[simp] theorem atoms_symbol {name : String} : (symbol name).Atoms P ↔ P (symbol name) := by
  simp [Atoms, tokens]

@[simp] theorem atoms_quote {d : Datum} : (quote d).Atoms P ↔ d.Atoms P := by
  simp [Atoms, tokens]

@[simp] theorem atoms_list {ds : List Datum} : (list ds).Atoms P ↔ ∀ d ∈ ds, d.Atoms P := by
  simp only [Atoms, tokens, tokensList_eq_flatMap, List.mem_cons, List.mem_append, List.mem_flatMap,
    List.not_mem_nil, or_false, reduceCtorEq, false_or]
  constructor
  · intro h d hd a ha
    exact h a ⟨d, hd, ha⟩
  · rintro h a ⟨d, hd, ha⟩
    exact h d hd a ha

theorem atoms_cons {d : Datum} {ds : List Datum} :
    (list (d :: ds)).Atoms P ↔ d.Atoms P ∧ ∀ e ∈ ds, e.Atoms P := by
  rw [atoms_list, List.forall_mem_cons]

end Atoms

/-- The atoms of a datum that was read are `Sayable`. -/
theorem sayable_of_read {text : String} {d : Datum} (h : read text = .ok d) : d.Atoms Sayable := by
  have hread : readAll text = .ok [d] := by
    rw [read] at h
    cases hds : readAll text with
    | error e => simp [hds, bind, Except.bind] at h
    | ok ds =>
      rw [hds] at h
      simp only [bind, Except.bind] at h
      split at h
      · cases h
        rfl
      · cases h
  obtain ⟨-, htokens⟩ := readAll_eq_ok_iff.1 hread
  intro a ha
  have hmem : Token.atom a ∈ tokensList [d] := by simpa [tokensList] using ha
  rw [← htokens] at hmem
  obtain ⟨x, hx, hatom⟩ := List.mem_map.1 hmem
  exact sayable_of_mem_scan hx hatom

/-! ## Texts -/

mutual

/-- The datum as source text. -/
def text : Datum → String
  | .bool b => if b then "#t" else "#f"
  | .number n => n.text
  | .string s => Expr.stringText s
  | .symbol name => name
  | .quote d => "'" ++ d.text
  | .list ds => "(" ++ " ".intercalate (texts ds) ++ ")"

/-- As `text`, for the data of a list. -/
def texts : List Datum → List String
  | [] => []
  | d :: ds => d.text :: texts ds

end

theorem texts_eq_map (ds : List Datum) : texts ds = ds.map text := by
  induction ds with
  | nil => rfl
  | cons d ds ih => rw [texts, ih, List.map_cons]

/-- The text of the atom is one of its spellings. -/
def Legible (a : Datum) : Prop := Spelling a a.text.toList

theorem stringBody_flatMap_stringChar {s : List Char} (hs : '\n' ∉ s) :
    StringBody s (s.flatMap Expr.stringChar) := by
  induction s with
  | nil => exact .nil
  | cons c s ih =>
    obtain ⟨hc, hs⟩ := not_or.1 (mt List.mem_cons.2 hs)
    rw [List.flatMap_cons, Expr.stringChar]
    split
    · next hesc => exact .escaped (by simpa using hesc) (ih hs)
    · next hesc =>
      refine .plain ?_ (ih hs)
      simp only [Bool.or_eq_true, beq_iff_eq, not_or] at hesc
      exact ⟨hesc.1, hesc.2, fun h ↦ hc h.symm⟩

theorem legible_string {s : String} (hs : '\n' ∉ s.toList) : Legible (.string s) := by
  have h := Spelling.string (stringBody_flatMap_stringChar hs)
  rw [String.ofList_toList] at h
  simpa [Legible, text, Expr.stringText] using h

theorem legible_bool (b : Bool) : Legible (.bool b) := by
  cases b
  · exact .bool .f
  · exact .bool .t

theorem legible_exact {n : Int} (hn : Sayable (.number (.exact n))) :
    Legible (.number (.exact n)) := by
  have hd := Numeral.decimal_toDigits n.natAbs
  rw [Legible, text, Number.text, Int.toString_eq_repr, Int.repr_eq_if]
  split
  · next hnonneg =>
    have h := Spelling.number .none hd hn
    rw [if_neg (by simp), Int.natAbs_of_nonneg hnonneg] at h
    rw [Nat.toList_repr, show n.toNat = n.natAbs by omega]
    exact h
  · next hneg =>
    have h := Spelling.number .minus hd hn
    rw [if_pos rfl, Int.ofNat_natAbs_of_nonpos (by omega), Int.neg_neg] at h
    rw [String.toList_append, Nat.toList_repr, show (-n).toNat = n.natAbs by omega]
    exact h

/-- A word that is read as the symbol with its name is legible. -/
theorem legible_word {name : String} (hne : name.toList ≠ [])
    (hw : name.toList.all isWordChar = true) (h : ofWord name.toList = .symbol name) :
    Legible (.symbol name) := by
  have hsayable := sayable_ofWord hne (List.all_eq_true.1 hw)
  rw [h] at hsayable
  exact hsayable

theorem legible_of_symbol {name : String} (h : (symbol name).Atoms Sayable) :
    (symbol name).Atoms Legible := by
  rw [atoms_symbol] at h ⊢
  exact h

/-! ## Reading the text -/

/-- `d` is written by its text, whatever is before and after it. -/
def WrittenByText (d : Datum) : Prop :=
  ∀ {after : Bool} {gap cs : List Char} {ts : List Token}, Gap gap → (after = true → gap ≠ []) →
    Written true ts cs → Written after (d.tokens ++ ts) (gap ++ (d.text.toList ++ cs))

theorem toList_intercalate_cons_cons (d e : Datum) (ds : List Datum) :
    (" ".intercalate (texts (d :: e :: ds))).toList =
      d.text.toList ++ ([' '] ++ (" ".intercalate (texts (e :: ds))).toList) := by
  simp [texts, String.intercalate_cons_cons]

/-- The members of a list are written by their texts, with blanks between them. -/
theorem written_texts {ds : List Datum} (hds : ∀ d ∈ ds, d.WrittenByText) {gap cs : List Char}
    {ts : List Token} {after : Bool} (hgap : Gap gap) (hsep : after = true → gap ≠ [])
    (hne : ds ≠ []) (h : Written true ts cs) :
    Written after (tokensList ds ++ ts) (gap ++ ((" ".intercalate (texts ds)).toList ++ cs)) := by
  induction ds generalizing gap after with
  | nil => exact absurd rfl hne
  | cons d ds ih =>
    obtain ⟨hd, hds⟩ := List.forall_mem_cons.1 hds
    cases ds with
    | nil => simpa [tokensList, texts] using hd hgap hsep h
    | cons e ds =>
      have htail : Written true _ ([' '] ++ _) :=
        ih hds (.blank (by decide) .nil) (by simp) (by simp)
      rw [toList_intercalate_cons_cons, tokensList, List.append_assoc, List.append_assoc,
        List.append_assoc]
      exact hd hgap hsep htail

/-- A datum with legible atoms is `WrittenByText`. -/
theorem writtenByText {d : Datum} (hd : d.Atoms Legible) : d.WrittenByText := by
  intro after gap cs ts hgap hsep h
  induction d generalizing after gap cs ts with
  | bool b => exact .atom hgap hsep (atoms_bool.1 hd) h
  | number n => exact .atom hgap hsep (atoms_number.1 hd) h
  | string s => exact .atom hgap hsep (atoms_string.1 hd) h
  | symbol name => exact .atom hgap hsep (atoms_symbol.1 hd) h
  | quote d ih =>
    have hquoted : Written false _ ([] ++ _) := ih (atoms_quote.1 hd) .nil (by simp) h
    simpa [tokens, text] using Written.mark hgap .quote hquoted
  | list ds ih =>
    rw [atoms_list] at hd
    -- the last entry may end right before the parenthesis, even if it is an atom
    have hclose : Written true (.close :: ts) (')' :: cs) := .mark .nil .close h.mono
    have hentries : Written false (tokensList ds ++ .close :: ts)
        ((" ".intercalate (texts ds)).toList ++ ')' :: cs) := by
      cases ds with
      | nil => exact hclose.mono
      | cons e es =>
        have hes : ∀ d ∈ e :: es, d.WrittenByText := fun d hmem _ _ _ _ ↦ ih d hmem (hd d hmem)
        exact written_texts hes .nil (by simp) (by simp) hclose
    simpa [tokens, text] using Written.mark hgap .open hentries

/-- A datum with legible atoms is read back from its text. -/
theorem read_text {d : Datum} (hd : d.Atoms Legible) : read d.text = .ok d := by
  have hwritten : Written false (tokensList [d]) d.text.toList := by
    have h : Written false (d.tokens ++ []) ([] ++ (d.text.toList ++ [])) :=
      writtenByText hd .nil (by simp) (.nil .nil)
    simpa [tokensList] using h
  rw [read, readAll_eq_ok_iff.2 (hwritten.lexes Position.start)]
  rfl

end SchemeTyping.Datum
