import SchemeTyping.Datum.Reader
import SchemeTyping.Proofs.Datum.Token

/-!
# Reading back

`Datum.tokens` are the tokens of a datum, and the reader is their inverse.

## What is here

* `assemble_tokensList` — `assemble` gives data back from their tokens.
* `tokensList_of_assemble` — the data that `assemble` gives have the tokens of the text.
* `readAll_of_written` — with the scanner's side of it, data are read back from every text that they
  may be written as.

The state of `assemble` is described by the tokens that it has consumed (`consumed`), and every
token is one step (`Consumes`).
-/

set_option autoImplicit false

namespace SchemeTyping.Datum

/-- Induction on `Datum`, with a hypothesis for every member of a list. -/
@[elab_as_elim, induction_eliminator]
theorem induction {P : Datum → Prop} (bool : ∀ b, P (.bool b)) (number : ∀ n, P (.number n))
    (string : ∀ s, P (.string s)) (symbol : ∀ name, P (.symbol name))
    (quote : ∀ d, P d → P (.quote d)) (list : ∀ ds, (∀ d ∈ ds, P d) → P (.list ds))
    (d : Datum) : P d :=
  @Datum.rec P (fun ds ↦ ∀ d ∈ ds, P d) bool number string symbol quote list
    (fun _ h ↦ absurd h List.not_mem_nil)
    (fun _ _ hd hds _ h ↦ (List.mem_cons.1 h).elim (fun e ↦ e ▸ hd) (hds _)) d

/-! ## Tokens of data -/

mutual

/-- The tokens of a datum. -/
def tokens : Datum → List Token
  | .bool b => [.atom (.bool b)]
  | .number n => [.atom (.number n)]
  | .string s => [.atom (.string s)]
  | .symbol name => [.atom (.symbol name)]
  | .quote d => .quote :: d.tokens
  | .list ds => .open :: (tokensList ds ++ [.close])

/-- As `tokens`, for the data of a list. -/
def tokensList : List Datum → List Token
  | [] => []
  | d :: ds => d.tokens ++ tokensList ds

end

theorem tokensList_eq_flatMap (ds : List Datum) : tokensList ds = ds.flatMap tokens := by
  induction ds with
  | nil => rfl
  | cons d ds ih => rw [tokensList, ih, List.flatMap_cons]

theorem tokensList_append (ds es : List Datum) :
    tokensList (ds ++ es) = tokensList ds ++ tokensList es := by
  simp [tokensList_eq_flatMap]

/-! ## From tokens to data -/

/-- `assemble` gets from the state `s` to `s'` by the tokens `ts`. -/
def Consumes (ts : List Token) (s s' : List Frame × List Datum) : Prop :=
  ∀ (failure : Option SyntaxError) (placed rest : List (Token × Position)) (last : Position),
    placed.map Prod.fst = ts →
    ∃ last', assemble failure (placed ++ rest) last s.1 s.2 = assemble failure rest last' s'.1 s'.2

namespace Consumes

variable {ts ts' : List Token} {s s' s'' : List Frame × List Datum}

theorem nil (s : List Frame × List Datum) : Consumes [] s s := by
  intro failure placed rest last h
  rw [List.map_eq_nil_iff.1 h]
  exact ⟨last, rfl⟩

theorem append (h : Consumes ts s s') (h' : Consumes ts' s' s'') : Consumes (ts ++ ts') s s'' := by
  intro failure placed rest last hplaced
  obtain ⟨placed₁, placed₂, rfl, h₁, h₂⟩ := List.map_eq_append_iff.1 hplaced
  obtain ⟨last', hstep⟩ := h failure placed₁ (placed₂ ++ rest) last h₁
  rw [List.append_assoc, hstep]
  exact h' failure placed₂ rest last' h₂

/-- A single token at which `assemble` makes the same step at every position. -/
theorem single {t : Token} (h : ∀ failure p ts last,
    assemble failure ((t, p) :: ts) last s.1 s.2 = assemble failure ts p s'.1 s'.2) :
    Consumes [t] s s' := by
  intro failure placed rest last hplaced
  obtain ⟨⟨t', p⟩, rfl, rfl⟩ := List.map_eq_singleton_iff.1 hplaced
  exact ⟨p, h failure p rest last⟩

theorem atom (d : Datum) (frames : List Frame) (forms : List Datum) :
    Consumes [.atom d] (frames, forms) (deliver d frames forms) :=
  single fun _ _ _ _ ↦ by rw [assemble]

end Consumes

/-- The members of a list are delivered one by one to the list that is open. -/
theorem consumes_entries {ds : List Datum} (frames : List Frame) (forms : List Datum)
    (h : ∀ d ∈ ds, ∀ frames forms, Consumes d.tokens (frames, forms) (deliver d frames forms))
    (items : List Datum) :
    Consumes (tokensList ds) (.list items :: frames, forms)
      (.list (ds.reverse ++ items) :: frames, forms) := by
  induction ds generalizing items with
  | nil => exact .nil _
  | cons d ds ih =>
    obtain ⟨hd, hds⟩ := List.forall_mem_cons.1 h
    have htail := ih hds (d :: items)
    rw [List.reverse_cons, List.append_assoc, List.singleton_append]
    exact (hd (.list items :: frames) forms).append htail

/-- The tokens of `d` have the effect of `deliver d`. -/
theorem consumes_tokens (d : Datum) (frames : List Frame) (forms : List Datum) :
    Consumes d.tokens (frames, forms) (deliver d frames forms) := by
  induction d generalizing frames forms with
  | bool b => exact .atom _ _ _
  | number n => exact .atom _ _ _
  | string s => exact .atom _ _ _
  | symbol name => exact .atom _ _ _
  | quote d ih =>
    have hquote : Consumes [.quote] (frames, forms) (.quote :: frames, forms) :=
      .single fun _ _ _ _ ↦ by rw [assemble]
    exact hquote.append (ih (.quote :: frames) forms)
  | list ds ih =>
    have hopen : Consumes [.open] (frames, forms) (.list [] :: frames, forms) :=
      .single fun _ _ _ _ ↦ by rw [assemble]
    have hclose : Consumes [.close] (.list ds.reverse :: frames, forms)
        (deliver (.list ds) frames forms) :=
      .single fun _ _ _ _ ↦ by rw [assemble, List.reverse_reverse]
    have hentries := consumes_entries frames forms ih []
    rw [List.append_nil] at hentries
    exact hopen.append (hentries.append hclose)

theorem consumes_tokensList (ds forms : List Datum) :
    Consumes (tokensList ds) ([], forms) ([], ds.reverse ++ forms) := by
  induction ds generalizing forms with
  | nil => exact .nil _
  | cons d ds ih =>
    rw [List.reverse_cons, List.append_assoc, List.singleton_append]
    exact (consumes_tokens d [] forms).append (ih (d :: forms))

/-- `assemble` gives `ds` for the tokens of `ds`. -/
theorem assemble_tokensList {ds : List Datum} {placed : List (Token × Position)} {last : Position}
    (h : placed.map Prod.fst = tokensList ds) : assemble none placed last [] [] = .ok ds := by
  obtain ⟨last', hrun⟩ := consumes_tokensList ds [] none placed [] last h
  rw [List.append_nil] at hrun
  rw [hrun, assemble, List.append_nil, List.reverse_reverse]

/-! ## From data to tokens -/

/-- The tokens of an open frame. -/
def Frame.tokens : Frame → List Token
  | .list items => .open :: tokensList items.reverse
  | .quote => [.quote]

/-- The tokens that led to a state. -/
def consumed (frames : List Frame) (forms : List Datum) : List Token :=
  tokensList forms.reverse ++ frames.reverse.flatMap Frame.tokens

theorem consumed_deliver (d : Datum) (frames : List Frame) (forms : List Datum) :
    consumed (deliver d frames forms).1 (deliver d frames forms).2 =
      consumed frames forms ++ d.tokens := by
  fun_induction deliver d frames forms with
  | case1 d forms => simp [consumed, tokensList_append, tokensList]
  | case2 d items frames forms =>
    simp [consumed, Frame.tokens, tokensList_append, tokensList]
  | case3 d frames forms ih =>
    rw [ih]
    simp [consumed, Frame.tokens, Datum.tokens]

theorem tokens_of_sayable {d : Datum} (h : Token.Sayable d) : d.tokens = [.atom d] := by
  cases d with
  | quote d => exact h.elim
  | list ds => exact h.elim
  | _ => rfl

/-- The data that `assemble` gives have the tokens that it consumed. -/
theorem tokensList_of_assemble {failure : Option SyntaxError} {placed : List (Token × Position)}
    {last : Position} {frames : List Frame} {forms ds : List Datum}
    (hatoms : ∀ x ∈ placed, ∀ {d : Datum}, x.1 = .atom d → Token.Sayable d)
    (h : assemble failure placed last frames forms = .ok ds) :
    failure = none ∧ tokensList ds = consumed frames forms ++ placed.map Prod.fst := by
  fun_induction assemble failure placed last frames forms with
  | case1 => simp at h
  | case2 last forms hfailure =>
    cases h
    simp [consumed, hfailure]
  | case3 => simp at h
  | case4 p ts last frames forms ih =>
    obtain ⟨hfailure, htokens⟩ := ih (List.forall_mem_cons.1 hatoms).2 h
    refine ⟨hfailure, htokens.trans ?_⟩
    simp [consumed, Frame.tokens, tokensList]
  | case5 p ts last frames forms ih =>
    obtain ⟨hfailure, htokens⟩ := ih (List.forall_mem_cons.1 hatoms).2 h
    refine ⟨hfailure, htokens.trans ?_⟩
    simp [consumed, Frame.tokens]
  | case6 d p ts last frames forms next ih =>
    obtain ⟨hfailure, htokens⟩ := ih (List.forall_mem_cons.1 hatoms).2 h
    refine ⟨hfailure, htokens.trans ?_⟩
    rw [consumed_deliver, tokens_of_sayable (hatoms (.atom d, p) (by simp) rfl)]
    simp
  | case7 p ts last items frames forms next ih =>
    obtain ⟨hfailure, htokens⟩ := ih (List.forall_mem_cons.1 hatoms).2 h
    refine ⟨hfailure, htokens.trans ?_⟩
    rw [consumed_deliver]
    simp [consumed, Frame.tokens, tokens]
  | case8 => simp at h

/-- `assemble` gives `ds` for a text exactly if its tokens are those of `ds`, wherever the text
begins. -/
theorem assemble_scan_eq_ok_iff {cs : List Char} {p last : Position} {ds : List Datum} :
    assemble (Token.scan cs p).failure (Token.scan cs p).tokens last [] [] = .ok ds ↔
      (Token.scan cs p).failure = none ∧ (Token.scan cs p).tokens.map Prod.fst = tokensList ds := by
  constructor
  · intro h
    obtain ⟨hfailure, htokens⟩ := tokensList_of_assemble (fun _ h _ ↦ Token.sayable_of_mem_scan h) h
    exact ⟨hfailure, by simpa [consumed, tokensList] using htokens.symm⟩
  · rintro ⟨hfailure, htokens⟩
    rw [hfailure]
    exact assemble_tokensList htokens

/-- A text is read as `ds` exactly if its tokens are those of `ds`. -/
theorem readAll_eq_ok_iff {text : String} {ds : List Datum} : readAll text = .ok ds ↔
    (Token.scan text.toList Position.start).failure = none ∧
      (Token.scan text.toList Position.start).tokens.map Prod.fst = tokensList ds :=
  assemble_scan_eq_ok_iff

/-- **Data are read back from every text that they may be written as**: each integer in decimal
digits with or without a sign, each truth value in one of its words, the quotes and backslashes of
strings escaped, and any blanks and comments between tokens, of which only two adjacent atoms need
some. -/
theorem readAll_of_written {ds : List Datum} {text : String}
    (h : Token.Written false (tokensList ds) text.toList) : readAll text = .ok ds :=
  readAll_eq_ok_iff.2 (h.lexes Position.start)

open Token Numeral in
theorem readAll_of_written_mixed :
    Written false (tokensList [.list [.number (.exact (-7)), .quote (.symbol "1+"), .symbol "#tt"],
      .string "\""]) " (-07'1+;)\n#tt)\"\\\"\"".toList ∧
    readAll " (-07'1+;)\n#tt)\"\\\"\"" = .ok [.list [.number (.exact (-7)), .quote (.symbol "1+"),
      .symbol "#tt"], .string "\""] := by
  have hseven : Decimal ['0', '7'] 7 := (Decimal.digit (c := '0') rfl).append (c := '7') rfl
  have hsymbol : ∀ w, w ∈ [['1', '+'], ['#', 't', 't']] →
      Spelling (.symbol (String.ofList w)) w := by
    intro w hw
    have hnumber : ¬ NumberWord w := by
      rw [← isSome_read?_iff]
      revert w
      decide
    simp only [List.mem_cons, List.not_mem_nil, or_false] at hw
    rcases hw with rfl | rfl
    · exact .symbol (by simp) (List.all_eq_true.1 (by decide)) hnumber (fun b hb ↦ nomatch hb)
    · exact .symbol (by simp) (List.all_eq_true.1 (by decide)) hnumber (fun b hb ↦ nomatch hb)
  have hstring : Written false [.atom (.string "\"")] ['\x22', '\\', '\x22', '\x22'] :=
    .atom .nil (by simp) (.string (.escaped (.inr rfl) .nil)) (.nil .nil)
  have htail : Written true [.atom (.symbol "#tt"), .close, .atom (.string "\"")]
      [';', ')', '\n', '#', 't', 't', ')', '\x22', '\\', '\x22', '\x22'] :=
    .atom (@Gap.comment [')'] [] (by decide) .nil) (by simp) (hsymbol ['#', 't', 't'] (by simp))
      (.mark .nil .close hstring)
  have hquoted : Written true (.quote :: .atom (.symbol "1+") :: _) _ :=
    .mark .nil .quote (.atom .nil (by simp) (hsymbol ['1', '+'] (by simp)) htail)
  have htext : " (-07'1+;)\n#tt)\"\\\"\"".toList = [' ', '(', '-', '0', '7', '\x27', '1', '+', ';',
    ')', '\n', '#', 't', 't', ')', '\x22', '\\', '\x22', '\x22'] := by decide
  have h : Written false (tokensList [.list [.number (.exact (-7)), .quote (.symbol "1+"),
      .symbol "#tt"], .string "\""]) " (-07'1+;)\n#tt)\"\\\"\"".toList := by
    rw [htext]
    exact .mark (.blank (by decide) .nil) .open
      (.atom .nil (by simp) (.number .minus hseven (by decide)) hquoted)
  exact ⟨h, readAll_of_written h⟩

end SchemeTyping.Datum
