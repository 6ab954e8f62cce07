import SchemeTyping.Expr.Printer
import SchemeTyping.Expr.Reader
import SchemeTyping.Proofs.Expr
import SchemeTyping.Proofs.Ty.Text

/-!
# Expressions as source text

## What is here

* `Understood d e` — one step of `Expr.ofDatum`, with `ofDatum` for the parts as premises.
* `Expr.toDatum` — the datum whose text is `e.text` (`text_toDatum`).
* `Writable`, `ReadBack` — a writable expression that was read is read again from `e.toDatum`
  (`Writable.readBack`), and so from its text (`read_text_of_read`).  There is one lemma for each
  kind of expression, with the property of its parts as a premise.

Not every expression has that property: a variable may not have the name of a hole, and a call may
not call a variable that has the name of a special form.  That the expression was read rules this
out.
-/

set_option autoImplicit false

namespace SchemeTyping.Expr

open Datum Token

/-! ## One step of `ofDatum` -/

/-- `Pair first d b`: the datum `d` is a list of two, of which `first` reads `b.1` and `ofDatum`
reads `b.2`. -/
def Pair (first : Datum → Except SyntaxError Expr) (d : Datum) (b : Expr × Expr) : Prop :=
  ∃ x y, d = .list [x, y] ∧ first x = .ok b.1 ∧ ofDatum y = .ok b.2

/-- `Understood d e`: `ofDatum` makes `e` of `d`, by one of its branches. -/
inductive Understood : Datum → Expr → Prop
  | bool {b : Bool} : Understood (.bool b) (.bool b)
  | number {n : Number} : Understood (.number n) (.number n)
  | string {s : String} : Understood (.string s) (.string s)
  | hole {name : String} (h : isHoleName name = true) : Understood (.symbol name) .hole
  | var {name : String} (h : isHoleName name = false) : Understood (.symbol name) (.var name)
  | null : Understood (.quote (.list [])) .null
  | list {ds : List Datum} {es : List Expr} (hne : ds ≠ [])
      (h : List.Forall₂ (fun d e ↦ ofDatum d = .ok e) ds es) :
      Understood (.quote (.list ds)) (.list es)
  | call {head : Datum} {called : Expr} {ds : List Datum} {args : List Expr}
      (hhead : Form.ofHead? head = none) (hcalled : ofDatum head = .ok called)
      (hargs : List.Forall₂ (fun d e ↦ ofDatum d = .ok e) ds args) :
      Understood (.list (head :: ds)) (.call called args)
  | define {word : String} {x y : Datum} {name value : Expr}
      (hword : Form.ofName? word = some .define) (hname : binderOfDatum x = .ok name)
      (hvalue : ofDatum y = .ok value) :
      Understood (.list [.symbol word, x, y]) (.define name value)
  | letIn {word : String} {ds : List Datum} {y : Datum} {bindings : List (Expr × Expr)}
      {body : Expr} (hword : Form.ofName? word = some .letIn)
      (hbindings : List.Forall₂ (Pair binderOfDatum) ds bindings) (hbody : ofDatum y = .ok body) :
      Understood (.list [.symbol word, .list ds, y]) (.letIn bindings body)
  | letrec {word : String} {ds : List Datum} {y : Datum} {bindings : List (Expr × Expr)}
      {body : Expr} (hword : Form.ofName? word = some .letrec)
      (hbindings : List.Forall₂ (Pair binderOfDatum) ds bindings) (hbody : ofDatum y = .ok body) :
      Understood (.list [.symbol word, .list ds, y]) (.letrec bindings body)
  | lambda {word : String} {ds : List Datum} {y : Datum} {params : List Expr} {body : Expr}
      (hword : Form.ofName? word = some .lambda)
      (hparams : List.Forall₂ (fun d e ↦ binderOfDatum d = .ok e) ds params)
      (hbody : ofDatum y = .ok body) :
      Understood (.list [.symbol word, .list ds, y]) (.lambda params body)
  | sequence {word : String} {ds : List Datum} {es : List Expr}
      (hword : Form.ofName? word = some .sequence)
      (h : List.Forall₂ (fun d e ↦ ofDatum d = .ok e) ds es) :
      Understood (.list (.symbol word :: ds)) (.sequence es)
  | branch {word : String} {x y z : Datum} {c t e : Expr}
      (hword : Form.ofName? word = some .branch) (hc : ofDatum x = .ok c) (ht : ofDatum y = .ok t)
      (he : ofDatum z = .ok e) : Understood (.list [.symbol word, x, y, z]) (.branch c t e)
  | cond {word : String} {ds : List Datum} {cases : List (Expr × Expr)}
      (hword : Form.ofName? word = some .cond)
      (hcases : List.Forall₂ (Pair ofDatum) ds cases) :
      Understood (.list (.symbol word :: ds)) (.cond cases)

theorem ofData_eq_ok_iff {ds : List Datum} {es : List Expr} :
    ofData ds = .ok es ↔ List.Forall₂ (fun d e ↦ ofDatum d = .ok e) ds es := by
  induction ds generalizing es with
  | nil => simp [ofData, eq_comm]
  | cons d ds ih =>
    simp only [ofData, bind_eq_ok_iff, pure_eq_ok_iff, List.forall₂_cons_left_iff, ih]
    grind

/-- A reader `row` of bindings or of the cases of a `cond` reads each datum as a `Pair`. -/
theorem pairs_eq_ok_iff {first : Datum → Except SyntaxError Expr}
    {row : List Datum → Except SyntaxError (List (Expr × Expr))} (hnil : row [] = .ok [])
    (hpair : ∀ x y ds, row (.list [x, y] :: ds) = do
      let a ← first x
      let b ← ofDatum y
      return (a, b) :: (← row ds))
    (hother : ∀ d ds bs, (∀ x y, d ≠ .list [x, y]) → row (d :: ds) ≠ .ok bs)
    {ds : List Datum} {bs : List (Expr × Expr)} :
    row ds = .ok bs ↔ List.Forall₂ (Pair first) ds bs := by
  induction ds generalizing bs with
  | nil => simp [hnil, eq_comm]
  | cons d ds ih =>
    by_cases hd : ∃ x y, d = .list [x, y]
    · obtain ⟨x, y, rfl⟩ := hd
      simp only [hpair, bind_eq_ok_iff, pure_eq_ok_iff, List.forall₂_cons_left_iff, ih, Pair]
      grind
    · simp only [not_exists] at hd
      simp only [hother d ds bs hd, false_iff, List.forall₂_cons_left_iff, not_exists, not_and]
      rintro b bs ⟨x, y, heq, -⟩ -
      exact absurd heq (hd x y)

theorem bindingsOfData_eq_ok_iff {ds : List Datum} {bindings : List (Expr × Expr)} :
    bindingsOfData ds = .ok bindings ↔ List.Forall₂ (Pair binderOfDatum) ds bindings :=
  pairs_eq_ok_iff (by rw [bindingsOfData]) (fun x y ds ↦ by rw [bindingsOfData])
    fun d ds bs hd ↦ by rw [bindingsOfData.eq_3 _ _ hd]; simp

theorem casesOfData_eq_ok_iff {ds : List Datum} {cases : List (Expr × Expr)} :
    casesOfData ds = .ok cases ↔ List.Forall₂ (Pair ofDatum) ds cases :=
  pairs_eq_ok_iff (by rw [casesOfData]) (fun x y ds ↦ by rw [casesOfData])
    fun d ds bs hd ↦ by rw [casesOfData.eq_3 _ _ hd]; simp

theorem bindingsOfDatum_eq_ok_iff {d : Datum} {bindings : List (Expr × Expr)} :
    bindingsOfDatum d = .ok bindings ↔
      ∃ ds, d = .list ds ∧ List.Forall₂ (Pair binderOfDatum) ds bindings := by
  rw [bindingsOfDatum.eq_def]
  split
  · next ds => simp [bindingsOfData_eq_ok_iff]
  · next h => simpa using fun ds heq ↦ absurd heq (h ds)

theorem ofHead?_eq_some_iff {d : Datum} {word : String} {form : Form} :
    Form.ofHead? d = some (word, form) ↔ d = .symbol word ∧ Form.ofName? word = some form := by
  cases d with
  | symbol name => simp [Form.ofHead?]; grind
  | _ => simp [Form.ofHead?]

theorem understood_of_ofDatum {d : Datum} {e : Expr} (h : ofDatum d = .ok e) : Understood d e := by
  rw [ofDatum.eq_def] at h
  split at h
  · cases h
    exact .bool
  · cases h
    exact .number
  · cases h
    exact .string
  · next name =>
    split at h
    · next hhole =>
      cases h
      exact .hole hhole
    · next hhole =>
      cases h
      exact .var (by simpa using hhole)
  · cases h
    exact .null
  · next d ds =>
    obtain ⟨e, he, h⟩ := bind_eq_ok_iff.1 h
    obtain ⟨es, hes, h⟩ := bind_eq_ok_iff.1 h
    cases h
    exact .list (by simp) (.cons he (ofData_eq_ok_iff.1 hes))
  · cases h
  · cases h
  · next head ds =>
    split at h
    · next hhead =>
      obtain ⟨called, hcalled, h⟩ := bind_eq_ok_iff.1 h
      obtain ⟨args, hargs, h⟩ := bind_eq_ok_iff.1 h
      cases h
      exact .call hhead hcalled (ofData_eq_ok_iff.1 hargs)
    · next word form hhead =>
      obtain ⟨rfl, hword⟩ := ofHead?_eq_some_iff.1 hhead
      split at h
      · obtain ⟨name, hname, h⟩ := bind_eq_ok_iff.1 h
        obtain ⟨value, hvalue, h⟩ := bind_eq_ok_iff.1 h
        cases h
        exact .define hword hname hvalue
      · obtain ⟨bindings, hbindings, h⟩ := bind_eq_ok_iff.1 h
        obtain ⟨body, hbody, h⟩ := bind_eq_ok_iff.1 h
        cases h
        obtain ⟨ds, rfl, hrow⟩ := bindingsOfDatum_eq_ok_iff.1 hbindings
        exact .letIn hword hrow hbody
      · obtain ⟨bindings, hbindings, h⟩ := bind_eq_ok_iff.1 h
        obtain ⟨body, hbody, h⟩ := bind_eq_ok_iff.1 h
        cases h
        obtain ⟨ds, rfl, hrow⟩ := bindingsOfDatum_eq_ok_iff.1 hbindings
        exact .letrec hword hrow hbody
      · obtain ⟨params, hparams, h⟩ := bind_eq_ok_iff.1 h
        obtain ⟨body, hbody, h⟩ := bind_eq_ok_iff.1 h
        cases h
        exact .lambda hword (mapM_eq_ok_iff.1 hparams) hbody
      · obtain ⟨es, hes, h⟩ := bind_eq_ok_iff.1 h
        cases h
        exact .sequence hword (ofData_eq_ok_iff.1 hes)
      · obtain ⟨c, hc, h⟩ := bind_eq_ok_iff.1 h
        obtain ⟨t, ht, h⟩ := bind_eq_ok_iff.1 h
        obtain ⟨e, he, h⟩ := bind_eq_ok_iff.1 h
        cases h
        exact .branch hword hc ht he
      · obtain ⟨cases, hcases, h⟩ := bind_eq_ok_iff.1 h
        cases h
        exact .cond hword (casesOfData_eq_ok_iff.1 hcases)
      · cases h

theorem ofDatum_of_understood {d : Datum} {e : Expr} (h : Understood d e) : ofDatum d = .ok e := by
  have hform : ∀ {word : String} {form : Form}, Form.ofName? word = some form →
      Form.ofHead? (.symbol word) = some (word, form) :=
    fun h ↦ ofHead?_eq_some_iff.2 ⟨rfl, h⟩
  cases h with
  | bool => rw [ofDatum]
  | number => rw [ofDatum]
  | string => rw [ofDatum]
  | hole h => rw [ofDatum, if_pos h]
  | var h => rw [ofDatum, if_neg (by simp [h])]
  | null => rw [ofDatum]
  | list hne h =>
    cases h with
    | nil => exact absurd rfl hne
    | cons h hs =>
      rw [ofDatum, h, ofData_eq_ok_iff.2 hs]
      rfl
  | call hhead hcalled hargs =>
    rw [ofDatum, hhead, hcalled, ofData_eq_ok_iff.2 hargs]
    rfl
  | define hword hname hvalue =>
    simp only [ofDatum, hform hword, hname, hvalue]
    rfl
  | letIn hword hbindings hbody =>
    simp only [ofDatum, hform hword, bindingsOfDatum_eq_ok_iff.2 ⟨_, rfl, hbindings⟩, hbody]
    rfl
  | letrec hword hbindings hbody =>
    simp only [ofDatum, hform hword, bindingsOfDatum_eq_ok_iff.2 ⟨_, rfl, hbindings⟩, hbody]
    rfl
  | lambda hword hparams hbody =>
    simp only [ofDatum, hform hword, mapM_eq_ok_iff.2 hparams, hbody]
    rfl
  | sequence hword h =>
    simp only [ofDatum, hform hword, ofData_eq_ok_iff.2 h]
    rfl
  | branch hword hc ht he =>
    simp only [ofDatum, hform hword, hc, ht, he]
    rfl
  | cond hword hcases =>
    simp only [ofDatum, hform hword, casesOfData_eq_ok_iff.2 hcases]
    rfl

/-! ## The datum of an expression -/

/-- The datum for a bound name. -/
def bindingDatum (name : String) : Option Ty → Datum
  | none => .symbol name
  | some t => .list [.symbol name, .symbol ":", t.toDatum]

mutual

/-- The datum whose text is that of the expression. -/
def toDatum : Expr → Datum
  | .number n => .number n
  | .bool b => .bool b
  | .string s => .string s
  | .null => .quote (.list [])
  | .list es => .quote (.list (toData es))
  | .hole => .symbol "_"
  | .binding name declared => bindingDatum name declared
  | .var name => .symbol name
  | .call called args => .list (called.toDatum :: toData args)
  | .define name value => .list [.symbol "define", name.toDatum, value.toDatum]
  | .letIn bindings body => .list [.symbol "let", .list (pairsToData bindings), body.toDatum]
  | .letrec bindings body => .list [.symbol "letrec", .list (pairsToData bindings), body.toDatum]
  | .lambda params body => .list [.symbol "lambda", .list (toData params), body.toDatum]
  | .sequence es => .list (.symbol "sequence" :: toData es)
  | .branch c t e => .list [.symbol "if", c.toDatum, t.toDatum, e.toDatum]
  | .cond cases => .list (.symbol "cond" :: pairsToData cases)

/-- As `toDatum`, for the expressions of a list. -/
def toData : List Expr → List Datum
  | [] => []
  | e :: es => e.toDatum :: toData es

/-- As `toDatum`, for the pairs of a list. -/
def pairsToData : List (Expr × Expr) → List Datum
  | [] => []
  | (d, e) :: es => .list [d.toDatum, e.toDatum] :: pairsToData es

end

theorem texts_toData {es : List Expr} (h : ∀ e ∈ es, e.toDatum.text = e.text) :
    Datum.texts (toData es) = texts es := by
  induction es with
  | nil => rfl
  | cons e es ih =>
    obtain ⟨he, hes⟩ := List.forall_mem_cons.1 h
    change e.toDatum.text :: Datum.texts (toData es) = e.text :: texts es
    rw [he, ih hes]

theorem text_pair (d e : Datum) :
    (Datum.list [d, e]).text = "(" ++ d.text ++ " " ++ e.text ++ ")" := by
  simp [Datum.text, Datum.texts, String.intercalate_cons_cons, String.append_assoc]

theorem texts_pairsToData {bs : List (Expr × Expr)}
    (h : ∀ b ∈ bs, b.1.toDatum.text = b.1.text ∧ b.2.toDatum.text = b.2.text) :
    Datum.texts (pairsToData bs) = pairTexts bs := by
  induction bs with
  | nil => rfl
  | cons b bs ih =>
    obtain ⟨⟨h₁, h₂⟩, hbs⟩ := List.forall_mem_cons.1 h
    change (Datum.list [b.1.toDatum, b.2.toDatum]).text :: Datum.texts (pairsToData bs) =
      ("(" ++ b.1.text ++ " " ++ b.2.text ++ ")") :: pairTexts bs
    rw [text_pair, h₁, h₂, ih hbs]

/-- `e.text` is the text of `e.toDatum`. -/
theorem text_toDatum (e : Expr) : e.toDatum.text = e.text := by
  induction e with
  | number n => rfl
  | bool b => rfl
  | string s => rfl
  | null => rfl
  | list es ih =>
    change _ = "'(" ++ " ".intercalate (texts es) ++ ")"
    apply String.toList_injective
    simp [toDatum, Datum.text, texts_toData ih]
  | hole => rfl
  | binding name declared =>
    cases declared with
    | none => rfl
    | some t =>
      change _ = "(" ++ name ++ " : " ++ t.text ++ ")"
      apply String.toList_injective
      simp [toDatum, bindingDatum, Datum.text, Datum.texts, Ty.text_toDatum,
        String.intercalate_cons_cons]
  | var name => rfl
  | call called args ihc iha =>
    change _ = "(" ++ " ".intercalate (called.text :: texts args) ++ ")"
    rw [toDatum, Datum.text, Datum.texts, ihc, texts_toData iha]
  | define name value ihn ihv =>
    change _ = "(define " ++ name.text ++ " " ++ value.text ++ ")"
    apply String.toList_injective
    simp [toDatum, Datum.text, Datum.texts, ihn, ihv, String.intercalate_cons_cons]
  | letIn bindings body ihs ih =>
    change _ = "(let (" ++ " ".intercalate (pairTexts bindings) ++ ") " ++ body.text ++ ")"
    apply String.toList_injective
    simp [toDatum, Datum.text, Datum.texts, texts_pairsToData ihs, ih,
      String.intercalate_cons_cons]
  | letrec bindings body ihs ih =>
    change _ = "(letrec (" ++ " ".intercalate (pairTexts bindings) ++ ") " ++ body.text ++ ")"
    apply String.toList_injective
    simp [toDatum, Datum.text, Datum.texts, texts_pairsToData ihs, ih,
      String.intercalate_cons_cons]
  | lambda params body ihs ih =>
    change _ = "(lambda (" ++ " ".intercalate (texts params) ++ ") " ++ body.text ++ ")"
    apply String.toList_injective
    simp [toDatum, Datum.text, Datum.texts, texts_toData ihs, ih, String.intercalate_cons_cons]
  | sequence es ih =>
    change _ = "(" ++ " ".intercalate ("sequence" :: texts es) ++ ")"
    rw [toDatum, Datum.text, Datum.texts, Datum.text, texts_toData ih]
  | branch c t e ihc iht ihe =>
    change _ = "(if " ++ c.text ++ " " ++ t.text ++ " " ++ e.text ++ ")"
    apply String.toList_injective
    simp [toDatum, Datum.text, Datum.texts, ihc, iht, ihe, String.intercalate_cons_cons]
  | cond cases ih =>
    change _ = "(" ++ " ".intercalate ("cond" :: pairTexts cases) ++ ")"
    rw [toDatum, Datum.text, Datum.texts, Datum.text, texts_pairsToData ih]

/-! ## Reading it back -/

/-- The expressions that are read back: numbers are integers, strings have no newline, and declared
types are `Ty.Writable`. -/
def Writable (e : Expr) : Prop := e.All fun
  | .number n => ∃ k, n = .exact k
  | .string s => '\n' ∉ s.toList
  | .binding _ (some t) => t.Writable
  | _ => True

/-- If `reader` gave `e` for a datum with sayable atoms, it gives `e` again for `e.toDatum`, whose
atoms are legible. -/
def ReadBack (reader : Datum → Except SyntaxError Expr) (e : Expr) : Prop :=
  ∀ d, reader d = .ok e → d.Atoms Sayable →
    reader e.toDatum = .ok e ∧ e.toDatum.Atoms Legible

/-- A writable expression is read back by `binderOfDatum`. -/
theorem Writable.readBack_binder {e : Expr} (he : e.Writable) : ReadBack binderOfDatum e := by
  intro d h hd
  rw [binderOfDatum.eq_def] at h
  split at h
  · next name =>
    split at h
    · cases h
      exact ⟨rfl, atoms_symbol.2 (legible_word (by decide) (by decide) rfl)⟩
    · next hhole =>
      split at h
      · next hname =>
        cases h
        refine ⟨?_, legible_of_symbol hd⟩
        rw [toDatum, bindingDatum, binderOfDatum, if_neg hhole, if_pos hname]
      · cases h
  · next name x =>
    split at h
    · next hname =>
      obtain ⟨t, ht, h⟩ := bind_eq_ok_iff.1 h
      cases h
      have hwritable : t.Writable := (all_iff.1 he).1
      simp only [atoms_list, List.forall_mem_cons] at hd
      obtain ⟨hread, hlegible⟩ := hwritable.readBack _ ht hd.2.2.1
      refine ⟨?_, ?_⟩
      · rw [toDatum, bindingDatum, binderOfDatum, if_pos hname, hread]
        rfl
      · simp only [toDatum, bindingDatum, atoms_list, List.forall_mem_cons]
        exact ⟨legible_of_symbol hd.1, legible_of_symbol hd.2.1, hlegible, by simp⟩
    · cases h
  · cases h

theorem readBack_row {reader : Datum → Except SyntaxError Expr} {ds : List Datum}
    {es : List Expr} (h : List.Forall₂ (fun d e ↦ reader d = .ok e) ds es)
    (hds : ∀ d ∈ ds, d.Atoms Sayable) (hes : ∀ e ∈ es, ReadBack reader e) :
    List.Forall₂ (fun d e ↦ reader d = .ok e) (toData es) es ∧
      ∀ d ∈ toData es, d.Atoms Legible := by
  induction h with
  | nil => exact ⟨.nil, by simp [toData]⟩
  | cons h _ ih =>
    obtain ⟨hd, hds⟩ := List.forall_mem_cons.1 hds
    obtain ⟨he, hes⟩ := List.forall_mem_cons.1 hes
    obtain ⟨hread, hlegible⟩ := he _ h hd
    obtain ⟨hreads, hlegibles⟩ := ih hds hes
    exact ⟨.cons hread hreads, List.forall_mem_cons.2 ⟨hlegible, hlegibles⟩⟩

theorem readBack_pairs {first : Datum → Except SyntaxError Expr} {ds : List Datum}
    {bs : List (Expr × Expr)} (h : List.Forall₂ (Pair first) ds bs)
    (hds : ∀ d ∈ ds, d.Atoms Sayable)
    (hbs : ∀ b ∈ bs, ReadBack first b.1 ∧ ReadBack ofDatum b.2) :
    List.Forall₂ (Pair first) (pairsToData bs) bs ∧ ∀ d ∈ pairsToData bs, d.Atoms Legible := by
  induction h with
  | nil => exact ⟨.nil, by simp [pairsToData]⟩
  | cons h _ ih =>
    obtain ⟨x, y, rfl, hx, hy⟩ := h
    obtain ⟨hd, hds⟩ := List.forall_mem_cons.1 hds
    obtain ⟨hb, hbs⟩ := List.forall_mem_cons.1 hbs
    simp only [atoms_list, List.forall_mem_cons] at hd
    obtain ⟨hread₁, hlegible₁⟩ := hb.1 _ hx hd.1
    obtain ⟨hread₂, hlegible₂⟩ := hb.2 _ hy hd.2.1
    obtain ⟨hreads, hlegibles⟩ := ih hds hbs
    refine ⟨.cons ⟨_, _, rfl, hread₁, hread₂⟩ hreads, List.forall_mem_cons.2 ⟨?_, hlegibles⟩⟩
    simp only [atoms_list, List.forall_mem_cons]
    exact ⟨hlegible₁, hlegible₂, by simp⟩

/-! ### Calls and literals -/

theorem readBack_list {es : List Expr} (hes : ∀ e ∈ es, ReadBack ofDatum e) :
    ReadBack ofDatum (.list es) := by
  intro d h hd
  cases understood_of_ofDatum h with
  | list hne hrow =>
    rw [atoms_quote, atoms_list] at hd
    obtain ⟨hreads, hlegibles⟩ := readBack_row hrow hd hes
    have hlength : (toData es).length ≠ 0 := by
      rw [hreads.length_eq, ← hrow.length_eq]
      simpa using hne
    exact ⟨ofDatum_of_understood (.list (by simpa using hlength) hreads),
      atoms_quote.2 (atoms_list.2 hlegibles)⟩

/-- The datum of what is called is not the head of a special form, if the one it was read from is
not. -/
theorem ofHead?_toDatum {d : Datum} {e : Expr} (h : Understood d e)
    (hd : Form.ofHead? d = none) : Form.ofHead? e.toDatum = none := by
  cases h with
  | var => exact hd
  | _ => rfl

theorem readBack_call {called : Expr} {args : List Expr} (hc : ReadBack ofDatum called)
    (hargs : ∀ e ∈ args, ReadBack ofDatum e) : ReadBack ofDatum (.call called args) := by
  intro d h hd
  cases understood_of_ofDatum h with
  | call hhead hcalled hrow =>
    obtain ⟨hd, hds⟩ := atoms_cons.1 hd
    obtain ⟨hread, hlegible⟩ := hc _ hcalled hd
    obtain ⟨hreads, hlegibles⟩ := readBack_row hrow hds hargs
    have hhead := ofHead?_toDatum (understood_of_ofDatum hcalled) hhead
    exact ⟨ofDatum_of_understood (.call hhead hread hreads), atoms_cons.2 ⟨hlegible, hlegibles⟩⟩

/-! ### Special forms -/

theorem legible_formWord {word : String}
    (h : word ∈ ["define", "let", "letrec", "lambda", "sequence", "if", "cond"]) :
    (Datum.symbol word).Atoms Legible := by
  simp only [List.mem_cons, List.not_mem_nil, or_false] at h
  rcases h with rfl | rfl | rfl | rfl | rfl | rfl | rfl <;>
    exact atoms_symbol.2 (legible_word (by decide) (by decide) rfl)

theorem readBack_define {name value : Expr} (hn : ReadBack binderOfDatum name)
    (hv : ReadBack ofDatum value) : ReadBack ofDatum (.define name value) := by
  intro d h hd
  cases understood_of_ofDatum h with
  | define _ hname hvalue =>
    simp only [atoms_list, List.forall_mem_cons] at hd
    obtain ⟨hread₁, hlegible₁⟩ := hn _ hname hd.2.1
    obtain ⟨hread₂, hlegible₂⟩ := hv _ hvalue hd.2.2.1
    refine ⟨ofDatum_of_understood (.define rfl hread₁ hread₂), ?_⟩
    simp only [toDatum, atoms_list, List.forall_mem_cons]
    exact ⟨legible_formWord (by simp), hlegible₁, hlegible₂, by simp⟩

/-- The atoms of a form with a list in parentheses and a body. -/
theorem legible_scope {word : String} (hword : (Datum.symbol word).Atoms Legible)
    {ds : List Datum} (hds : ∀ d ∈ ds, d.Atoms Legible) {d : Datum} (hd : d.Atoms Legible) :
    (Datum.list [.symbol word, .list ds, d]).Atoms Legible := by
  simp only [atoms_list, List.forall_mem_cons]
  exact ⟨hword, hds, hd, by simp⟩

theorem readBack_letIn {bindings : List (Expr × Expr)} {body : Expr}
    (hbs : ∀ b ∈ bindings, ReadBack binderOfDatum b.1 ∧ ReadBack ofDatum b.2)
    (hb : ReadBack ofDatum body) : ReadBack ofDatum (.letIn bindings body) := by
  intro d h hd
  cases understood_of_ofDatum h with
  | letIn _ hbindings hbody =>
    simp only [atoms_list, List.forall_mem_cons] at hd
    obtain ⟨hreads, hlegibles⟩ := readBack_pairs hbindings hd.2.1 hbs
    obtain ⟨hread, hlegible⟩ := hb _ hbody hd.2.2.1
    exact ⟨ofDatum_of_understood (.letIn rfl hreads hread),
      legible_scope (legible_formWord (by simp)) hlegibles hlegible⟩

theorem readBack_letrec {bindings : List (Expr × Expr)} {body : Expr}
    (hbs : ∀ b ∈ bindings, ReadBack binderOfDatum b.1 ∧ ReadBack ofDatum b.2)
    (hb : ReadBack ofDatum body) : ReadBack ofDatum (.letrec bindings body) := by
  intro d h hd
  cases understood_of_ofDatum h with
  | letrec _ hbindings hbody =>
    simp only [atoms_list, List.forall_mem_cons] at hd
    obtain ⟨hreads, hlegibles⟩ := readBack_pairs hbindings hd.2.1 hbs
    obtain ⟨hread, hlegible⟩ := hb _ hbody hd.2.2.1
    exact ⟨ofDatum_of_understood (.letrec rfl hreads hread),
      legible_scope (legible_formWord (by simp)) hlegibles hlegible⟩

theorem readBack_lambda {params : List Expr} {body : Expr}
    (hps : ∀ e ∈ params, ReadBack binderOfDatum e) (hb : ReadBack ofDatum body) :
    ReadBack ofDatum (.lambda params body) := by
  intro d h hd
  cases understood_of_ofDatum h with
  | lambda _ hparams hbody =>
    simp only [atoms_list, List.forall_mem_cons] at hd
    obtain ⟨hreads, hlegibles⟩ := readBack_row hparams hd.2.1 hps
    obtain ⟨hread, hlegible⟩ := hb _ hbody hd.2.2.1
    exact ⟨ofDatum_of_understood (.lambda rfl hreads hread),
      legible_scope (legible_formWord (by simp)) hlegibles hlegible⟩

theorem readBack_sequence {es : List Expr} (hes : ∀ e ∈ es, ReadBack ofDatum e) :
    ReadBack ofDatum (.sequence es) := by
  intro d h hd
  cases understood_of_ofDatum h with
  | sequence _ hrow =>
    obtain ⟨hreads, hlegibles⟩ := readBack_row hrow (atoms_cons.1 hd).2 hes
    exact ⟨ofDatum_of_understood (.sequence rfl hreads),
      atoms_cons.2 ⟨legible_formWord (by simp), hlegibles⟩⟩

theorem readBack_branch {c t e : Expr} (hc : ReadBack ofDatum c) (ht : ReadBack ofDatum t)
    (he : ReadBack ofDatum e) : ReadBack ofDatum (.branch c t e) := by
  intro d h hd
  cases understood_of_ofDatum h with
  | branch _ hcond hthen helse =>
    simp only [atoms_list, List.forall_mem_cons] at hd
    obtain ⟨hread₁, hlegible₁⟩ := hc _ hcond hd.2.1
    obtain ⟨hread₂, hlegible₂⟩ := ht _ hthen hd.2.2.1
    obtain ⟨hread₃, hlegible₃⟩ := he _ helse hd.2.2.2.1
    refine ⟨ofDatum_of_understood (.branch rfl hread₁ hread₂ hread₃), ?_⟩
    simp only [toDatum, atoms_list, List.forall_mem_cons]
    exact ⟨legible_formWord (by simp), hlegible₁, hlegible₂, hlegible₃, by simp⟩

theorem readBack_cond {cases : List (Expr × Expr)}
    (hcases : ∀ b ∈ cases, ReadBack ofDatum b.1 ∧ ReadBack ofDatum b.2) :
    ReadBack ofDatum (.cond cases) := by
  intro d h hd
  cases understood_of_ofDatum h with
  | cond _ hrow =>
    obtain ⟨hreads, hlegibles⟩ := readBack_pairs hrow (atoms_cons.1 hd).2 hcases
    exact ⟨ofDatum_of_understood (.cond rfl hreads),
      atoms_cons.2 ⟨legible_formWord (by simp), hlegibles⟩⟩

/-- A `Writable` expression is read back by `ofDatum`. -/
theorem Writable.readBack {e : Expr} (he : e.Writable) : ReadBack ofDatum e := by
  induction e with
  | number n =>
    intro d h hd
    obtain ⟨k, rfl⟩ := (all_iff.1 he).1
    cases understood_of_ofDatum h
    exact ⟨h, atoms_number.2 (legible_exact (atoms_number.1 hd))⟩
  | bool b =>
    intro d h _
    cases understood_of_ofDatum h
    exact ⟨h, atoms_bool.2 (legible_bool b)⟩
  | string s =>
    intro d h _
    cases understood_of_ofDatum h
    exact ⟨h, atoms_string.2 (legible_string (all_iff.1 he).1)⟩
  | null =>
    intro d h _
    cases understood_of_ofDatum h
    exact ⟨h, by simp [toDatum]⟩
  | list es ih => exact readBack_list fun e hmem ↦ ih e hmem ((all_iff.1 he).2 e hmem)
  | hole =>
    intro d _ _
    exact ⟨ofDatum_of_understood (.hole rfl),
      atoms_symbol.2 (legible_word (by decide) (by decide) rfl)⟩
  | binding name declared =>
    intro d h _
    cases understood_of_ofDatum h
  | var name =>
    intro d h hd
    cases understood_of_ofDatum h
    exact ⟨h, legible_of_symbol hd⟩
  | call called args ihc iha =>
    obtain ⟨hc, hargs⟩ := List.forall_mem_cons.1 (all_iff.1 he).2
    exact readBack_call (ihc hc) fun e hmem ↦ iha e hmem (hargs e hmem)
  | define name value _ ihv =>
    have hchildren := (all_iff.1 he).2
    exact readBack_define (Writable.readBack_binder (hchildren name (by simp [children])))
      (ihv (hchildren value (by simp [children])))
  | letIn bindings body ihs ih =>
    obtain ⟨hbs, hb⟩ := All.bindings (all_iff.1 he).2
    exact readBack_letIn (fun b hmem ↦ ⟨Writable.readBack_binder (hbs b hmem).1,
      (ihs b hmem).2 (hbs b hmem).2⟩) (ih hb)
  | letrec bindings body ihs ih =>
    obtain ⟨hbs, hb⟩ := All.bindings (all_iff.1 he).2
    exact readBack_letrec (fun b hmem ↦ ⟨Writable.readBack_binder (hbs b hmem).1,
      (ihs b hmem).2 (hbs b hmem).2⟩) (ih hb)
  | lambda params body _ ih =>
    obtain ⟨hps, hb⟩ := List.forall_mem_append.1 (all_iff.1 he).2
    exact readBack_lambda (fun e hmem ↦ Writable.readBack_binder (hps e hmem))
      (ih (hb body (by simp)))
  | sequence es ih => exact readBack_sequence fun e hmem ↦ ih e hmem ((all_iff.1 he).2 e hmem)
  | branch c t e ihc iht ihe =>
    have hchildren := (all_iff.1 he).2
    exact readBack_branch (ihc (hchildren c (by simp [children])))
      (iht (hchildren t (by simp [children]))) (ihe (hchildren e (by simp [children])))
  | cond cases ih =>
    have hcases := forall_mem_pairs.1 (all_iff.1 he).2
    exact readBack_cond fun b hmem ↦
      ⟨(ih b hmem).1 (hcases b hmem).1, (ih b hmem).2 (hcases b hmem).2⟩

/-- **An expression that was read is read back from its text**, if it is `Writable`: its numbers are
integers, its strings have no newline and its declared types are writable. -/
theorem read_text_of_read {source : String} {e : Expr} (h : read source = .ok e) (he : e.Writable) :
    read e.text = .ok e := by
  obtain ⟨d, hd, h⟩ := bind_eq_ok_iff.1 h
  obtain ⟨hread, hlegible⟩ := he.readBack _ h (sayable_of_read hd)
  rw [read, ← text_toDatum, Datum.read_text hlegible]
  exact hread

theorem read_text_of_read_nested :
    ∃ e, read "(lambda ((_ : (All (#a #t) #a))) ;(\n (begin if '(-1 \"\\\\\")))" = .ok e ∧
      e.Writable ∧ read e.text = .ok e := by
  have hread : read "(lambda ((_ : (All (#a #t) #a))) ;(\n (begin if '(-1 \"\\\\\")))" =
      .ok (.lambda [.binding "_" (some (.all ["a", "t"] (.var "a")))]
        (.sequence [.var "if", .list [.number (.exact (-1)), .string "\\"]])) := by decide +kernel
  have hdeclared : (Ty.all ["a", "t"] (.var "a")).Writable := .all (by decide) (.var (by decide))
  refine ⟨_, hread, (fun he ↦ ⟨he, read_text_of_read hread he⟩) ?_⟩
  simpa [Writable, All, parts, partsList] using hdeclared

end SchemeTyping.Expr
