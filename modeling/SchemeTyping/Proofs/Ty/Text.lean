import Mathlib.Data.List.Forall2
import SchemeTyping.Ty.Printer
import SchemeTyping.Ty.Reader
import SchemeTyping.Proofs.Datum.Text
import SchemeTyping.Proofs.Ty.Basic

/-!
# Types as source text

## What is here

* `Understood d t` — one step of `Ty.ofDatum`, with `ofDatum` for the parts as premises.
* `Ty.toDatum` — the datum whose text is `t.text` (`text_toDatum`).
* `Writable`, `ReadBack` — a writable type that was read is read again from `t.toDatum`
  (`Writable.readBack`).
-/

set_option autoImplicit false

namespace SchemeTyping

section Except

variable {ε α β : Type}

theorem bind_eq_ok_iff {x : Except ε α} {f : α → Except ε β} {b : β} :
    (x >>= f) = .ok b ↔ ∃ a, x = .ok a ∧ f a = .ok b := by
  cases x <;> simp [bind, Except.bind]

theorem map_eq_ok_iff {x : Except ε α} {f : α → β} {b : β} :
    x.map f = .ok b ↔ ∃ a, x = .ok a ∧ f a = b := by
  cases x <;> simp [Except.map]

theorem pure_eq_ok_iff {a b : α} : (pure a : Except ε α) = .ok b ↔ a = b := by
  simp [pure, Except.pure]

theorem mapM_eq_ok_iff {f : α → Except ε β} {as : List α} {bs : List β} :
    as.mapM f = .ok bs ↔ List.Forall₂ (fun a b ↦ f a = .ok b) as bs := by
  induction as generalizing bs with
  | nil => simp [pure, Except.pure, eq_comm]
  | cons a as ih =>
    simp only [List.mapM_cons, bind_eq_ok_iff, pure_eq_ok_iff, List.forall₂_cons_left_iff, ih]
    grind

end Except

namespace Ty

open Datum Token

/-! ## One step of `ofDatum` -/

/-- `Understood d t`: `ofDatum` makes `t` of `d`, by one of its branches. -/
inductive Understood : Datum → Ty → Prop
  | var {d : Datum} {name : String} (h : varName d = .ok name) : Understood d (.var name)
  | tag {name : String} (h : markedName? name = none) : Understood (.symbol name) (.con name [])
  | all {names : List Datum} {d : Datum} {bound : List String} {body : Ty}
      (hbound : List.Forall₂ (fun d name ↦ varName d = .ok name) names bound)
      (h : ofDatum d = .ok body) :
      Understood (.list [.symbol "All", .list names, d]) (.all bound body)
  | variadic {args rest : List Datum} {min max : Option Int} {ps : List Ty}
      (hoptions : options none none args = .ok (min, max, rest))
      (h : List.Forall₂ (fun d t ↦ ofDatum d = .ok t) rest ps) :
      Understood (.list (.symbol "Function*" :: args)) (.variadic min max ps)
  | con {name : String} {args : List Datum} {ps : List Ty}
      (hall : ∀ names d, name = "All" → args ≠ [.list names, d]) (hvariadic : name ≠ "Function*")
      (h : List.Forall₂ (fun d t ↦ ofDatum d = .ok t) args ps) :
      Understood (.list (.symbol name :: args)) (.con name ps)

theorem ofData_eq_ok_iff {ds : List Datum} {ts : List Ty} :
    ofData ds = .ok ts ↔ List.Forall₂ (fun d t ↦ ofDatum d = .ok t) ds ts := by
  induction ds generalizing ts with
  | nil => simp [ofData, eq_comm]
  | cons d ds ih =>
    simp only [ofData, bind_eq_ok_iff, pure_eq_ok_iff, List.forall₂_cons_left_iff, ih]
    grind

theorem understood_of_ofDatum {d : Datum} {t : Ty} (h : ofDatum d = .ok t) : Understood d t := by
  rw [ofDatum.eq_def] at h
  split at h
  · cases h
    exact .var rfl
  · next name =>
    split at h
    · cases hname : varName (.symbol name) with
      | error e => simp [hname, Except.map] at h
      | ok bound =>
        rw [hname] at h
        cases h
        exact .var hname
    · next hmark =>
      cases h
      exact .tag (by simpa using hmark)
  · next names d =>
    obtain ⟨bound, hbound, h⟩ := bind_eq_ok_iff.1 h
    obtain ⟨body, hbody, h⟩ := bind_eq_ok_iff.1 h
    cases h
    exact .all (mapM_eq_ok_iff.1 hbound) hbody
  · next args =>
    split at h
    · cases h
    · next min max rest hoptions =>
      obtain ⟨ps, hps, h⟩ := bind_eq_ok_iff.1 h
      cases h
      exact .variadic hoptions (ofData_eq_ok_iff.1 hps)
  · next name args hall hvariadic =>
    obtain ⟨ps, hps, h⟩ := bind_eq_ok_iff.1 h
    cases h
    exact .con (fun names d hname hargs ↦ hall names d hargs hname) hvariadic
      (ofData_eq_ok_iff.1 hps)
  · cases h

theorem ofDatum_of_understood {d : Datum} {t : Ty} (h : Understood d t) : ofDatum d = .ok t := by
  cases h with
  | @var d name h =>
    cases d with
    | bool b =>
      cases h
      simp [ofDatum]
    | symbol s =>
      have hmark : (markedName? s).isSome = true := by
        rw [varName] at h
        split at h
        · next hmark => simp [hmark]
        · cases h
      simp [ofDatum, hmark, h, Except.map]
    | _ => cases h
  | tag h => simp [ofDatum, h]
  | all hbound h =>
    rw [ofDatum, mapM_eq_ok_iff.2 hbound, h]
    rfl
  | variadic hoptions h =>
    rw [ofDatum.eq_4]
    split
    · next heq => cases heq.symm.trans hoptions
    · next heq =>
      cases heq.symm.trans hoptions
      rw [ofData_eq_ok_iff.2 h]
      rfl
  | con hall hvariadic h =>
    rw [ofDatum.eq_5 _ _ (fun names d hargs hname ↦ hall names d hname hargs) hvariadic,
      ofData_eq_ok_iff.2 h]
    rfl

/-! ## The datum of a type -/

/-- The datum for a variable.  The names `true` and `false` are spelled like truth values. -/
def varDatum (name : String) : Datum :=
  if name = "t" then .bool true else if name = "f" then .bool false else .symbol (varText name)

/-- The data for the option `key` of a variadic function. -/
def optionData (key : String) : Option Int → List Datum
  | none => []
  | some n => [.symbol key, .number (.exact n)]

mutual

/-- The datum whose text is that of the type. -/
def toDatum : Ty → Datum
  | .var name => varDatum name
  | .unknown id => .symbol ("?" ++ id)
  | .con tag [] => .symbol tag
  | .con tag (p :: ps) => .list (.symbol tag :: p.toDatum :: toData ps)
  | .variadic min max ps =>
    .list (.symbol "Function*" :: (optionData ":min" min ++ optionData ":max" max ++ toData ps))
  | .all bound body => .list [.symbol "All", .list (bound.map varDatum), body.toDatum]

/-- As `toDatum`, for the types of a list. -/
def toData : List Ty → List Datum
  | [] => []
  | t :: ts => t.toDatum :: toData ts

end

theorem toData_eq_map (ts : List Ty) : toData ts = ts.map toDatum := by
  induction ts with
  | nil => rfl
  | cons t ts ih => rw [toData, ih, List.map_cons]

theorem text_varDatum (name : String) : (varDatum name).text = varText name := by
  rw [varDatum]
  split
  · next h => subst h; rfl
  · split
    · next h => subst h; rfl
    · rfl

theorem texts_toData {ts : List Ty} (h : ∀ t ∈ ts, t.toDatum.text = t.text) :
    Datum.texts (toData ts) = texts ts := by
  induction ts with
  | nil => rfl
  | cons t ts ih =>
    obtain ⟨ht, hts⟩ := List.forall_mem_cons.1 h
    rw [toData, Datum.texts, texts, ht, ih hts]

/-- `Datum.texts` writes the key and the number of an option as two words, `optionText` as one word
with a blank in it; the texts are the same. -/
theorem intercalate_optionData (min max : Option Int) (rest : List String) :
    " ".intercalate ("Function*" :: (Datum.texts (optionData ":min" min) ++
        Datum.texts (optionData ":max" max) ++ rest)) =
      " ".intercalate
        ("Function*" :: (optionText ":min" min ++ optionText ":max" max ++ rest)) := by
  cases min <;> cases max <;>
    simp [optionData, optionText, Datum.texts, Datum.text, Number.text,
      String.intercalate_cons_cons, String.append_assoc]

/-- `t.text` is the text of `t.toDatum`. -/
theorem text_toDatum (t : Ty) : t.toDatum.text = t.text := by
  induction t with
  | var name => exact text_varDatum name
  | unknown id => rfl
  | con tag ps ih =>
    cases ps with
    | nil => rfl
    | cons p ps =>
      have h := texts_toData ih
      rw [toData, Datum.texts, texts] at h
      rw [toDatum, Datum.text, Datum.texts, Datum.texts, h]
      rfl
  | variadic min max ps ih =>
    have htexts : Datum.texts (.symbol "Function*" ::
        (optionData ":min" min ++ optionData ":max" max ++ toData ps)) =
        "Function*" :: (Datum.texts (optionData ":min" min) ++
          Datum.texts (optionData ":max" max) ++ texts ps) := by
      rw [← texts_toData ih]
      simp [Datum.texts_eq_map, Datum.text]
    rw [toDatum, Datum.text, htexts, intercalate_optionData]
    rfl
  | all bound body ih =>
    have hbound : Datum.texts (bound.map varDatum) = bound.map varText := by
      simp [Datum.texts_eq_map, text_varDatum]
    apply String.toList_injective
    simp [toDatum, Datum.text, Datum.texts, text, boundText, ih, hbound,
      String.intercalate_cons_cons]

/-! ## Reading it back -/

/-- The types that are read back: no tag is taken for a variable, no parameter for an option of a
variadic function, and no constructor for a quantifier. -/
inductive Writable : Ty → Prop
  | var {name : String} (hname : name ≠ "true" ∧ name ≠ "false") : Writable (.var name)
  | con {tag : String} {ps : List Ty} (htag : tag.toList.head? ≠ some '#')
      (hvariadic : tag = "Function*" → ps = [])
      (hall : tag = "All" → ps.length = 2 → ∀ p ∈ ps.head?, p.text.toList.head? ≠ some '(')
      (hps : ∀ p ∈ ps, Writable p) : Writable (.con tag ps)
  | variadic {min max : Option Int} {ps : List Ty}
      (hfirst : ∀ p ∈ ps.head?, p ≠ .con ":min" [] ∧ p ≠ .con ":max" [])
      (hps : ∀ p ∈ ps, Writable p) : Writable (.variadic min max ps)
  | all {bound : List String} {body : Ty}
      (hbound : ∀ name ∈ bound, name ≠ "true" ∧ name ≠ "false") (hbody : Writable body) :
      Writable (.all bound body)

theorem markedName?_eq_none_iff {name : String} :
    markedName? name = none ↔ name.toList.head? ≠ some '#' := by
  rw [markedName?, ne_eq, List.head?_eq_some_iff]
  split
  · next rest h => simp [h]
  · next h => simpa using h

theorem eq_varText_of_markedName? {name : String} {cs : List Char}
    (h : markedName? name = some cs) : name = varText (String.ofList cs) := by
  rw [markedName?] at h
  split at h
  · next hname =>
    cases h
    apply String.toList_injective
    simp [hname, varText]
  · cases h

/-- `varDatum` is a right inverse of `varName`, on data that can be read. -/
theorem varDatum_of_varName {d : Datum} {name : String} (h : varName d = .ok name)
    (hd : d.Atoms Sayable) : varDatum name = d := by
  cases d with
  | bool b =>
    cases h
    cases b <;> rfl
  | symbol s =>
    rw [varName] at h
    split at h
    · next c cs hmark =>
      cases h
      have hs := eq_varText_of_markedName? hmark
      have htruth := (atoms_symbol.1 hd).not_truthWord
      rw [hs] at htruth
      rw [varDatum, if_neg, if_neg, hs]
      · intro heq
        rw [heq] at htruth
        exact htruth false .f
      · intro heq
        rw [heq] at htruth
        exact htruth true .t
    · cases h
  | _ => cases h

theorem legible_of_varName {d : Datum} {name : String} (h : varName d = .ok name)
    (hd : d.Atoms Sayable) : d.Atoms Legible := by
  cases d with
  | bool b => exact atoms_bool.2 (legible_bool b)
  | symbol s => exact legible_of_symbol hd
  | _ => cases h

theorem options_of_head? {min max : Option Int} {ds : List Datum}
    (hds : ∀ d ∈ ds.head?, d ≠ .symbol ":min" ∧ d ≠ .symbol ":max") :
    options min max ds = .ok (min, max, ds) := by
  rw [options.eq_def]
  split
  · exact absurd rfl (hds _ rfl).1
  · exact absurd rfl (hds _ rfl).2
  · exact absurd rfl (hds _ rfl).1
  · exact absurd rfl (hds _ rfl).2
  · rfl

/-- `options` reads back what `optionData` writes. -/
theorem options_optionData (min max : Option Int) (ds : List Datum) :
    options none none (optionData ":min" min ++ optionData ":max" max ++ ds) =
      options min max ds := by
  cases min <;> cases max <;> simp [optionData, options]

theorem toDatum_ne_key {p : Ty} {key : String} (hkey : key = ":min" ∨ key = ":max")
    (hp : p ≠ .con key []) : p.toDatum ≠ .symbol key := by
  have hhead : key.toList.head? = some ':' := by rcases hkey with rfl | rfl <;> rfl
  intro h
  cases p with
  | var name =>
    rw [toDatum, varDatum] at h
    split at h
    · cases h
    · split at h
      · cases h
      · cases h
        simp [varText] at hhead
  | unknown id =>
    cases h
    simp at hhead
  | con tag ps =>
    cases ps with
    | nil =>
      cases h
      exact hp rfl
    | cons p ps => cases h
  | variadic min max ps => cases h
  | all bound body => cases h

theorem forall₂_varDatum {ds : List Datum} {bound : List String}
    (h : List.Forall₂ (fun d name ↦ varName d = .ok name) ds bound)
    (hds : ∀ d ∈ ds, d.Atoms Sayable) : bound.map varDatum = ds ∧ ∀ d ∈ ds, d.Atoms Legible := by
  induction h with
  | nil => simp
  | @cons d name ds bound h _ ih =>
    obtain ⟨hd, hds⟩ := List.forall_mem_cons.1 hds
    obtain ⟨hmap, hlegible⟩ := ih hds
    rw [List.map_cons, varDatum_of_varName h hd, hmap]
    exact ⟨rfl, List.forall_mem_cons.2 ⟨legible_of_varName h hd, hlegible⟩⟩

theorem sayable_of_options {args rest : List Datum} {min max min' max' : Option Int}
    (h : options min max args = .ok (min', max', rest)) (hargs : ∀ d ∈ args, d.Atoms Sayable)
    (hbounds : ∀ n, min = some n ∨ max = some n → Sayable (.number (.exact n))) :
    (∀ n, min' = some n ∨ max' = some n → Sayable (.number (.exact n))) ∧
      ∀ d ∈ rest, d.Atoms Sayable := by
  fun_induction options min max args with
  | case1 min max n ds ih =>
    simp only [List.forall_mem_cons, atoms_number] at hargs
    refine ih h hargs.2.2 ?_
    rintro m (hm | hm)
    · cases hm
      exact hargs.2.1
    · exact hbounds m (.inr hm)
  | case2 min max n ds ih =>
    simp only [List.forall_mem_cons, atoms_number] at hargs
    refine ih h hargs.2.2 ?_
    rintro m (hm | hm)
    · exact hbounds m (.inl hm)
    · cases hm
      exact hargs.2.1
  | case3 => cases h
  | case4 => cases h
  | case5 =>
    cases h
    exact ⟨hbounds, hargs⟩

theorem legible_optionData {key : String} (hkey : Legible (.symbol key)) {bound : Option Int}
    (hbound : ∀ n, bound = some n → Sayable (.number (.exact n))) :
    ∀ d ∈ optionData key bound, d.Atoms Legible := by
  cases bound with
  | none => simp [optionData]
  | some n => simpa [optionData, hkey] using legible_exact (hbound n rfl)

theorem legible_toData {ds : List Datum} {ps : List Ty}
    (h : List.Forall₂ (fun d t ↦ ofDatum d = .ok t) ds ps) (hds : ∀ d ∈ ds, d.Atoms Sayable)
    (hps : ∀ p ∈ ps, ∀ d, ofDatum d = .ok p → d.Atoms Sayable → p.toDatum.Atoms Legible) :
    ∀ d ∈ toData ps, d.Atoms Legible := by
  induction h with
  | nil => simp [toData]
  | cons h _ ih =>
    obtain ⟨hd, hds⟩ := List.forall_mem_cons.1 hds
    obtain ⟨hp, hps⟩ := List.forall_mem_cons.1 hps
    exact List.forall_mem_cons.2 ⟨hp _ h hd, ih hds hps⟩

/-- If `t` was read from a datum with sayable atoms, the atoms of `t.toDatum` are legible. -/
theorem legible_toDatum {d : Datum} {t : Ty} (h : ofDatum d = .ok t) (hd : d.Atoms Sayable) :
    t.toDatum.Atoms Legible := by
  induction t generalizing d with
  | var name =>
    cases understood_of_ofDatum h with
    | var hname =>
      rw [toDatum, varDatum_of_varName hname hd]
      exact legible_of_varName hname hd
  | unknown id => cases understood_of_ofDatum h
  | con tag ps ih =>
    cases understood_of_ofDatum h with
    | tag => exact legible_of_symbol hd
    | con _ _ hargs =>
      obtain ⟨hsymbol, hd⟩ := atoms_cons.1 hd
      have hlegible := legible_toData hargs hd fun p hp d ↦ ih p hp
      cases ps with
      | nil => exact legible_of_symbol hsymbol
      | cons p ps => exact atoms_cons.2 ⟨legible_of_symbol hsymbol, hlegible⟩
  | variadic min max ps ih =>
    cases understood_of_ofDatum h with
    | variadic hoptions hargs =>
      obtain ⟨hsymbol, hd⟩ := atoms_cons.1 hd
      obtain ⟨hbounds, hrest⟩ := sayable_of_options hoptions hd (by simp)
      rw [toDatum, atoms_cons, List.forall_mem_append, List.forall_mem_append]
      refine ⟨legible_of_symbol hsymbol, ⟨?_, ?_⟩, legible_toData hargs hrest fun p hp d ↦ ih p hp⟩
      · exact legible_optionData (legible_word (by decide) (by decide) rfl)
          fun n hn ↦ hbounds n (.inl hn)
      · exact legible_optionData (legible_word (by decide) (by decide) rfl)
          fun n hn ↦ hbounds n (.inr hn)
  | all bound body ih =>
    cases understood_of_ofDatum h with
    | all hbound hread =>
      simp only [atoms_list, List.forall_mem_cons] at hd
      obtain ⟨hsymbol, hnames, hd, -⟩ := hd
      obtain ⟨hmap, hlegibles⟩ := forall₂_varDatum hbound hnames
      rw [toDatum, hmap]
      simp only [atoms_list, List.forall_mem_cons]
      exact ⟨legible_of_symbol hsymbol, hlegibles, ih hread hd, by simp⟩

/-- If `t` was read from a datum with sayable atoms, it is read again from `t.toDatum`, whose atoms
are legible. -/
def ReadBack (t : Ty) : Prop :=
  ∀ d, ofDatum d = .ok t → d.Atoms Sayable →
    ofDatum t.toDatum = .ok t ∧ t.toDatum.Atoms Legible

theorem readBack_row {ds : List Datum} {ps : List Ty}
    (h : List.Forall₂ (fun d t ↦ ofDatum d = .ok t) ds ps) (hds : ∀ d ∈ ds, d.Atoms Sayable)
    (hps : ∀ p ∈ ps, p.ReadBack) : List.Forall₂ (fun d t ↦ ofDatum d = .ok t) (toData ps) ps := by
  induction h with
  | nil => exact .nil
  | cons h _ ih =>
    obtain ⟨hd, hds⟩ := List.forall_mem_cons.1 hds
    obtain ⟨hp, hps⟩ := List.forall_mem_cons.1 hps
    exact .cons (hp _ h hd).1 (ih hds hps)

theorem readBack_var (name : String) : (var name).ReadBack := by
  intro d h hd
  refine ⟨?_, legible_toDatum h hd⟩
  cases understood_of_ofDatum h with
  | var hname => rwa [toDatum, varDatum_of_varName hname hd]

/-- If `t.toDatum` is a list, then `t` was read from a list. -/
theorem eq_list_of_toDatum {d : Datum} {t : Ty} {ds : List Datum} (h : ofDatum d = .ok t)
    (ht : t.toDatum = .list ds) : ∃ ds', d = .list ds' := by
  cases understood_of_ofDatum h with
  | var =>
    rw [toDatum, varDatum] at ht
    split at ht
    · cases ht
    · split at ht <;> cases ht
  | tag => cases ht
  | all => exact ⟨_, rfl⟩
  | variadic => exact ⟨_, rfl⟩
  | con => exact ⟨_, rfl⟩

theorem readBack_con {tag : String} {ps : List Ty}
    (htag : ps = [] → tag.toList.head? ≠ some '#') (hps : ∀ p ∈ ps, p.ReadBack) :
    (con tag ps).ReadBack := by
  intro d h hd
  refine ⟨?_, legible_toDatum h hd⟩
  cases understood_of_ofDatum h with
  | tag => exact h
  | con hall hvariadic hargs =>
    have hreads := readBack_row hargs (atoms_cons.1 hd).2 hps
    cases ps with
    | nil => exact ofDatum_of_understood (.tag (markedName?_eq_none_iff.2 (htag rfl)))
    | cons p ps =>
      refine ofDatum_of_understood (.con ?_ hvariadic hreads)
      -- `All` with two parameters is a quantifier only if the first is a list, and it was none
      rintro names body rfl hrow
      obtain ⟨hp, hrow⟩ := List.cons.inj hrow
      cases hargs with
      | cons hfirst hrest =>
        obtain ⟨names', rfl⟩ := eq_list_of_toDatum hfirst hp
        have hlength : ps.length = 1 := by
          rw [toData_eq_map] at hrow
          simpa using congrArg List.length hrow
        obtain ⟨d, rfl⟩ := List.length_eq_one_iff.1 (hrest.length_eq.trans hlength)
        exact hall names' d rfl rfl

theorem readBack_variadic {min max : Option Int} {ps : List Ty}
    (hfirst : ∀ p ∈ ps.head?, p ≠ .con ":min" [] ∧ p ≠ .con ":max" [])
    (hps : ∀ p ∈ ps, p.ReadBack) : (variadic min max ps).ReadBack := by
  intro d h hd
  refine ⟨?_, legible_toDatum h hd⟩
  cases understood_of_ofDatum h with
  | variadic hoptions hargs =>
    obtain ⟨-, hrest⟩ := sayable_of_options hoptions (atoms_cons.1 hd).2 (by simp)
    have hkeys : ∀ d ∈ (toData ps).head?, d ≠ .symbol ":min" ∧ d ≠ .symbol ":max" := by
      intro d hmem
      rw [toData_eq_map, List.head?_map] at hmem
      obtain ⟨p, hp, rfl⟩ := Option.map_eq_some_iff.1 hmem
      exact ⟨toDatum_ne_key (.inl rfl) (hfirst p hp).1, toDatum_ne_key (.inr rfl) (hfirst p hp).2⟩
    refine ofDatum_of_understood (.variadic ?_ (readBack_row hargs hrest hps))
    rw [options_optionData, options_of_head? hkeys]

theorem readBack_all {bound : List String} {body : Ty} (hbody : body.ReadBack) :
    (all bound body).ReadBack := by
  intro d h hd
  refine ⟨?_, legible_toDatum h hd⟩
  cases understood_of_ofDatum h with
  | all hbound hread =>
    simp only [atoms_list, List.forall_mem_cons] at hd
    rw [toDatum, (forall₂_varDatum hbound hd.2.1).1]
    exact ofDatum_of_understood (.all hbound (hbody _ hread hd.2.2.1).1)

/-- A `Writable` type is `ReadBack`. -/
theorem Writable.readBack {t : Ty} (ht : t.Writable) : t.ReadBack := by
  induction t with
  | var name => exact readBack_var name
  | unknown id => cases ht
  | con tag ps ih =>
    cases ht with
    | con htag _ _ hps => exact readBack_con (fun _ ↦ htag) fun p hp ↦ ih p hp (hps p hp)
  | variadic min max ps ih =>
    cases ht with
    | variadic hfirst hps => exact readBack_variadic hfirst fun p hp ↦ ih p hp (hps p hp)
  | all bound body ih =>
    cases ht with
    | all _ hbody => exact readBack_all (ih hbody)

end Ty

end SchemeTyping
