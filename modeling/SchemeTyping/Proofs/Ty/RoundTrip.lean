import SchemeTyping.Proofs.Ty.Text

/-!
# Types that are read back from their text

A constructor without parameters is written without parentheses, whether it was read from a list or
from a symbol.  So the text of `(#a)` is that of a variable, and the text of `(Function* (:min) A)`
that of an option without its number.  These are the only two ways in which a type that was read can
be mistaken.

## What is here

* `unambiguous` — neither of the two occurs.
* `unambiguous_of_ofDatum`, `ofDatum_toDatum_iff` — a type is read from its datum exactly if it is
  unambiguous.
* `read_text_iff_unambiguous` — the same of texts.
-/

set_option autoImplicit false

namespace SchemeTyping.Ty

open Datum

mutual

/-- Whether no constructor without parameters has a tag that begins with `#`, and no variadic
function has the constructor `:min` or `:max` without parameters for its first parameter. -/
def unambiguous : Ty → Bool
  | .con tag ps => (!ps.isEmpty || tag.toList.head? != some '#') && unambiguousList ps
  | .variadic _ _ ps =>
    ps.head? != some (.con ":min" []) && ps.head? != some (.con ":max" []) && unambiguousList ps
  | .all _ body => body.unambiguous
  | _ => true

/-- Whether every type of a list is `unambiguous`. -/
def unambiguousList : List Ty → Bool
  | [] => true
  | t :: ts => t.unambiguous && unambiguousList ts

end

variable {t : Ty} {tag : String} {ps : List Ty} {min max : Option Int}

theorem unambiguousList_eq_all (ts : List Ty) : unambiguousList ts = ts.all unambiguous := by
  induction ts with
  | nil => rfl
  | cons t ts ih => rw [unambiguousList, ih, List.all_cons]

theorem unambiguous_con : (con tag ps).unambiguous = true ↔
    (ps = [] → tag.toList.head? ≠ some '#') ∧ ∀ p ∈ ps, p.unambiguous = true := by
  cases ps <;> simp [unambiguous, unambiguousList_eq_all]

theorem unambiguous_variadic : (variadic min max ps).unambiguous = true ↔
    (∀ p ∈ ps.head?, p ≠ .con ":min" [] ∧ p ≠ .con ":max" []) ∧ ∀ p ∈ ps, p.unambiguous = true := by
  cases ps <;> simp [unambiguous, unambiguousList_eq_all]

/-! ## What is read back is not mistaken -/

/-- `options` leaves a tail of the list, and a shorter one if the list begins with `:min` or
`:max`. -/
theorem length_of_options {min max min' max' : Option Int} {ds rest : List Datum}
    (h : options min max ds = .ok (min', max', rest)) : rest.length ≤ ds.length ∧
      ∀ d ∈ ds.head?, d = .symbol ":min" ∨ d = .symbol ":max" → rest.length < ds.length := by
  fun_induction options min max ds with
  | case1 min max n ds ih =>
    have := (ih h).1
    simp only [List.length_cons]
    exact ⟨by omega, fun _ _ _ ↦ by omega⟩
  | case2 min max n ds ih =>
    have := (ih h).1
    simp only [List.length_cons]
    exact ⟨by omega, fun _ _ _ ↦ by omega⟩
  | case3 => cases h
  | case4 => cases h
  | case5 min max ds _ _ hmin hmax =>
    cases h
    refine ⟨Nat.le_refl _, fun d hd hkey ↦ ?_⟩
    obtain ⟨ds', rfl⟩ := List.head?_eq_some_iff.1 hd
    rcases hkey with rfl | rfl
    · exact absurd rfl (hmin ds')
    · exact absurd rfl (hmax ds')

/-- If `ps` are read from `toData ps`, then each of them is read from its datum. -/
theorem ofDatum_toDatum_of_forall₂
    (h : List.Forall₂ (fun d t ↦ ofDatum d = .ok t) (toData ps) ps) :
    ∀ p ∈ ps, ofDatum p.toDatum = .ok p := by
  rw [toData_eq_map, List.forall₂_map_left_iff, List.forall₂_same] at h
  exact h

/-- A type that is read from its own datum is unambiguous. -/
theorem unambiguous_of_ofDatum (h : ofDatum t.toDatum = .ok t) : t.unambiguous = true := by
  induction t with
  | var => rfl
  | unknown => rfl
  | con tag ps ih =>
    rw [unambiguous_con]
    cases ps with
    | nil =>
      refine ⟨fun _ ↦ ?_, nofun⟩
      cases understood_of_ofDatum h with
      | tag hmark => exact markedName?_eq_none_iff.1 hmark
    | cons p ps =>
      refine ⟨nofun, fun q hq ↦ ih q hq ?_⟩
      generalize hd : (con tag (p :: ps)).toDatum = d at h
      cases understood_of_ofDatum h with
      | con _ _ hrow =>
        cases hd
        exact @ofDatum_toDatum_of_forall₂ (p :: ps) hrow q hq
  | variadic min max ps ih =>
    rw [unambiguous_variadic]
    generalize hd : (variadic min max ps).toDatum = d at h
    cases understood_of_ofDatum h with
    | variadic hoptions hrow =>
      cases hd
      rw [options_optionData] at hoptions
      -- An option among the parameters would take away two of them.
      have hkeys : ∀ d ∈ (toData ps).head?, d ≠ .symbol ":min" ∧ d ≠ .symbol ":max" := by
        intro d hd
        have hlt := (length_of_options hoptions).2 d hd
        rw [hrow.length_eq, toData_eq_map, List.length_map] at hlt
        exact not_or.1 fun hkey ↦ Nat.lt_irrefl _ (hlt hkey)
      rw [options_of_head? hkeys] at hoptions
      cases hoptions
      refine ⟨fun p hp ↦ ?_, fun p hp ↦ ih p hp (ofDatum_toDatum_of_forall₂ hrow p hp)⟩
      rw [toData_eq_map, List.head?_map, Option.mem_def.1 hp] at hkeys
      obtain ⟨hmin, hmax⟩ := hkeys _ rfl
      refine ⟨?_, ?_⟩
      · rintro rfl
        exact hmin rfl
      · rintro rfl
        exact hmax rfl
  | all bound body ih =>
    generalize hd : (all bound body).toDatum = d at h
    cases understood_of_ofDatum h with
    | all _ hbody =>
      cases hd
      exact ih hbody

/-! ## What is not mistaken is read back -/

theorem readBack_of_unambiguous (h : t.unambiguous = true) : t.ReadBack := by
  induction t with
  | var name => exact readBack_var name
  | unknown id => intro d hd; cases understood_of_ofDatum hd
  | con tag ps ih =>
    obtain ⟨htag, hps⟩ := unambiguous_con.1 h
    exact readBack_con htag fun p hp ↦ ih p hp (hps p hp)
  | variadic min max ps ih =>
    obtain ⟨hfirst, hps⟩ := unambiguous_variadic.1 h
    exact readBack_variadic hfirst fun p hp ↦ ih p hp (hps p hp)
  | all bound body ih => exact readBack_all (ih h)

theorem ofDatum_toDatum_iff {d : Datum} (h : ofDatum d = .ok t) (hd : d.Atoms Token.Sayable) :
    ofDatum t.toDatum = .ok t ↔ t.unambiguous = true :=
  ⟨unambiguous_of_ofDatum, fun ht ↦ (readBack_of_unambiguous ht d h hd).1⟩

/-- **A type that was read is read back from its text** exactly if it is `unambiguous`: none of its
constructors without parameters carries the mark of a variable, and none of its variadic functions
begins with the constructor `:min` or `:max` without parameters. -/
theorem read_text_iff_unambiguous {source : String} (h : read source = .ok t) :
    read t.text = .ok t ↔ t.unambiguous = true := by
  obtain ⟨d, hd, h⟩ := bind_eq_ok_iff.1 h
  have hsayable := sayable_of_read hd
  have htext : Datum.read t.text = .ok t.toDatum := by
    rw [← text_toDatum, Datum.read_text (legible_toDatum h hsayable)]
  rw [← ofDatum_toDatum_iff h hsayable, read, htext]
  rfl

/-- A marked constructor with parameters, `:min` as a later parameter and the symbol for a truth
value are all read back. -/
theorem read_text_iff_unambiguous_nested :
    ∃ t, read "(All (#a #true) (Function* :max 2 (#b :min) (List (:min)) #a))" = .ok t ∧
      t.unambiguous = true ∧ read t.text = .ok t := by
  have hread : read "(All (#a #true) (Function* :max 2 (#b :min) (List (:min)) #a))" =
      .ok (.all ["a", "t"] (.variadic none (some 2) [.con "#b" [.con ":min" []],
        .con "List" [.con ":min" []], .var "a"])) := by decide +kernel
  have hclear : (Ty.all ["a", "t"] (.variadic none (some 2) [.con "#b" [.con ":min" []],
      .con "List" [.con ":min" []], .var "a"])).unambiguous = true := by decide +kernel
  exact ⟨_, hread, hclear, (read_text_iff_unambiguous hread).2 hclear⟩

/-- The text of `(#a)` is that of a variable, and in the text of `(Function* (:min) A)` the reader
takes `:min` for an option and finds no number after it. -/
theorem read_text_mistaken :
    read "(#a)" = .ok (.con "#a" []) ∧ read (con "#a" []).text = .ok (.var "a") ∧
    read "(Function* (:min) A)" = .ok (.variadic none none [.con ":min" [], .con "A" []]) ∧
    read (variadic none none [.con ":min" [], .con "A" []]).text =
      .error (.integerExpected ":min") := by
  exact ⟨by decide +kernel, by decide +kernel,
    by decide +kernel, by decide +kernel⟩

end SchemeTyping.Ty
