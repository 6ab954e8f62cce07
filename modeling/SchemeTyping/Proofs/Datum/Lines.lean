import SchemeTyping.Proofs.Datum.Reader
import SchemeTyping.Proofs.Ty.Text
import SchemeTyping.Tree.Basic

/-!
# Texts line by line

No token continues after the end of a line, and a text that can be read leaves nothing open.  So the
lines after it are read as a text of their own.

## What is here

* `scan_append_line` — the tokens of a text and of the lines after it.
* `scan_moved` — the tokens do not depend on where a text begins, only their positions do.
* `readAll_append_line`, `readAll_lines` — the data of both, and the trees.
-/

set_option autoImplicit false

namespace SchemeTyping

/-! ## Tokens and the ends of lines -/

namespace Token

open Text

/-- `string?` does not look at what follows the string. -/
theorem string?_append {cs : List Char} {t : StringLiteral} (h : string? cs = some t)
    (r : List Char) : string? (cs ++ r) = some { t with rest := t.rest ++ r } := by
  fun_induction string? cs generalizing t with
  | case1 => cases h
  | case2 => cases h
  | case3 c cs hc ih =>
    obtain ⟨t, ht, rfl⟩ := Option.map_eq_some_iff.1 h
    simp [string?, hc, ih ht]
  | case4 c cs hesc hc =>
    cases h
    simp_all [string?]
  | case5 => cases h
  | case6 c cs hesc hquote hline ih =>
    obtain ⟨t, ht, rfl⟩ := Option.map_eq_some_iff.1 h
    have hc : c ≠ '\\' := by
      rintro rfl
      cases cs with
      | nil => cases ht
      | cons c cs => exact hesc c cs rfl rfl
    simp [string?, hc, hquote, hline, ih ht]

/-- The tokens of a text that can be scanned come before those of the lines after it. -/
theorem scan_append_line {cs : List Char} {p : Position} (h : (scan cs p).failure = none)
    (r : List Char) : ∃ q, scan (cs ++ '\n' :: r) p =
      ⟨(scan cs p).tokens ++ (scan r q).tokens, (scan r q).failure⟩ := by
  have hword : ∀ c ∈ ('\n' :: r).head?, isWordChar c = false := by simp +decide
  fun_induction scan cs p with
  | case1 p => exact ⟨p.after '\n', by simp +decide [scan]⟩
  | case2 c cs p hc ih =>
    rw [List.cons_append, scan, if_pos hc]
    exact ih h
  | case3 c cs p hskip hc ih =>
    rw [List.cons_append, scan, if_neg hskip, if_pos hc,
      takeWhile_append_stop cs (by simp), dropWhile_append_stop cs (by simp)]
    exact ih h
  | case4 c cs p hskip hcomment hc ih =>
    obtain ⟨q, hq⟩ := ih h
    exact ⟨q, by simp [scan, hskip, hcomment, hc, hq, Scan.cons]⟩
  | case5 c cs p hskip hcomment hopen hc ih =>
    obtain ⟨q, hq⟩ := ih h
    exact ⟨q, by simp [scan, hskip, hcomment, hopen, hc, hq, Scan.cons]⟩
  | case6 c cs p hskip hcomment hopen hclose hc ih =>
    obtain ⟨q, hq⟩ := ih h
    exact ⟨q, by simp [scan, hskip, hcomment, hopen, hclose, hc, hq, Scan.cons]⟩
  | case7 => cases h
  | case8 c cs p hskip hcomment hopen hclose hquote hc s hs ih =>
    obtain ⟨q, hq⟩ := ih h
    obtain rfl := beq_iff_eq.1 hc
    exact ⟨q, by rw [List.cons_append, scan_string (string?_append hs _), hq]; rfl⟩
  | case9 => cases h
  | case10 c cs p hskip hcomment hopen hclose hquote hstring hblank word ih =>
    obtain ⟨q, hq⟩ := ih h
    have hc : isWordChar c = true := by simp_all [isWordChar_iff]
    refine ⟨q, ?_⟩
    rw [List.cons_append, scan_word hc, takeWhile_append_stop cs hword,
      dropWhile_append_stop cs hword, hq]
    rfl

/-- The tokens of a text and whether it can be scanned do not depend on where it begins. -/
theorem scan_moved (cs : List Char) (p q : Position) :
    (scan cs p).tokens.map Prod.fst = (scan cs q).tokens.map Prod.fst ∧
      (scan cs p).failure.isNone = (scan cs q).failure.isNone := by
  fun_induction scan cs p generalizing q with
  | case1 p => simp [scan]
  | case2 c cs p hc ih => simpa [scan, hc] using ih _
  | case3 c cs p hskip hc ih => simpa [scan, hskip, hc] using ih _
  | case4 c cs p hskip hcomment hc ih => simpa [scan, hskip, hcomment, hc, Scan.cons] using ih _
  | case5 c cs p hskip hcomment hopen hc ih =>
    simpa [scan, hskip, hcomment, hopen, hc, Scan.cons] using ih _
  | case6 c cs p hskip hcomment hopen hclose hc ih =>
    simpa [scan, hskip, hcomment, hopen, hclose, hc, Scan.cons] using ih _
  | case7 c cs p hskip hcomment hopen hclose hquote hc hs =>
    obtain rfl := beq_iff_eq.1 hc
    rw [scan_unclosed hs]
    exact ⟨rfl, rfl⟩
  | case8 c cs p hskip hcomment hopen hclose hquote hc s hs ih =>
    obtain rfl := beq_iff_eq.1 hc
    rw [scan_string hs]
    simpa [Scan.cons] using ih _
  | case9 c cs p hskip hcomment hopen hclose hquote hstring hblank =>
    simp [scan, hskip, hcomment, hopen, hclose, hquote, hstring, hblank]
  | case10 c cs p hskip hcomment hopen hclose hquote hstring hblank word ih =>
    have hc : isWordChar c = true := by simp_all [isWordChar_iff]
    rw [scan_word hc]
    simpa [Scan.cons, word] using ih _

end Token

/-! ## Putting the tokens together -/

namespace Datum

theorem deliver_append (d : Datum) (frames : List Frame) (forms old : List Datum) :
    deliver d frames (forms ++ old) =
      ((deliver d frames forms).1, (deliver d frames forms).2 ++ old) := by
  fun_induction deliver d frames forms with
  | case1 => rfl
  | case2 => rfl
  | case3 d frames forms ih => rw [deliver, ih]

/-- Finished forms stay in front of those that `assemble` adds. -/
theorem assemble_append (failure : Option SyntaxError) (placed : List (Token × Position))
    (last : Position) (frames : List Frame) (forms old : List Datum) :
    assemble failure placed last frames (forms ++ old) =
      (assemble failure placed last frames forms).map (old.reverse ++ ·) := by
  induction placed generalizing last frames forms with
  | nil =>
    cases failure <;> cases frames <;> simp [assemble, Except.map]
  | cons x ts ih =>
    obtain ⟨t, p⟩ := x
    cases t with
    | atom d => rw [assemble, assemble, deliver_append, ih]
    | close =>
      rcases frames with _ | ⟨items | _, frames⟩
      · rfl
      · rw [assemble, assemble, deliver_append, ih]
      · rfl
    | _ => rw [assemble, assemble, ih]

/-- A text `y` after a text `x` that can be read, on new lines, is read as on its own. -/
theorem readAll_append_line {x y : String} {ds es : List Datum} (hx : readAll x = .ok ds) :
    readAll (x ++ "\n" ++ y) = .ok es ↔ ∃ es', readAll y = .ok es' ∧ es = ds ++ es' := by
  obtain ⟨hfailure, htokens⟩ := readAll_eq_ok_iff.1 hx
  obtain ⟨q, hq⟩ := Token.scan_append_line hfailure y.toList
  have htext : (x ++ "\n" ++ y).toList = x.toList ++ '\n' :: y.toList := by simp
  obtain ⟨last, hrun⟩ := consumes_tokensList ds [] (Token.scan y.toList q).failure _
    (Token.scan y.toList q).tokens Position.start htokens
  -- After the first text nothing is open, and its data are finished.
  have hread : readAll (x ++ "\n" ++ y) = (assemble (Token.scan y.toList q).failure
      (Token.scan y.toList q).tokens last [] []).map (ds ++ ·) := by
    have hforms :=
      assemble_append (Token.scan y.toList q).failure (Token.scan y.toList q).tokens last
      [] [] ds.reverse
    rw [List.nil_append, List.reverse_reverse] at hforms
    rw [readAll, htext, hq, ← hforms]
    simpa using hrun
  obtain ⟨htokens', hfailure'⟩ := Token.scan_moved y.toList q Position.start
  rw [hread, map_eq_ok_iff]
  refine exists_congr fun es' ↦ and_congr ?_ eq_comm
  rw [assemble_scan_eq_ok_iff, readAll_eq_ok_iff, htokens', ← Option.isNone_iff_eq_none, hfailure',
    Option.isNone_iff_eq_none]

end Datum

/-! ## Trees -/

namespace Tree

theorem numbered_append (first : Nat) (es es' : List Expr) :
    numbered first (es ++ es') = numbered first es ++ numbered (first + es.length) es' := by
  rw [numbered, numbered, numbered, List.zipIdx_append, List.map_append, Nat.zero_add,
    List.zipIdx_eq_map_add (l := es')]
  simp [Function.comp_def, Nat.add_assoc]

theorem length_numbered (first : Nat) (es : List Expr) :
    (numbered first es).length = es.length := by
  simp [numbered]

/-- **Texts are read line by line.**  If `x` can be read, then `x ++ "\n" ++ y` can be read exactly
if `y` can, and its data are those of `x` followed by those of `y`.  So are its trees, where those
of `y` are numbered after those of `x`. -/
theorem readAll_lines {x : String} {ds : List Datum} (hx : Datum.readAll x = .ok ds) (y : String) :
    (∀ es, Datum.readAll (x ++ "\n" ++ y) = .ok es ↔
      ∃ es', Datum.readAll y = .ok es' ∧ es = ds ++ es') ∧
    ∀ first trees, readAll first (x ++ "\n" ++ y) = .ok trees ↔
      ∃ before after, readAll first x = .ok before ∧ readAll (first + before.length) y = .ok after ∧
        trees = before ++ after := by
  refine ⟨fun es ↦ Datum.readAll_append_line hx, fun first trees ↦ ?_⟩
  simp only [readAll, Expr.readAll, map_eq_ok_iff, bind_eq_ok_iff, Datum.readAll_append_line hx, hx]
  constructor
  · rintro ⟨_, ⟨_, ⟨es, hes, rfl⟩, hmap⟩, rfl⟩
    rw [List.mapM_append, bind_eq_ok_iff] at hmap
    obtain ⟨e, he, hmap⟩ := hmap
    obtain ⟨e', he', hpure⟩ := bind_eq_ok_iff.1 hmap
    cases pure_eq_ok_iff.1 hpure
    exact ⟨_, _, ⟨e, ⟨ds, rfl, he⟩, rfl⟩, ⟨e', ⟨es, hes, he'⟩, rfl⟩, by
      rw [numbered_append, length_numbered]⟩
  · rintro ⟨_, _, ⟨e, ⟨_, ⟨⟩, he⟩, rfl⟩, ⟨e', ⟨es, hes, he'⟩, rfl⟩, rfl⟩
    refine ⟨e ++ e', ⟨ds ++ es, ⟨es, hes, rfl⟩, ?_⟩, by rw [numbered_append, length_numbered]⟩
    rw [List.mapM_append, he, he']
    rfl

/-- The first text ends in a comment, and a quote in a string does not end it. -/
theorem readAll_lines_comment :
    Datum.readAll "(f \"\\\"\"\n#t);" = .ok [.list [.symbol "f", .string "\"", .bool true]] ∧
    Datum.readAll ("(f \"\\\"\"\n#t);" ++ "\n" ++ "-2 'x") =
      .ok [.list [.symbol "f", .string "\"", .bool true], .number (.exact (-2)),
        .quote (.symbol "x")] := by
  have hx : Datum.readAll "(f \"\\\"\"\n#t);" =
      .ok [.list [.symbol "f", .string "\"", .bool true]] := by decide +kernel
  have hy : Datum.readAll "-2 'x" = .ok [.number (.exact (-2)), .quote (.symbol "x")] := by
    decide +kernel
  exact ⟨hx, ((readAll_lines hx "-2 'x").1 _).2 ⟨_, hy, rfl⟩⟩

end Tree

end SchemeTyping
