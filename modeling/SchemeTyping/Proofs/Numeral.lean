import Mathlib.Algebra.Order.Ring.Nat
import Mathlib.Data.List.Induction
import Mathlib.Data.List.TakeWhile
import SchemeTyping.Number.Basic

/-!
# Number words

## What is here

* `NumberWord`, `isSome_read?_iff` — the grammar of number words, which are the words that
  `Numeral.read?` accepts.
* `Decimal cs n` — the digits `cs` stand for `n`.
* `value_of_decimal` — a sign and at most `exactLimit` digits are read as the exact number they
  stand for; `decimal_toDigits` says that the decimal text of an integer is of this form.
-/

set_option autoImplicit false

namespace SchemeTyping

section Stops

variable {α : Type} {p : α → Bool} {l r : List α}

theorem takeWhile_append_stop (l : List α) (hr : ∀ a ∈ r.head?, p a = false) :
    (l ++ r).takeWhile p = l.takeWhile p := by
  induction l with
  | nil => cases r <;> simp_all
  | cons a l ih => simp only [List.cons_append, List.takeWhile_cons, ih]

theorem dropWhile_append_stop (l : List α) (hr : ∀ a ∈ r.head?, p a = false) :
    (l ++ r).dropWhile p = l.dropWhile p ++ r := by
  induction l with
  | nil => cases r <;> simp_all
  | cons a l ih =>
    simp only [List.cons_append, List.dropWhile_cons, ih]
    split <;> rfl

/-- `takeWhile p` ends where a list with `p` is followed by something without. -/
theorem takeWhile_append_of_head? (hl : ∀ a ∈ l, p a = true) (hr : ∀ a ∈ r.head?, p a = false) :
    (l ++ r).takeWhile p = l := by
  rw [takeWhile_append_stop l hr, List.takeWhile_eq_self_iff.2 hl]

theorem dropWhile_append_of_head? (hl : ∀ a ∈ l, p a = true) (hr : ∀ a ∈ r.head?, p a = false) :
    (l ++ r).dropWhile p = r := by
  rw [dropWhile_append_stop l hr, List.dropWhile_eq_nil_iff.2 hl, List.nil_append]

end Stops

namespace Numeral

open Text

/-! ## Digits -/

/-- `Decimal cs n`: the digits `cs`, zeros in front allowed, stand for `n`. -/
inductive Decimal : List Char → Nat → Prop
  | digit {c : Char} {d : Nat} (hd : digitValue? c = some d) : Decimal [c] d
  | append {cs : List Char} {c : Char} {n d : Nat} (h : Decimal cs n)
      (hd : digitValue? c = some d) : Decimal (cs ++ [c]) (10 * n + d)

theorem digitsValue_append (cs : List Char) (c : Char) :
    digitsValue (cs ++ [c]) = 10 * digitsValue cs + (digitValue? c).getD 0 := by
  simp [digitsValue]

theorem digitValue?_lt {c : Char} {d : Nat} (h : digitValue? c = some d) : d < 10 := by
  obtain ⟨z, hz, rfl⟩ := Option.map_eq_some_iff.1 h
  have := List.find?_some hz
  simp only [Bool.and_eq_true, decide_eq_true_eq] at this
  omega

theorem digitsValue_lt_pow (cs : List Char) : digitsValue cs < 10 ^ cs.length := by
  induction cs using List.reverseRecOn with
  | nil => simp [digitsValue]
  | append_singleton cs c ih =>
    have hd : (digitValue? c).getD 0 < 10 := by
      cases h : digitValue? c with
      | none => simp
      | some d => exact digitValue?_lt h
    rw [digitsValue_append, List.length_append, List.length_singleton, pow_succ]
    omega

theorem isDigit_of_digitValue? {c : Char} {d : Nat} (h : digitValue? c = some d) :
    isDigit c = true := by
  rw [isDigit, h]
  rfl

namespace Decimal

variable {cs : List Char} {n : Nat}

theorem ne_nil (h : Decimal cs n) : cs ≠ [] := by
  cases h <;> simp

theorem isDigit (h : Decimal cs n) : ∀ c ∈ cs, Text.isDigit c = true := by
  induction h with
  | digit hd => simpa using isDigit_of_digitValue? hd
  | append _ hd ih =>
    intro c hc
    rcases List.mem_append.1 hc with hc | hc
    · exact ih c hc
    · rw [List.mem_singleton.1 hc]
      exact isDigit_of_digitValue? hd

theorem digitsValue_eq (h : Decimal cs n) : digitsValue cs = n := by
  induction h with
  | digit hd => simp [digitsValue, hd]
  | append _ hd ih => rw [digitsValue_append, ih, hd, Option.getD_some]

end Decimal

theorem digitValue?_digitChar : ∀ d < 10, digitValue? (Nat.digitChar d) = some d := by decide

/-- `Nat.toDigits 10 n` stands for `n`. -/
theorem decimal_toDigits (n : Nat) : Decimal (Nat.toDigits 10 n) n := by
  induction n using Nat.strong_induction_on with
  | _ n ih =>
    rw [Nat.toDigits_eq_if (by omega)]
    split
    · exact .digit (digitValue?_digitChar n ‹_›)
    · have h := (ih (n / 10) (by omega)).append (digitValue?_digitChar (n % 10) (by omega))
      rwa [Nat.div_add_mod] at h

/-! ## The grammar -/

/-- An optional sign, and whether it is a minus. -/
inductive Sign : List Char → Bool → Prop
  | none : Sign [] false
  | plus : Sign ['+'] false
  | minus : Sign ['-'] true

/-- At least one digit, with at most one point before, among or after the digits. -/
inductive Mantissa : List Char → Prop
  | whole {ds : List Char} (hne : ds ≠ []) (hds : ∀ c ∈ ds, isDigit c = true) : Mantissa ds
  | point {ds fs : List Char} (hne : ds ≠ [] ∨ fs ≠ []) (hds : ∀ c ∈ ds, isDigit c = true)
      (hfs : ∀ c ∈ fs, isDigit c = true) : Mantissa (ds ++ '.' :: fs)

/-- Empty, or a power of ten. -/
inductive Exponent : List Char → Prop
  | none : Exponent []
  | power {e : Char} {s ds : List Char} {negative : Bool} (he : e = 'e' ∨ e = 'E')
      (hs : Sign s negative) (hne : ds ≠ []) (hds : ∀ c ∈ ds, isDigit c = true) :
      Exponent (e :: (s ++ ds))

/-- The words that are numbers: a sign, a mantissa and an exponent. -/
def NumberWord (w : List Char) : Prop :=
  ∃ s negative m x, Sign s negative ∧ Mantissa m ∧ Exponent x ∧ w = s ++ (m ++ x)

theorem signed_append {s cs : List Char} {negative : Bool} (hs : Sign s negative)
    (hcs : signed cs = (false, cs)) : signed (s ++ cs) = (negative, cs) := by
  cases hs with
  | none => exact hcs
  | plus => rfl
  | minus => rfl

theorem exists_sign (cs : List Char) : ∃ s, Sign s (signed cs).1 ∧ cs = s ++ (signed cs).2 := by
  rw [signed.eq_def]
  split
  · exact ⟨_, .minus, rfl⟩
  · exact ⟨_, .plus, rfl⟩
  · exact ⟨_, .none, rfl⟩

theorem signed_of_isDigit {c : Char} {cs : List Char} (hc : isDigit c = true ∨ c = '.') :
    signed (c :: cs) = (false, c :: cs) := by
  rw [signed.eq_def]
  split
  · next h => cases h; simp +decide at hc
  · next h => cases h; simp +decide at hc
  · rfl

theorem signed_of_forall_isDigit {ds x : List Char} (hne : ds ≠ [])
    (hds : ∀ c ∈ ds, isDigit c = true) : signed (ds ++ x) = (false, ds ++ x) := by
  cases ds with
  | nil => exact absurd rfl hne
  | cons d ds => exact signed_of_isDigit (.inl (hds d (by simp)))

theorem Mantissa.signed {m x : List Char} (h : Mantissa m) :
    Numeral.signed (m ++ x) = (false, m ++ x) := by
  cases h with
  | whole hne hds => exact signed_of_forall_isDigit hne hds
  | @point ds fs hne hds _ =>
    by_cases hd : ds = []
    · subst hd
      exact signed_of_isDigit (.inr rfl)
    · rw [List.append_assoc]
      exact signed_of_forall_isDigit hd hds

theorem Exponent.head {x : List Char} (h : Exponent x) :
    ∀ c ∈ x.head?, isDigit c = false ∧ c ≠ '.' := by
  cases h with
  | none => simp
  | power he => rcases he with rfl | rfl <;> simp +decide

theorem Exponent.isSome_readExponent? {x : List Char} (h : Exponent x) :
    (readExponent? x).isSome := by
  cases h with
  | none => rfl
  | @power e s ds negative he hs hne hds =>
    have hsigned : Numeral.signed (s ++ ds) = (negative, ds) :=
      signed_append hs (by simpa using signed_of_forall_isDigit (x := []) hne hds)
    have he : (e == 'e' || e == 'E') = true := by simpa using he
    have hempty : ds.isEmpty = false := by simpa using hne
    have hall : ds.all Text.isDigit = true := by simpa using hds
    simp [readExponent?, he, hsigned, hempty, hall]

theorem exponent_of_readExponent? {x : List Char} (h : (readExponent? x).isSome) : Exponent x := by
  cases x with
  | nil => exact .none
  | cons e cs =>
    simp only [readExponent?] at h
    split at h
    · next he =>
      obtain ⟨s, hs, hcs⟩ := exists_sign cs
      split at h
      · next hds =>
        simp only [Bool.and_eq_true, Bool.not_eq_true', List.isEmpty_eq_false_iff,
          List.all_eq_true] at hds
        rw [hcs]
        exact .power (by simpa using he) hs hds.1 hds.2
      · simp at h
    · simp at h

theorem isSome_read?_of_numberWord {w : List Char} (h : NumberWord w) : (read? w).isSome := by
  obtain ⟨s, negative, m, x, hs, hm, hx, rfl⟩ := h
  rw [read?, signed_append hs hm.signed]
  have hxdigit : ∀ c ∈ x.head?, isDigit c = false := fun c hc ↦ (hx.head c hc).1
  cases hm with
  | whole hne hds =>
    simp only [takeWhile_append_of_head? hds hxdigit, dropWhile_append_of_head? hds hxdigit]
    split
    · exact absurd rfl (hx.head '.' rfl).2
    · simpa [hne] using hx.isSome_readExponent?
  | @point ds fs hne hds hfs =>
    have hpoint : ∀ c ∈ ('.' :: (fs ++ x)).head?, isDigit c = false := by simp +decide
    simp only [List.append_assoc, List.cons_append, takeWhile_append_of_head? hds hpoint,
      dropWhile_append_of_head? hds hpoint, takeWhile_append_of_head? hfs hxdigit,
      dropWhile_append_of_head? hfs hxdigit]
    rw [if_neg (by simpa [or_iff_not_imp_left] using hne)]
    simpa using hx.isSome_readExponent?

theorem numberWord_of_isSome_read? {w : List Char} (h : (read? w).isSome) : NumberWord w := by
  obtain ⟨s, hs, hw⟩ := exists_sign w
  set cs := (signed w).2
  have hcs := List.takeWhile_append_dropWhile (p := isDigit) (l := cs)
  have hdigits : ∀ (l : List Char), ∀ c ∈ l.takeWhile isDigit, isDigit c = true :=
    fun l c hc ↦ List.mem_takeWhile_imp hc
  refine ⟨s, (signed w).1, ?_⟩
  simp only [read?] at h
  split at h
  · next rest hrest =>
    split at h
    · simp at h
    · next hne =>
      refine ⟨cs.takeWhile isDigit ++ '.' :: rest.takeWhile isDigit, rest.dropWhile isDigit, hs,
        .point (by simpa [or_iff_not_imp_left] using hne) (hdigits _) (hdigits _),
        exponent_of_readExponent? (by simpa using h), ?_⟩
      rw [hw, List.append_assoc, List.cons_append, List.takeWhile_append_dropWhile, ← hrest, hcs]
  · split at h
    · simp at h
    · next hne =>
      exact ⟨cs.takeWhile isDigit, cs.dropWhile isDigit, hs,
        .whole (by simpa using hne) (hdigits _),
        exponent_of_readExponent? (by simpa using h), by rw [hcs, hw]⟩

/-- `read?` accepts exactly the number words. -/
theorem isSome_read?_iff {w : List Char} : (read? w).isSome ↔ NumberWord w :=
  ⟨numberWord_of_isSome_read?, isSome_read?_of_numberWord⟩

/-! ## Exact numbers -/

/-- A sign and at most `exactLimit` digits are read as the integer that they stand for. -/
theorem value_of_decimal {s ds : List Char} {negative : Bool} {n : Nat} (hs : Sign s negative)
    (hd : Decimal ds n) (hlen : ds.length ≤ exactLimit) :
    (read? (s ++ ds)).map value = some (.exact (if negative then -(n : Int) else n)) := by
  have hsigned : signed (s ++ ds) = (negative, ds) :=
    signed_append hs (by simpa using signed_of_forall_isDigit (x := []) hd.ne_nil hd.isDigit)
  have htake : ds.takeWhile isDigit = ds := List.takeWhile_eq_self_iff.2 hd.isDigit
  have hdrop : ds.dropWhile isDigit = [] := by
    simpa using dropWhile_append_of_head? (r := []) hd.isDigit (by simp)
  simp [read?, hsigned, htake, hdrop, hd.ne_nil, readExponent?, value, hlen, hd.digitsValue_eq]

/-- An exact number that was read has no more digits than `exactLimit`. -/
theorem length_toDigits_le_of_value {numeral : Numeral} {n : Int} (h : numeral.value = .exact n) :
    (Nat.toDigits 10 n.natAbs).length ≤ exactLimit := by
  rw [value] at h
  split at h
  · next hexact =>
    simp only [Bool.and_eq_true, decide_eq_true_eq] at hexact
    have hn : n.natAbs = digitsValue numeral.whole := by
      rw [← Number.exact.inj h]
      split <;> simp
    rw [hn, Nat.length_toDigits_le_iff (by omega) (by decide)]
    calc digitsValue numeral.whole
        < 10 ^ numeral.whole.length := digitsValue_lt_pow _
      _ ≤ 10 ^ exactLimit := Nat.pow_le_pow_right (by omega) hexact.2
  · simp at h

end Numeral

end SchemeTyping
