import Mathlib.Data.List.Basic
import SchemeTyping.Proofs.Ty.Basic
import SchemeTyping.Ty.Subtype

/-!
# The laws of subtyping

`Below s t` says why `isSubtype` accepts `s` and `t`, with one constructor for each of its branches
and tests of the parameters as premises.  The laws are inductions on one of the types, by cases on
`Below`.

## What is here

* `isSubtype_iff_below` — `isSubtype` decides `Below`.
* `isSubtype_trans` — subtyping is transitive through a `Static` type, which has no gradual type.
* `isSubtype_antisymm` — two `Proper` types that are below each other are equal.
* `isSubtype_subst` — `Ty.subst` is monotone.
-/

set_option autoImplicit false

namespace SchemeTyping

open Ty

/-- The relation that related types ask of two parameters of the given variance. -/
def Variance.Relates : Variance → Ty → Ty → Prop
  | .covariant, p, q => p.isSubtype q = true
  | .contravariant, p, q => q.isSubtype p = true
  | .invariant, p, q => p = q

namespace Ty

variable {s t u : Ty} {ps qs : List Ty} {tag tag' : String} {vs : List Variance}

/-- `ps` and `qs` satisfy `Variance.Relates` position by position, at the variances `vs`. -/
def Related (vs : List Variance) (ps qs : List Ty) : Prop :=
  ∀ (i : Nat) (v : Variance) (p q : Ty),
    vs[i]? = some v → ps[i]? = some p → qs[i]? = some q → v.Relates p q

/-- The argument types `qs` are each below the one at their place in `ps`, whose last one is
repeated. -/
def Spreads (ps qs : List Ty) : Prop :=
  ∀ (i : Nat) (p q : Ty), ps[min i (ps.length - 1)]? = some p → qs[i]? = some q →
    q.isSubtype p = true

/-- Why `s` is a subtype of `t`: one constructor for each branch of `isSubtype`. -/
inductive Below : Ty → Ty → Prop
  | untypedLeft {s t : Ty} (h : s.isUntyped = true) : Below s t
  | untypedRight {s t : Ty} (h : t.isUntyped = true) : Below s t
  | refl (t : Ty) : Below t t
  | never {s t : Ty} (h : s.hasTag "Never" = true) : Below s t
  | any {s t : Ty} (h : t.hasTag "Any" = true) : Below s t
  | all {bound : List String} {body body' : Ty} (h : body.isSubtype body' = true) :
    Below (.all bound body) (.all bound body')
  | nominal {tag tag' : String} {ps qs : List Ty} (h : nominal tag tag' = true) :
    Below (.con tag ps) (.con tag' qs)
  | con {tag : String} {ps qs : List Ty} (hlen : ps.length = qs.length)
    (h : Related (Variance.ofTag tag ps.length) ps qs) : Below (.con tag ps) (.con tag qs)
  | variadic {min max : Option Int} {ps qs : List Ty} (hne : arguments ps ≠ [])
    (haccepts : (Ty.variadic min max ps).accepts (arguments qs).length = true)
    (hresult : ∀ p ∈ ps.getLast?, ∀ q ∈ qs.getLast?, p.isSubtype q = true)
    (hargs : Spreads (arguments ps) (arguments qs)) :
    Below (.variadic min max ps) (.con "Function" qs)

/-! ## Parameters by position -/

theorem related_cons {v : Variance} {p q : Ty} :
    Related (v :: vs) (p :: ps) (q :: qs) ↔ v.Relates p q ∧ Related vs ps qs := by
  refine ⟨fun h ↦ ⟨h 0 v p q rfl rfl rfl, fun i ↦ h (i + 1)⟩, fun ⟨h, hrest⟩ i ↦ ?_⟩
  cases i with
  | zero => rintro _ _ _ ⟨⟩ ⟨⟩ ⟨⟩; exact h
  | succ i => exact hrest i

theorem mem_rows_iff {v : Variance} {p q : Ty} : (v, p, q) ∈ vs.zip (ps.zip qs) ↔
    ∃ i : Nat, vs[i]? = some v ∧ ps[i]? = some p ∧ qs[i]? = some q := by
  simp only [List.mem_iff_getElem?, List.getElem?_zip_eq_some]

/-- `Related` as a statement about the members of `vs.zip (ps.zip qs)`. -/
theorem related_iff : Related vs ps qs ↔ ∀ r ∈ vs.zip (ps.zip qs), r.1.Relates r.2.1 r.2.2 := by
  refine ⟨fun h r hr ↦ ?_, fun h i v p q hv hp hq ↦ h _ (mem_rows_iff.2 ⟨i, hv, hp, hq⟩)⟩
  obtain ⟨i, hv, hp, hq⟩ := mem_rows_iff.1 hr
  exact h i _ _ _ hv hp hq

/-- The first `n` argument types of a function with the argument types `ps`, the last one
repeated. -/
def stretch : Nat → List Ty → List Ty
  | n + 1, p :: p' :: ps => p :: stretch n (p' :: ps)
  | n + 1, [p] => p :: stretch n [p]
  | _, _ => []

theorem getElem?_stretch (ps : List Ty) {n i : Nat} (h : i < n) :
    (stretch n ps)[i]? = ps[min i (ps.length - 1)]? := by
  induction n generalizing ps i with
  | zero => cases h
  | succ n ih =>
    rcases ps with _ | ⟨p, _ | ⟨p', ps⟩⟩
    · rfl
    · cases i with
      | zero => rfl
      | succ i => simpa [stretch] using ih [p] (Nat.lt_of_succ_lt_succ h)
    · cases i with
      | zero => simp [stretch]
      | succ i =>
        rw [stretch, List.getElem?_cons_succ, ih _ (Nat.lt_of_succ_lt_succ h)]
        simp only [List.length_cons, Nat.add_sub_cancel]
        rw [Nat.add_min_add_right, List.getElem?_cons_succ]

theorem mem_of_mem_stretch {p : Ty} {n : Nat} (h : p ∈ stretch n ps) : p ∈ ps := by
  induction n generalizing ps with
  | zero => cases h
  | succ n ih =>
    rcases ps with _ | ⟨p', _ | ⟨p'', ps⟩⟩
    · cases h
    · exact (List.mem_cons.1 h).elim (· ▸ List.mem_cons_self) ih
    · exact List.mem_cons.2 ((List.mem_cons.1 h).imp_right ih)

theorem map_stretch (f : Ty → Ty) (n : Nat) (ps : List Ty) :
    stretch n (ps.map f) = (stretch n ps).map f := by
  induction n generalizing ps with
  | zero => rfl
  | succ n ih =>
    rcases ps with _ | ⟨p, _ | ⟨p', ps⟩⟩
    · rfl
    · exact congrArg (f p :: ·) (ih [p])
    · exact congrArg (f p :: ·) (ih (p' :: ps))

/-- `Spreads ps qs` is `Related` between `stretch qs.length ps` and `qs`. -/
theorem spreads_iff_related : Spreads ps qs ↔
    Related (.replicate qs.length .contravariant) (stretch qs.length ps) qs := by
  refine ⟨fun h i v p q hv hp hq ↦ ?_, fun h i p q hp hq ↦ ?_⟩
  · rw [List.getElem?_replicate, Option.ite_none_right_eq_some] at hv
    obtain ⟨hi, ⟨⟩⟩ := hv
    exact h i p q (getElem?_stretch ps hi ▸ hp) hq
  · have hi := (List.getElem?_eq_some_iff.1 hq).1
    exact h i .contravariant p q (by simp [hi]) (getElem?_stretch ps hi ▸ hp) hq

/-! ## The test decides `Below` -/

theorem areSubtypes_iff : areSubtypes vs ps qs = true ↔ Related vs ps qs := by
  induction vs generalizing ps qs with
  | nil => simp [areSubtypes, Related]
  | cons v vs ih =>
    cases ps with
    | nil => simp [areSubtypes, Related]
    | cons p ps =>
      cases qs with
      | nil => simp [areSubtypes, Related]
      | cons q qs => rw [related_cons]; cases v <;> simp [areSubtypes, Variance.Relates, ih]

theorem acceptsAll_eq_areSubtypes (ps qs : List Ty) :
    acceptsAll ps qs =
      areSubtypes (.replicate qs.length .contravariant) (stretch qs.length ps) qs := by
  induction qs generalizing ps with
  | nil => rcases ps with _ | ⟨p, _ | ⟨p', ps⟩⟩ <;> simp [acceptsAll, areSubtypes]
  | cons q qs ih =>
    rcases ps with _ | ⟨p, _ | ⟨p', ps⟩⟩
    · simp [acceptsAll, stretch, areSubtypes]
    all_goals rw [acceptsAll, List.length_cons, stretch, List.replicate_succ, areSubtypes, ih]

theorem acceptsAll_iff : acceptsAll ps qs = true ↔ Spreads ps qs := by
  rw [acceptsAll_eq_areSubtypes, areSubtypes_iff, spreads_iff_related]

/-- `isSubtype` decides `Below`. -/
theorem isSubtype_iff_below : s.isSubtype t = true ↔ Below s t := by
  constructor
  · intro h
    unfold isSubtype at h
    split at h
    · rename_i hu
      rw [Bool.or_eq_true] at hu
      exact hu.elim .untypedLeft .untypedRight
    · split at h
      · rename_i he
        exact he ▸ .refl s
      · split at h
        · rename_i hx
          rw [Bool.or_eq_true] at hx
          exact hx.elim .never .any
        · split at h
          · simp only [Bool.and_eq_true, decide_eq_true_eq] at h
            obtain ⟨rfl, hbody⟩ := h
            exact .all hbody
          · simp only [Bool.or_eq_true, Bool.and_eq_true, decide_eq_true_eq] at h
            rcases h with hnom | ⟨⟨rfl, hlen⟩, hparams⟩
            · exact .nominal hnom
            · exact .con hlen (areSubtypes_iff.1 hparams)
          · simp only [Bool.and_eq_true, decide_eq_true_eq, Bool.not_eq_true',
              List.isEmpty_eq_false_iff]
              at h
            obtain ⟨⟨⟨⟨rfl, hne⟩, hacc⟩, hres⟩, hargs⟩ := h
            refine .variadic hne hacc (fun p hp q hq ↦ ?_) (acceptsAll_iff.1 hargs)
            obtain ⟨hp', rfl⟩ := List.mem_getLast?_eq_getLast hp
            obtain ⟨hq', rfl⟩ := List.mem_getLast?_eq_getLast hq
            rwa [dif_pos ⟨hp', hq'⟩] at hres
          · cases h
  · intro h
    unfold isSubtype
    split
    · rfl
    rename_i hu
    split
    · rfl
    rename_i he
    split
    · rfl
    rename_i hx
    rw [Bool.or_eq_true, not_or] at hu hx
    cases h with
    | untypedLeft h => exact absurd h hu.1
    | untypedRight h => exact absurd h hu.2
    | refl => exact absurd rfl he
    | never h => exact absurd h hx.1
    | any h => exact absurd h hx.2
    | all h => simp [h]
    | nominal h => simp [h]
    | con hlen h => simp [hlen, areSubtypes_iff, hlen ▸ h]
    | variadic hne hacc hres hargs =>
      simp only [hacc, acceptsAll_iff.2 hargs, Bool.and_true, Bool.true_and, decide_true,
        List.isEmpty_eq_false_iff.2 hne, Bool.not_false]
      split
      · rename_i h
        exact hres _ (List.getLast?_eq_some_getLast h.1) _ (List.getLast?_eq_some_getLast h.2)
      · rfl

@[simp] theorem isSubtype_refl (t : Ty) : t.isSubtype t = true := isSubtype_iff_below.2 (.refl t)

@[simp] theorem never_isSubtype (t : Ty) : never.isSubtype t = true :=
  isSubtype_iff_below.2 (.never rfl)

@[simp] theorem isSubtype_any (t : Ty) : t.isSubtype any = true := isSubtype_iff_below.2 (.any rfl)

/-! ## Transitivity -/

/-- A type without the gradual type `?`. -/
def Static (t : Ty) : Prop := t.Built fun n ↦ n.tag? ≠ some "?"

instance : DecidablePred Static := fun t ↦
  inferInstanceAs (Decidable (t.Built fun n ↦ n.tag? ≠ some "?"))

theorem Static.not_isUntyped (h : t.Static) : ¬ t.isUntyped = true := by
  cases t with
  | con tag ps =>
    have htag := (built_con.1 h).1
    simpa [isUntyped, hasTag, Ty.tag?, Node.tag?] using htag
  | _ => simp [isUntyped, hasTag, Ty.tag?]

/-- Only `?` and the types with tag `Any` are above a static type with tag `Any`. -/
theorem Below.of_any (h : Below t u) (ht : t.Static) (hany : t.hasTag "Any" = true) :
    u.isUntyped = true ∨ u.hasTag "Any" = true := by
  cases h with
  | untypedLeft h => exact absurd h ht.not_isUntyped
  | untypedRight h => exact .inl h
  | refl => exact .inr hany
  | never h => simp_all [hasTag]
  | any h => exact .inr h
  | all => simp [hasTag, Ty.tag?] at hany
  | nominal h =>
    simp only [hasTag, Ty.tag?, beq_iff_eq, Option.some.injEq] at hany
    simp [hany, Ty.nominal] at h
  | con => exact .inr hany
  | variadic => simp [hasTag, Ty.tag?] at hany

/-- For functions, `Related` is contravariant in the `arguments` and covariant in the last
parameter. -/
theorem related_function (hlen : ps.length = qs.length) :
    Related (Variance.ofTag "Function" ps.length) ps qs ↔
      (∀ (i : Nat) (p q : Ty), (arguments ps)[i]? = some p → (arguments qs)[i]? = some q →
        q.isSubtype p = true) ∧
      ∀ p ∈ ps.getLast?, ∀ q ∈ qs.getLast?, p.isSubtype q = true := by
  have hvs : ∀ i, (Variance.ofTag "Function" ps.length)[i]? =
      if i < ps.length - 1 then some .contravariant
      else if i = ps.length - 1 then some .covariant else none := by
    intro i
    rw [Variance.ofTag, if_neg (by decide), if_pos rfl, List.getElem?_append, List.length_replicate,
      List.getElem?_replicate]
    split
    · rfl
    · rcases Nat.lt_trichotomy i (ps.length - 1) with h | rfl | h
      · omega
      · simp
      · rw [if_neg (by omega), List.getElem?_eq_none (by simp; omega)]
  simp only [arguments, List.getElem?_dropLast, List.getLast?_eq_getElem?, Option.mem_def, hlen]
  rw [hlen] at hvs
  constructor
  · intro h
    refine ⟨fun i p q hp hq ↦ ?_, fun p hp q hq ↦ ?_⟩
    · by_cases hi : i < qs.length - 1
      · rw [if_pos hi] at hp hq
        exact h i .contravariant p q (by rw [hvs, if_pos hi]) hp hq
      · rw [if_neg hi] at hp
        cases hp
    · exact h (qs.length - 1) .covariant p q (by rw [hvs, if_neg (by omega), if_pos rfl]) hp hq
  · rintro ⟨hargs, hres⟩ i v p q hv hp hq
    rw [hvs] at hv
    split at hv
    · rename_i hi
      cases hv
      exact hargs i p q (by rw [if_pos hi, hp]) (by rw [if_pos hi, hq])
    · split at hv
      · rename_i hi
        cases hv
        subst hi
        exact hres p hp q hq
      · cases hv

theorem Static.of_mem (h : (Ty.con tag ps).Static) {p : Ty} (hp : p ∈ ps) : p.Static :=
  (built_con.1 h).2 p hp

theorem Related.trans {rs : List Ty} (hlen : ps.length = qs.length) (h : Related vs ps qs)
    (h' : Related vs qs rs)
    (ih : ∀ q ∈ qs, ∀ p r : Ty, p.isSubtype q = true → q.isSubtype r = true →
      p.isSubtype r = true) :
    Related vs ps rs := by
  intro i v p r hv hp hr
  have hi : i < qs.length := hlen ▸ (List.getElem?_eq_some_iff.1 hp).1
  have hq : qs[i]? = some qs[i] := List.getElem?_eq_getElem hi
  have hpq := h i v p qs[i] hv hp hq
  have hqr := h' i v qs[i] r hv hq hr
  cases v with
  | covariant => exact ih _ (List.getElem_mem hi) p r hpq hqr
  | contravariant => exact ih _ (List.getElem_mem hi) r p hqr hpq
  | invariant => exact Eq.trans hpq hqr

/-- Subtyping is transitive through a `Static` type `t`. -/
theorem isSubtype_trans {s t u : Ty} (ht : t.Static) (hst : s.isSubtype t = true)
    (htu : t.isSubtype u = true) : s.isSubtype u = true := by
  rw [isSubtype_iff_below] at hst htu ⊢
  cases hst with
  | untypedLeft h => exact .untypedLeft h
  | untypedRight h => exact absurd h ht.not_isUntyped
  | refl => exact htu
  | never h => exact .never h
  | any h => exact (htu.of_any ht h).elim .untypedRight .any
  | all h =>
    rename_i bound body body'
    cases htu with
    | untypedLeft h' => exact absurd h' ht.not_isUntyped
    | untypedRight h' => exact .untypedRight h'
    | refl => exact .all h
    | never h' => cases h'
    | any h' => exact .any h'
    | all h' => exact .all (isSubtype_trans (built_all.1 ht).2 h h')
  | nominal h =>
    cases htu with
    | untypedLeft h' => exact absurd h' ht.not_isUntyped
    | untypedRight h' => exact .untypedRight h'
    | refl => exact .nominal h
    | never h' =>
      simp only [hasTag, Ty.tag?, beq_iff_eq, Option.some.injEq] at h'
      simp [h', Ty.nominal] at h
    | any h' => exact .any h'
    | nominal h' =>
      simp only [Ty.nominal, Bool.or_eq_true, Bool.and_eq_true, beq_iff_eq] at h h'
      rcases h with (⟨-, rfl⟩ | ⟨-, rfl⟩) | ⟨-, rfl⟩ <;> simp at h'
    | con => exact .nominal h
  | con hlen h =>
    rename_i tag ps qs
    cases htu with
    | untypedLeft h' => exact absurd h' ht.not_isUntyped
    | untypedRight h' => exact .untypedRight h'
    | refl => exact .con hlen h
    | never h' => exact .never h'
    | any h' => exact .any h'
    | nominal h' => exact .nominal h'
    | con hlen' h' =>
      refine .con (hlen.trans hlen') (h.trans hlen (hlen ▸ h') fun q hq p r hpq hqr ↦ ?_)
      exact isSubtype_trans (ht.of_mem hq) hpq hqr
  | variadic hne haccepts hresult hargs =>
    rename_i min max ps qs
    cases htu with
    | untypedLeft h' => exact absurd h' ht.not_isUntyped
    | untypedRight h' => exact .untypedRight h'
    | refl => exact .variadic hne haccepts hresult hargs
    | never h' => simp [hasTag, Ty.tag?] at h'
    | any h' => exact .any h'
    | nominal h' => simp [Ty.nominal] at h'
    | con hlen' h' =>
      rename_i rs
      obtain ⟨hargs', hresult'⟩ := (related_function hlen').1 h'
      have hlen : (arguments qs).length = (arguments rs).length := by simp [arguments, hlen']
      refine .variadic hne (hlen ▸ haccepts) (fun p hp r hr ↦ ?_) fun i p r hp hr ↦ ?_
      · have hqs : qs ≠ [] := by
          rintro rfl
          obtain ⟨hne', -⟩ := List.mem_getLast?_eq_getLast hr
          exact hne' (List.length_eq_zero_iff.1 hlen'.symm)
        have hq := List.getLast?_eq_some_getLast hqs
        have hmem := List.getLast_mem hqs
        exact isSubtype_trans (ht.of_mem hmem) (hresult p hp _ hq) (hresult' _ hq r hr)
      · have hi : i < (arguments qs).length := hlen ▸ (List.getElem?_eq_some_iff.1 hr).1
        have hq : (arguments qs)[i]? = some (arguments qs)[i] := List.getElem?_eq_getElem hi
        have hmem : (arguments qs)[i] ∈ qs := List.dropLast_subset qs (List.getElem_mem hi)
        exact isSubtype_trans (ht.of_mem hmem) (hargs' i _ r hq hr) (hargs i p _ hp hq)
termination_by sizeOf t
decreasing_by
  all_goals subst_vars
  · simp only [all.sizeOf_spec]; omega
  · have := List.sizeOf_lt_of_mem hq
    simp; omega
  · have := List.sizeOf_lt_of_mem hmem
    simp; omega
  · have := List.sizeOf_lt_of_mem hmem
    simp; omega

/-- **Subtyping is transitive through every static type.**  Only `t` has to be `Static`; the gradual
type may occur anywhere in `s` and `u`. -/
theorem isSubtype_through_static (s t u : Ty) (ht : t.Static) (hst : s.isSubtype t = true)
    (htu : t.isSubtype u = true) : s.isSubtype u = true :=
  isSubtype_trans ht hst htu

/-- A variadic function is below one of two arguments, and this is below another one with an untyped
first argument, a smaller second argument and a larger result. -/
theorem isSubtype_through_static_function :
    (function [number, number, list number]).Static ∧
    (Ty.variadic none none [number, list integer]).isSubtype
      (function [number, number, list number]) = true ∧
    (function [number, number, list number]).isSubtype (function [untyped, integer, any]) = true ∧
    (Ty.variadic none none [number, list integer]).isSubtype (function [untyped, integer, any]) =
      true := by
  have hstatic : (function [number, number, list number]).Static := by decide +kernel
  have hbelow : (Ty.variadic none none [number, list integer]).isSubtype
      (function [number, number, list number]) = true := by decide +kernel
  have habove : (function [number, number, list number]).isSubtype
      (function [untyped, integer, any]) = true := by decide +kernel
  exact ⟨hstatic, hbelow, habove, isSubtype_through_static _ _ _ hstatic hbelow habove⟩

/-- Transitivity fails through `untyped`. -/
example : integer.isSubtype untyped = true ∧ untyped.isSubtype string = true ∧
    integer.isSubtype string = false := by decide +kernel

/-! ## Antisymmetry -/

/-- A node other than `?`, where `Any` and `Never` have no parameters. -/
def Node.Proper : Node → Prop
  | .con tag n => tag ≠ "?" ∧ (tag = "Any" ∨ tag = "Never" → n = 0)
  | _ => True

instance : DecidablePred Node.Proper
  | .con _ _ => inferInstanceAs (Decidable (_ ∧ _))
  | .var | .unknown | .variadic _ | .all => inferInstanceAs (Decidable True)

/-- A type without `?` in which `Any` and `Never` have no parameters. -/
def Proper (t : Ty) : Prop := t.Built Node.Proper

instance : DecidablePred Proper := fun t ↦ inferInstanceAs (Decidable (t.Built Node.Proper))

theorem Proper.static (h : t.Proper) : t.Static :=
  Built.mono h fun n hn ↦ by
    cases n with
    | con tag k => simpa [Node.tag?] using hn.1
    | _ => simp [Node.tag?]

/-- A node other than `?` and a constructor `Function*`, where `Any` and `Never` have no
parameters. -/
def Node.Plain : Node → Prop
  | .con tag n => tag ≠ "?" ∧ tag ≠ "Function*" ∧ (tag = "Any" ∨ tag = "Never" → n = 0)
  | _ => True

instance : DecidablePred Node.Plain
  | .con _ _ => inferInstanceAs (Decidable (_ ∧ _))
  | .var | .unknown | .variadic _ | .all => inferInstanceAs (Decidable True)

/-- A type whose nodes are all `Node.Plain`. -/
def Plain (t : Ty) : Prop := t.Built Node.Plain

instance : DecidablePred Plain := fun t ↦ inferInstanceAs (Decidable (t.Built Node.Plain))

/-- A type without `all` nodes. -/
def QuantifierFree (t : Ty) : Prop := t.Built (· ≠ .all)

instance : DecidablePred QuantifierFree := fun t ↦ inferInstanceAs (Decidable (t.Built (· ≠ .all)))

theorem Plain.proper (h : t.Plain) : t.Proper :=
  Built.mono h fun n hn ↦ by
    cases n with
    | con tag k => exact ⟨hn.1, hn.2.2⟩
    | _ => trivial

theorem Plain.static (h : t.Plain) : t.Static := h.proper.static

theorem Proper.eq_of_hasTag (h : t.Proper) (htag : tag = "Any" ∨ tag = "Never")
    (ht : t.hasTag tag = true) : t = .con tag [] := by
  cases t with
  | con tag' ps =>
    simp only [hasTag, Ty.tag?, beq_iff_eq, Option.some.injEq] at ht
    subst ht
    rw [List.length_eq_zero_iff.1 ((built_con.1 h).1.2 htag)]
  | variadic => rcases htag with rfl | rfl <;> simp [hasTag, Ty.tag?] at ht
  | _ => simp [hasTag, Ty.tag?] at ht

/-- Only `?` and the types with tag `Never` are below a static type with tag `Never`. -/
theorem Below.of_never (h : Below s t) (ht : t.Static) (hnever : t.hasTag "Never" = true) :
    s.isUntyped = true ∨ s.hasTag "Never" = true := by
  cases h with
  | untypedLeft h => exact .inl h
  | untypedRight h => exact absurd h ht.not_isUntyped
  | refl => exact .inr hnever
  | never h => exact .inr h
  | any h => simp_all [hasTag]
  | all => simp [hasTag, Ty.tag?] at hnever
  | nominal h =>
    simp only [hasTag, Ty.tag?, beq_iff_eq, Option.some.injEq] at hnever
    simp [hnever, Ty.nominal] at h
  | con => exact .inr hnever
  | variadic => simp [hasTag, Ty.tag?] at hnever

theorem le_length_ofTag (tag : String) (n : Nat) : n ≤ (Variance.ofTag tag n).length := by
  rw [Variance.ofTag]
  split
  · simp
  · split
    · simp; omega
    · simp

theorem Related.antisymm (hlen : ps.length = qs.length) (hvs : ps.length ≤ vs.length)
    (h : Related vs ps qs) (h' : Related vs qs ps)
    (ih : ∀ p ∈ ps, ∀ q ∈ qs, p.isSubtype q = true → q.isSubtype p = true → p = q) : ps = qs := by
  refine List.ext_getElem hlen fun i hi hi' ↦ ?_
  have hv : vs[i]? = some vs[i] := List.getElem?_eq_getElem (by omega)
  have hp : ps[i]? = some ps[i] := List.getElem?_eq_getElem hi
  have hq : qs[i]? = some qs[i] := List.getElem?_eq_getElem hi'
  have hpq := h i _ _ _ hv hp hq
  have hqp := h' i _ _ _ hv hq hp
  revert hpq hqp
  cases vs[i] with
  | covariant => exact ih _ (List.getElem_mem hi) _ (List.getElem_mem hi')
  | contravariant => exact fun hpq hqp ↦ ih _ (List.getElem_mem hi) _ (List.getElem_mem hi') hqp hpq
  | invariant => exact fun hpq _ ↦ hpq

theorem nominal_asymm (h : nominal tag tag' = true) : ¬ nominal tag' tag = true := by
  simp only [nominal, Bool.or_eq_true, Bool.and_eq_true, beq_iff_eq] at h
  rcases h with (⟨rfl, rfl⟩ | ⟨rfl, rfl⟩) | ⟨rfl, rfl⟩ <;> decide

/-- Two `Proper` types that are below each other are equal. -/
theorem isSubtype_antisymm {s t : Ty} (hs : s.Proper) (ht : t.Proper) (hst : s.isSubtype t = true)
    (hts : t.isSubtype s = true) : s = t := by
  rw [isSubtype_iff_below] at hst hts
  cases hst with
  | untypedLeft h => exact absurd h hs.static.not_isUntyped
  | untypedRight h => exact absurd h ht.static.not_isUntyped
  | refl => rfl
  | never h =>
    have h' := (hts.of_never hs.static h).resolve_left ht.static.not_isUntyped
    rw [hs.eq_of_hasTag (.inr rfl) h, ht.eq_of_hasTag (.inr rfl) h']
  | any h =>
    have h' := (hts.of_any ht.static h).resolve_left hs.static.not_isUntyped
    rw [hs.eq_of_hasTag (.inl rfl) h', ht.eq_of_hasTag (.inl rfl) h]
  | all h =>
    rename_i bound body body'
    cases hts with
    | untypedLeft h' => exact absurd h' ht.static.not_isUntyped
    | untypedRight h' => exact absurd h' hs.static.not_isUntyped
    | refl => rfl
    | never h' => cases h'
    | any h' => cases h'
    | all h' => rw [isSubtype_antisymm (built_all.1 hs).2 (built_all.1 ht).2 h h']
  | nominal h =>
    cases hts with
    | untypedLeft h' => exact absurd h' ht.static.not_isUntyped
    | untypedRight h' => exact absurd h' hs.static.not_isUntyped
    | refl => rfl
    | never h' => simp_all [Ty.nominal, hasTag, Ty.tag?]
    | any h' => simp_all [Ty.nominal, hasTag, Ty.tag?]
    | nominal h' => exact absurd h' (nominal_asymm h)
    | con => exact absurd h (nominal_asymm h)
  | con hlen h =>
    rename_i tag ps qs
    cases hts with
    | untypedLeft h' => exact absurd h' ht.static.not_isUntyped
    | untypedRight h' => exact absurd h' hs.static.not_isUntyped
    | refl => rfl
    | never h' => rw [hs.eq_of_hasTag (.inr rfl) h', ht.eq_of_hasTag (.inr rfl) h']
    | any h' => rw [hs.eq_of_hasTag (.inl rfl) h', ht.eq_of_hasTag (.inl rfl) h']
    | nominal h' => exact absurd h' (nominal_asymm h')
    | con hlen' h' =>
      rw [h.antisymm hlen (le_length_ofTag _ _) (hlen ▸ h') fun p hp q hq hpq hqp ↦ ?_]
      exact isSubtype_antisymm ((built_con.1 hs).2 p hp) ((built_con.1 ht).2 q hq) hpq hqp
  | variadic => cases hts <;> simp_all [isUntyped, hasTag, Ty.tag?]
termination_by sizeOf s
decreasing_by
  all_goals subst_vars
  · simp only [all.sizeOf_spec]; omega
  · have := List.sizeOf_lt_of_mem hp
    simp; omega

/-- **Subtyping is antisymmetric on `Proper` types.**  They may be variadic, quantified or built
with any constructor. -/
theorem isSubtype_both_iff_eq (a b : Ty) (ha : a.Proper) (hb : b.Proper) :
    a.isSubtype b = true ∧ b.isSubtype a = true ↔ a = b :=
  ⟨fun h ↦ isSubtype_antisymm ha hb h.1 h.2, fun h ↦ h ▸ ⟨isSubtype_refl a, isSubtype_refl a⟩⟩

/-- Under a quantifier, a variadic function is below a function of two arguments.  The two differ,
so the converse fails. -/
theorem isSubtype_both_iff_eq_variadic :
    (Ty.all ["a"] (.variadic none none [.var "a", list integer])).Proper ∧
    (Ty.all ["a"] (function [.var "a", never, any])).Proper ∧
    (Ty.all ["a"] (.variadic none none [.var "a", list integer])).isSubtype
      (.all ["a"] (function [.var "a", never, any])) = true ∧
    ¬ (Ty.all ["a"] (function [.var "a", never, any])).isSubtype
      (.all ["a"] (.variadic none none [.var "a", list integer])) = true := by
  have ha : (Ty.all ["a"] (.variadic none none [.var "a", list integer])).Proper := by
    decide +kernel
  have hb : (Ty.all ["a"] (function [.var "a", never, any])).Proper := by decide +kernel
  have hab : (Ty.all ["a"] (.variadic none none [.var "a", list integer])).isSubtype
      (.all ["a"] (function [.var "a", never, any])) = true := by decide +kernel
  refine ⟨ha, hb, hab, fun hba ↦ ?_⟩
  exact absurd ((isSubtype_both_iff_eq _ _ ha hb).1 ⟨hab, hba⟩) (by simp [function])

/-- `any` with and without a parameter are below each other. -/
example : any.isSubtype (.con "Any" [integer]) = true ∧
    (Ty.con "Any" [integer]).isSubtype any = true := by
  decide +kernel

/-! ## Substitution -/

theorem hasTag_subst {σ : Subst} (h : t.hasTag tag = true) : (t.subst σ).hasTag tag = true := by
  cases t <;> simp_all [hasTag, Ty.tag?]

theorem arguments_map (f : Ty → Ty) (ps : List Ty) : arguments (ps.map f) = (arguments ps).map f :=
  (List.map_dropLast ..).symm

theorem accepts_map (f : Ty → Ty) (min max : Option Int) (n : Nat) :
    (Ty.variadic min max (ps.map f)).accepts n = (Ty.variadic min max ps).accepts n := by
  have hmin : (Ty.variadic min max (ps.map f)).minArguments =
      (Ty.variadic min max ps).minArguments := by
    simp [minArguments]
  rw [accepts, accepts, hmin]
  rfl

/-- `Ty.subst σ` is monotone. -/
theorem isSubtype_subst {s t : Ty} (σ : Subst) (h : s.isSubtype t = true) :
    (s.subst σ).isSubtype (t.subst σ) = true := by
  rw [isSubtype_iff_below] at h ⊢
  cases h with
  | untypedLeft h => exact .untypedLeft (hasTag_subst h)
  | untypedRight h => exact .untypedRight (hasTag_subst h)
  | refl => exact .refl _
  | never h => exact .never (hasTag_subst h)
  | any h => exact .any (hasTag_subst h)
  | all h =>
    rename_i bound body body'
    rw [subst_all, subst_all]
    exact .all (isSubtype_subst _ h)
  | nominal h =>
    rw [subst_con, subst_con]
    exact .nominal h
  | con hlen h =>
    rename_i tag ps qs
    rw [subst_con, subst_con]
    refine .con (by simpa using hlen) fun i v p q hv hp hq ↦ ?_
    rw [List.length_map] at hv
    simp only [List.getElem?_map, Option.map_eq_some_iff] at hp hq
    obtain ⟨p, hp, rfl⟩ := hp
    obtain ⟨q, hq, rfl⟩ := hq
    have hpmem := List.mem_of_getElem? hp
    have hqmem := List.mem_of_getElem? hq
    have hpq := h i v p q hv hp hq
    cases v with
    | covariant => exact isSubtype_subst σ hpq
    | contravariant => exact isSubtype_subst σ hpq
    | invariant => exact congrArg (subst σ) hpq
  | variadic hne haccepts hresult hargs =>
    rename_i min max ps qs
    rw [subst_variadic, subst_con]
    refine .variadic (by simpa [arguments_map] using hne) ?_ (fun p hp q hq ↦ ?_)
      fun i p q hp hq ↦ ?_
    · rwa [arguments_map, List.length_map, accepts_map]
    · simp only [List.getLast?_map, Option.mem_def, Option.map_eq_some_iff] at hp hq
      obtain ⟨p, hp, rfl⟩ := hp
      obtain ⟨q, hq, rfl⟩ := hq
      have hpmem := List.mem_of_getLast? hp
      have hqmem := List.mem_of_getLast? hq
      exact isSubtype_subst σ (hresult p hp q hq)
    · simp only [arguments_map, List.length_map, List.getElem?_map, Option.map_eq_some_iff] at hp hq
      obtain ⟨p, hp, rfl⟩ := hp
      obtain ⟨q, hq, rfl⟩ := hq
      have hpmem := List.dropLast_subset ps (List.mem_of_getElem? hp)
      have hqmem := List.dropLast_subset qs (List.mem_of_getElem? hq)
      exact isSubtype_subst σ (hargs i p q hp hq)
termination_by sizeOf s + sizeOf t
decreasing_by
  all_goals subst_vars
  · simp; omega
  all_goals
    have := List.sizeOf_lt_of_mem hpmem
    have := List.sizeOf_lt_of_mem hqmem
    simp; omega

end Ty

end SchemeTyping
