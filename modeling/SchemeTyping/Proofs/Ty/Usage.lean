import SchemeTyping.Proofs.Ty.Subst
import SchemeTyping.Ty.Variance

/-!
# Monotonicity of a type in its variables

## What is here

* `usage_eq_constant_iff` — `t.usage name` is `constant` exactly if `name` is not free in `t`.
* `isSubtype_subst_of_usage` — a substitution that makes the covariant variables larger and the
  contravariant ones smaller, simultaneously, makes the type larger.
-/

set_option autoImplicit false

namespace SchemeTyping

open Ty

/-- The relation between two types put for a variable that makes a type with this usage of it
larger. -/
def Usage.Relates : Usage → Ty → Ty → Prop
  | .constant, _, _ => True
  | .covariant, s, t => s.isSubtype t = true
  | .contravariant, s, t => t.isSubtype s = true
  | .invariant, s, t => s = t

namespace Usage

variable {u v : Usage} {s t : Ty}

theorem relates_refl (u : Usage) (t : Ty) : u.Relates t t := by
  cases u
  · trivial
  · exact isSubtype_refl t
  · exact isSubtype_refl t
  · rfl

@[simp] theorem combine_eq_constant : u.combine v = .constant ↔ u = .constant ∧ v = .constant := by
  cases u <;> cases v <;> decide

/-- `Relates` for a combined usage is `Relates` for both. -/
theorem relates_combine (h : (u.combine v).Relates s t) : u.Relates s t ∧ v.Relates s t := by
  have hinvariant : s = t → u.Relates s t ∧ v.Relates s t := by
    rintro rfl
    exact ⟨u.relates_refl s, v.relates_refl s⟩
  cases u <;> cases v
    <;> first | exact ⟨h, trivial⟩ | exact ⟨trivial, h⟩ | exact ⟨h, h⟩ | exact hinvariant h

@[simp] theorem under_eq_constant {w : Variance} : under w u = .constant ↔ u = .constant := by
  cases u <;> cases w <;> decide

end Usage

namespace Ty

variable {t p : Ty} {ps : List Ty} {vs : List Variance} {σ τ : Subst} {name : String}

/-! ## Unused variables -/

theorem usageList_eq_constant_iff (hvs : ps.length ≤ vs.length) :
    usageList name vs ps = .constant ↔ ∀ p ∈ ps, p.usage name = .constant := by
  induction ps generalizing vs with
  | nil => simp [usageList]
  | cons p ps ih =>
    cases vs with
    | nil => simp at hvs
    | cons v vs =>
      rw [usageList, Usage.combine_eq_constant, Usage.under_eq_constant,
        ih (by simpa using hvs), List.forall_mem_cons]

/-- `t.usage name` is `constant` exactly if `name` is not free in `t`. -/
theorem usage_eq_constant_iff : t.usage name = .constant ↔ name ∉ t.freeVars := by
  induction t with
  | var v => simp [usage, eq_comm]
  | unknown id => simp [usage]
  | con tag ps ih =>
    rw [usage, usageList_eq_constant_iff (le_length_ofTag _ _), freeVars_con, List.mem_flatMap]
    simp only [not_exists, not_and]
    exact forall₂_congr ih
  | variadic min max ps ih =>
    rw [usage, usageList_eq_constant_iff (by simp), freeVars_variadic, List.mem_flatMap]
    simp only [not_exists, not_and]
    exact forall₂_congr ih
  | all bound body ih =>
    rw [usage, freeVars_all, List.mem_filter]
    by_cases hbound : bound.contains name = true
    · simp_all
    · rw [if_neg hbound, ih]
      simp_all

/-! ## Substitutions -/

/-- Substitutions that agree on the free variables of `t` agree on `t`. -/
theorem subst_congr (h : ∀ x ∈ t.freeVars, (Ty.var x).subst σ = (Ty.var x).subst τ) :
    t.subst σ = t.subst τ := by
  induction t generalizing σ τ with
  | var v => exact h v (by simp)
  | unknown id => rfl
  | con tag ps ih =>
    rw [subst_con, subst_con]
    exact congrArg _ (List.map_congr_left fun p hp ↦ ih p hp fun x hx ↦
      h x (mem_freeVars_of_mem_params (t := .con tag ps) hp hx))
  | variadic min max ps ih =>
    rw [subst_variadic, subst_variadic]
    exact congrArg _ (List.map_congr_left fun p hp ↦ ih p hp fun x hx ↦
      h x (mem_freeVars_of_mem_params (t := .variadic min max ps) hp hx))
  | all bound body ih =>
    rw [subst_all, subst_all]
    refine congrArg _ (ih fun x hx ↦ ?_)
    rw [subst_var, subst_var, OrdMap.get?_filterKeys, OrdMap.get?_filterKeys]
    split
    · rename_i hbound
      exact h x (by rw [freeVars_all, List.mem_filter]; exact ⟨hx, hbound⟩)
    · rfl

/-- `usageList` relates no more than the usage in each parameter, under its variance. -/
theorem relates_usage_of_usageList {i : Nat} {v : Variance} {a b : Ty}
    (h : (usageList name vs ps).Relates a b) (hv : vs[i]? = some v) (hp : ps[i]? = some p) :
    (Usage.under v (p.usage name)).Relates a b := by
  induction ps generalizing vs i with
  | nil => simp at hp
  | cons q ps ih =>
    cases vs with
    | nil => simp at hv
    | cons w vs =>
      obtain ⟨hhead, htail⟩ := Usage.relates_combine h
      cases i with
      | zero =>
        cases hv
        cases hp
        exact hhead
      | succ i => exact ih htail hv hp

/-- If every variable of `p` is related as under an invariant parameter, then `σ` and `τ` agree on
`p`. -/
theorem subst_eq_of_under_invariant
    (h : ∀ x, (Usage.under .invariant (p.usage x)).Relates ((var x).subst σ) ((var x).subst τ)) :
    p.subst σ = p.subst τ := by
  refine subst_congr fun x hx ↦ ?_
  have hused : p.usage x ≠ .constant := fun hconst ↦ usage_eq_constant_iff.1 hconst hx
  have hrel := h x
  cases husage : p.usage x with
  | constant => exact absurd husage hused
  | covariant | contravariant | invariant =>
    rw [husage] at hrel
    exact hrel

/-- **A type is monotone in its variables as `usage` says.**  If `σ` and `τ` are related at every
variable `x` by `t.usage x`, then `t.subst σ` is below `t.subst τ`. -/
theorem isSubtype_subst_of_usage
    (h : ∀ x, (t.usage x).Relates ((var x).subst σ) ((var x).subst τ)) :
    (t.subst σ).isSubtype (t.subst τ) = true := by
  induction t generalizing σ τ with
  | var v =>
    have hv := h v
    rwa [usage, if_pos rfl] at hv
  | unknown id => exact isSubtype_refl _
  | con tag ps ih =>
    rw [subst_con, subst_con, isSubtype_iff_below]
    refine .con (by simp) fun i v p q hv hp hq ↦ ?_
    rw [List.length_map] at hv
    simp only [List.getElem?_map, Option.map_eq_some_iff] at hp hq
    obtain ⟨p, hp, rfl⟩ := hp
    obtain ⟨q, hq, rfl⟩ := hq
    obtain rfl : p = q := Option.some.inj (hp.symm.trans hq)
    have hrel := fun x ↦ relates_usage_of_usageList (h x) hv hp
    have hmem := List.mem_of_getElem? hp
    cases v with
    | covariant =>
      refine ih p hmem fun x ↦ ?_
      have hx := hrel x
      revert hx
      cases p.usage x <;> exact id
    | contravariant =>
      refine ih p hmem fun x ↦ ?_
      have hx := hrel x
      revert hx
      cases p.usage x <;> first | exact id | exact Eq.symm
    | invariant => exact subst_eq_of_under_invariant hrel
  | variadic min max ps ih =>
    rw [subst_variadic, subst_variadic, List.map_congr_left fun p hp ↦ ?_]
    · exact isSubtype_refl _
    obtain ⟨i, hi⟩ := List.mem_iff_getElem?.1 hp
    have hlt := (List.getElem?_eq_some_iff.1 hi).1
    exact subst_eq_of_under_invariant fun x ↦
      relates_usage_of_usageList (h x) (by simp [hlt]) hi
  | all bound body ih =>
    rw [subst_all, subst_all, isSubtype_iff_below]
    refine .all (ih fun x ↦ ?_)
    rw [subst_var, subst_var, OrdMap.get?_filterKeys, OrdMap.get?_filterKeys]
    by_cases hbound : bound.contains x = true
    · simp only [hbound, Bool.not_true]
      exact Usage.relates_refl _ _
    · have hx := h x
      rw [usage, if_neg hbound] at hx
      rw [if_pos (by simpa using hbound), if_pos (by simpa using hbound)]
      exact hx

end Ty

end SchemeTyping
