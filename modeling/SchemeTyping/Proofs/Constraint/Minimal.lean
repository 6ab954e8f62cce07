import SchemeTyping.Proofs.Constraint
import SchemeTyping.Proofs.Ty.Usage

/-!
# Minimal solutions

`ConstraintSet.minimal` chooses an end of the bounds of every variable by the `usage` of the
variable in the goal.  The choice satisfies the constraints, and if the goal uses none of the
variables invariantly, no other solution makes the goal smaller (`ConstraintSet.minimal_solves`).
This holds of all types, the gradual one included: nothing is combined, so neither transitivity nor
best bounds are needed.
-/

set_option autoImplicit false

namespace SchemeTyping

open Ty

theorem Constraint.not_isSatisfiable_iff {c : Constraint} : ¬ c.isSatisfiable = true ↔
    ∃ lower upper, c = .between lower upper ∧ ¬ lower.isSubtype upper = true := by
  cases c with
  | between lower upper => simp [isSatisfiable]
  | equal | untyped => simp [isSatisfiable]

/-- `c.choose usage` is related by `usage` to every type that satisfies `c`, unless `usage` is
invariant. -/
theorem Constraint.relates_choose {c : Constraint} {usage : Usage} {t : Ty} (h : c.Holds t)
    (husage : usage ≠ .invariant) : usage.Relates (c.choose usage) t := by
  cases c with
  | equal u =>
    obtain rfl : t = u := h
    exact usage.relates_refl t
  | untyped =>
    cases usage with
    | constant => trivial
    | covariant => exact isSubtype_iff_below.2 (.untypedLeft rfl)
    | contravariant => exact isSubtype_iff_below.2 (.untypedRight rfl)
    | invariant => exact absurd rfl husage
  | between lower upper =>
    cases usage with
    | constant => trivial
    | covariant => exact h.1
    | contravariant => exact h.2
    | invariant => exact absurd rfl husage

namespace ConstraintSet

variable {S : ConstraintSet} {goal t : Ty} {σ τ : Subst} {x : String}

/-- A substitution for the variables of `S` and of the goal that satisfies the constraints of `S`.
A variable without a constraint may be any type. -/
structure Solves (S : ConstraintSet) (goal : Ty) (τ : Subst) : Prop where
  mem_keys : ∀ x, x ∈ τ.keys ↔ x ∈ S.keys ∨ x ∈ goal.freeVars
  holds : ∀ x t, τ.get? x = some t → (S.on x).Holds t

theorem minimal_eq_none_iff : S.minimal goal = none ↔
    ∃ lower upper, .between lower upper ∈ S.values ∧ ¬ lower.isSubtype upper = true := by
  rw [← Option.not_isSome_iff_eq_none, isSome_minimal, isSatisfiable, List.all_eq_true]
  constructor
  · intro h
    obtain ⟨c, hc, hsat⟩ : ∃ c ∈ S.values, ¬ c.isSatisfiable = true := by simpa using h
    obtain ⟨lower, upper, rfl, hnot⟩ := Constraint.not_isSatisfiable_iff.1 hsat
    exact ⟨lower, upper, hc, hnot⟩
  · rintro ⟨lower, upper, hc, hnot⟩ h
    exact hnot (h _ hc)

/-- The types that `S.minimal goal` chooses, by `S.on`. -/
theorem get?_of_minimal_eq_ite (h : S.minimal goal = some σ) (x : String) :
    σ.get? x =
      if x ∈ S.keys ∨ x ∈ goal.freeVars then some ((S.on x).choose (goal.usage x)) else none := by
  rw [get?_of_minimal h, ConstraintSet.on]
  cases hc : S.get? x with
  | none =>
    have hx : x ∉ S.keys := OrdMap.get?_eq_none_iff.1 hc
    by_cases hfree : x ∈ goal.freeVars <;> simp [hx, hfree]
  | some c =>
    have hx : x ∈ S.keys := OrdMap.isSome_get?_iff.1 (by rw [hc, Option.isSome_some])
    simp [hx]

theorem mem_keys_of_minimal (h : S.minimal goal = some σ) (x : String) :
    x ∈ σ.keys ↔ x ∈ S.keys ∨ x ∈ goal.freeVars := by
  rw [← OrdMap.isSome_get?_iff, get?_of_minimal_eq_ite h, Option.isSome_ite]

theorem eq_choose_of_minimal (h : S.minimal goal = some σ) (ht : σ.get? x = some t) :
    t = (S.on x).choose (goal.usage x) := by
  rw [get?_of_minimal_eq_ite h] at ht
  split at ht
  · exact (Option.some.inj ht).symm
  · cases ht

theorem isSatisfiable_on (h : S.isSatisfiable = true) (x : String) :
    (S.on x).isSatisfiable = true :=
  on_cases (P := (·.isSatisfiable = true)) (never_isSubtype any) fun c hc ↦
    List.all_eq_true.1 h c (OrdMap.mem_values_of_get? hc)

/-- `S.minimal goal` solves `S`. -/
theorem solves_of_minimal (h : S.minimal goal = some σ) : S.Solves goal σ := by
  have hsat : S.isSatisfiable = true := by rw [← isSome_minimal, h, Option.isSome_some]
  refine ⟨mem_keys_of_minimal h, fun x t ht ↦ ?_⟩
  rw [eq_choose_of_minimal h ht]
  exact holds_choose (isSatisfiable_on hsat x)

/-- `S.minimal goal` makes the goal a subtype of what any other solution makes of it. -/
theorem Solves.isSubtype_of_minimal (hτ : S.Solves goal τ) (h : S.minimal goal = some σ)
    (husage : ∀ x ∈ goal.freeVars, goal.usage x ≠ .invariant) :
    (goal.subst σ).isSubtype (goal.subst τ) = true := by
  refine isSubtype_subst_of_usage fun x ↦ ?_
  by_cases hx : x ∈ goal.freeVars
  · have hτx : x ∈ τ.keys := (hτ.mem_keys x).2 (.inr hx)
    obtain ⟨u, hu⟩ := Option.isSome_iff_exists.1 (OrdMap.isSome_get?_iff.2 hτx)
    rw [subst_var, subst_var, get?_of_minimal_eq_ite h, if_pos (.inr hx), hu, Option.getD_some,
      Option.getD_some]
    exact Constraint.relates_choose (hτ.holds x u hu) (husage x hx)
  · rw [usage_eq_constant_iff.2 hx]
    trivial

/-- **Minimal solutions.**  `S.minimal goal` fails exactly if the lower bound of some constraint is
not a subtype of the upper one.  Otherwise it solves `S`, with `?` for the variables whose
constraint is `untyped`.  If the goal uses none of its variables invariantly, it makes the goal a
subtype of what any other solution makes of it.  `goal.usage x` is `constant` exactly if `x` is not
free in the goal. -/
theorem minimal_solves (S : ConstraintSet) (goal : Ty) :
    (S.minimal goal = none ↔
      ∃ lower upper, .between lower upper ∈ S.values ∧ ¬ lower.isSubtype upper = true) ∧
    (∀ σ, S.minimal goal = some σ → S.Solves goal σ ∧
      (∀ x t, σ.get? x = some t → S.on x = .untyped → t = Ty.untyped) ∧
      ((∀ x ∈ σ.keys, goal.usage x ≠ .invariant) →
        ∀ τ, S.Solves goal τ → (goal.subst σ).isSubtype (goal.subst τ) = true)) ∧
    ∀ x, goal.usage x = .constant ↔ x ∉ goal.freeVars := by
  refine ⟨minimal_eq_none_iff,
    fun σ hσ ↦ ⟨solves_of_minimal hσ, fun x t ht hx ↦ ?_, fun husage τ hτ ↦ ?_⟩,
    fun x ↦ usage_eq_constant_iff⟩
  · rw [eq_choose_of_minimal hσ ht, hx]
    rfl
  · exact hτ.isSubtype_of_minimal hσ fun x hx ↦ husage x ((mem_keys_of_minimal hσ x).2 (.inr hx))

/-- `A` is an argument of an argument and takes its lower bound; `E` is an argument, has no
constraint and takes `any`; and `D`, which the goal binds, is not used at all. -/
theorem minimal_solves_function :
    let S : ConstraintSet :=
      ⟨[("A", .between integer number), ("B", .equal string), ("C", .untyped),
      ("D", .between never (list any))]⟩
    let goal := function [.var "E", .all ["D"] (function [function [.var "A", .var "D"],
      function [.var "B", list (.var "C")]])]
    let chosen := [("A", integer), ("B", string), ("C", Ty.untyped), ("D", never), ("E", any)]
    let τ : Subst :=
      ⟨[("A", number), ("B", string), ("C", list string), ("D", list any), ("E", integer)]⟩
    ∃ σ, S.minimal goal = some σ ∧ (∀ e ∈ chosen, σ.get? e.1 = some e.2) ∧ S.Solves goal τ ∧
      (goal.subst σ).isSubtype (goal.subst τ) = true := by
  intro S goal chosen τ
  have hsome : (S.minimal goal).isSome = true := by
    rw [isSome_minimal]
    decide +kernel
  obtain ⟨σ, hσ⟩ := Option.isSome_iff_exists.1 hsome
  have hchosen : ∀ e ∈ chosen, σ.get? e.1 = some e.2 := by
    simp only [get?_of_minimal hσ]
    decide +kernel
  have hτ : S.Solves goal τ := by
    refine ⟨fun x ↦ ?_, fun x t ht ↦ ?_⟩
    · have hfree : goal.freeVars = ["E", "A", "B", "C"] := by decide +kernel
      simp only [hfree, S, τ, OrdMap.keys, List.map_cons, List.map_nil, List.mem_cons]
      tauto
    · have hall : ∀ e ∈ τ.entries, (S.on e.1).Holds e.2 := by decide +kernel
      exact hall _ (OrdMap.mem_entries_of_get? ht)
  have husage : ∀ x ∈ S.keys ++ goal.freeVars, goal.usage x ≠ .invariant := by decide +kernel
  refine ⟨σ, hσ, hchosen, hτ, ((minimal_solves S goal).2.1 σ hσ).2.2 (fun x hx ↦ ?_) τ hτ⟩
  exact husage x (List.mem_append.2 ((mem_keys_of_minimal hσ x).1 hx))

end ConstraintSet

end SchemeTyping
