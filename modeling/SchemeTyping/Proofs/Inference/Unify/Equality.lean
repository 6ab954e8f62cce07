import SchemeTyping.Proofs.Inference.Calls
import SchemeTyping.Proofs.Inference.Live

/-!
# What unification makes equal

Two variadic functions have one shape if they have equally many parameters, whatever their bounds on
the number of arguments.  So for types without numbers a unification that succeeds makes the types
equal *up to the bounds* of variadic functions: `rebound` makes them equal.

That the bounds are those of a given table is a property that unification preserves, as it is
`Hereditary`.  So if variadic functions with equally many parameters always have the same bounds,
then types that were unified are equal.
-/

set_option autoImplicit false

namespace SchemeTyping

namespace Ty

/-! ## Other bounds -/

/-- Bounds for variadic functions, by the number of their parameters. -/
abbrev BoundTable := Nat → Option Int × Option Int

mutual

/-- The type with the bounds of a table for every variadic function. -/
def rebound (b : BoundTable) : Ty → Ty
  | .var name => .var name
  | .unknown id => .unknown id
  | .con tag ps => .con tag (reboundList b ps)
  | .variadic _ _ ps => .variadic (b ps.length).1 (b ps.length).2 (reboundList b ps)
  | .all bound body => .all bound (body.rebound b)

/-- As `rebound`, for the types of a list. -/
def reboundList (b : BoundTable) : List Ty → List Ty
  | [] => []
  | t :: ts => t.rebound b :: reboundList b ts

end

variable {b : BoundTable} {tag : String} {min max : Option Int} {ps : List Ty} {t : Ty}

theorem reboundList_eq_map (b : BoundTable) (ps : List Ty) :
    reboundList b ps = ps.map (rebound b) := by
  induction ps with
  | nil => rfl
  | cons t ps ih => rw [reboundList, ih, List.map_cons]

@[simp] theorem rebound_con : (con tag ps).rebound b = con tag (ps.map (rebound b)) := by
  rw [rebound, reboundList_eq_map]

@[simp] theorem rebound_variadic : (variadic min max ps).rebound b =
    variadic (b ps.length).1 (b ps.length).2 (ps.map (rebound b)) := by
  rw [rebound, reboundList_eq_map]

theorem map_rebound_eq_self : ps.map (rebound b) = ps ↔ ∀ p ∈ ps, p.rebound b = p := by
  conv_lhs => rhs; rw [← List.map_id ps]
  exact List.map_inj_left

/-- `rebound` commutes with `fill`. -/
theorem rebound_fill (b : BoundTable) (θ : String → Ty) (t : Ty) :
    (t.fill θ).rebound b = (t.rebound b).fill fun id ↦ (θ id).rebound b := by
  induction t with
  | var | unknown => rfl
  | con tag ps ih =>
    simp only [fill_con, rebound_con, List.map_map]
    congr 1
    exact List.map_congr_left ih
  | variadic min max ps ih =>
    simp only [fill_variadic, rebound_variadic, List.length_map, List.map_map]
    congr 1
    exact List.map_congr_left ih
  | all bound body ih => exact congrArg (all bound) ih

/-- A node other than `any`, the gradual type and `number`. -/
def Node.Numberless : Node → Prop
  | .con tag _ => tag ≠ "Any" ∧ tag ≠ "?" ∧ tag ≠ "Number"
  | _ => True

instance : DecidablePred Node.Numberless
  | .con _ _ => inferInstanceAs (Decidable (_ ∧ _ ∧ _))
  | .var | .unknown | .variadic _ | .all => inferInstanceAs (Decidable True)

/-- Without numbers, `core` changes only the bounds of a type. -/
theorem rebound_core (b : BoundTable) (ht : t.Built Node.Numberless) :
    t.core.rebound b = t.rebound b := by
  induction t with
  | var | unknown => rfl
  | con tag ps ih =>
    obtain ⟨⟨-, -, htag⟩, hps⟩ := built_con.1 ht
    rw [core_con, coreTag, if_neg fun h ↦ htag h.1, rebound_con, rebound_con, List.map_map]
    congr 1
    exact List.map_congr_left fun p hp ↦ ih p hp (hps p hp)
  | variadic min max ps ih =>
    rw [core_variadic, rebound_variadic, rebound_variadic, List.length_map, List.map_map]
    congr 1
    exact List.map_congr_left fun p hp ↦ ih p hp ((built_variadic.1 ht).2 p hp)
  | all bound body ih => exact congrArg (all bound) (ih (built_all.1 ht).2)

end Ty

open Ty

/-! ## Properties that unification preserves -/

/-- To have the bounds of a table is `Hereditary`. -/
theorem hereditary_rebound (b : BoundTable) : Hereditary fun t ↦ t.rebound b = t where
  unknown _ _ _ := rfl
  params {t} h q hq := by
    cases t with
    | con tag ps => exact map_rebound_eq_self.1 (con.inj (rebound_con ▸ h)).2 q hq
    | variadic min max ps =>
      exact map_rebound_eq_self.1 (variadic.inj (rebound_variadic ▸ h)).2.2 q hq
    | _ => cases hq
  withParams {t ps} h hlen hps := by
    cases t with
    | con tag qs => rw [Infer.withParams, rebound_con, map_rebound_eq_self.2 hps]
    | variadic min max qs =>
      obtain ⟨hmin, hmax, -⟩ := variadic.inj (rebound_variadic ▸ h)
      rw [Infer.withParams, rebound_variadic, map_rebound_eq_self.2 hps, hlen]
      exact congrArg₂ (variadic · · ps) hmin hmax
    | _ => exact h
  fill {t θ} h hθ := by rw [rebound_fill, h, fill_congr hθ]

namespace Infer

variable {P : Ty → Prop} {s s' : InferenceState} {t₁ t₂ u w : Ty}
  {e₁ e₂ : Option Mention} {c : Call}
  {calls : List Call} {id : String}

theorem all_perform (hP : Hereditary P) (hnew : ∀ id, P (.unknown id)) (hwf : s.store.WF)
    (hs : s.store.Acyclic) (hv : s.store.All P) (hc : ∀ t ∈ c.types, P t) :
    (c.perform.run s).2.store.All P := by
  cases c with
  | newUnknown stem =>
    intro k t ht
    replace ht := ((Forest.value?_add hwf _ _).2 k).symm.trans ht
    split at ht
    · cases ht
      exact hnew _
    · exact hv k t ht
  | unify t₁ t₂ e₁ e₂ =>
    have h := ensures_unify_hereditary hP e₁ e₂ hwf hs hv (hc t₁ (by simp [Call.types]))
      (hc t₂ (by simp [Call.types]))
    rw [Call.perform]
    rcases hrun : (unify t₁ t₂ e₁ e₂).run s with ⟨f | w, s'⟩
    · exact ((ensures_error hrun).1 h).all
    · exact ((ensures_ok hrun).1 h).1.all

theorem all_after (hP : Hereditary P) (hnew : ∀ id, P (.unknown id)) (hwf : s.store.WF)
    (hs : s.store.Acyclic) (hv : s.store.All P) (hend : ¬ endless s calls = true)
    (hc : ∀ c ∈ calls, ∀ t ∈ c.types, P t) : (after s calls).store.All P := by
  induction calls generalizing s with
  | nil => exact hv
  | cons c calls ih =>
    rw [List.forall_mem_cons] at hc
    rw [endless, Bool.or_eq_true, not_or] at hend
    obtain ⟨hwf', hs'⟩ := perform_acyclic hwf hs c
    exact ih hwf' (hs'.2 hend.1) (all_perform hP hnew hwf hs hv hc.1) hend.2 hc.2

/-! ## Types without numbers -/

theorem numberless_tags (tag : String) (arity : Nat) (h : Node.Numberless (.con tag arity)) :
    tag ≠ "Any" ∧ tag ≠ "?" := ⟨h.1, h.2.1⟩

theorem specific_of_numberless {n : Node} (h : n.Numberless) : Specific n := by
  cases n with
  | con tag arity => exact ⟨fun e ↦ h.1 (Option.some.inj e), fun e ↦ h.2.1 (Option.some.inj e)⟩
  | _ => exact ⟨nofun, nofun⟩

/-- No call on types without numbers, `any` and the gradual type is endless. -/
theorem not_endless_of_numberless (hc : ∀ c ∈ calls, ∀ t ∈ c.types, t.Built Node.Numberless) :
    ¬ endless .initial calls = true :=
  not_endless_of_specific wf_initial acyclic_initial
    (fun k _ ht ↦ absurd ((value?_initial k).symm.trans ht) nofun)
    fun c hm t ht ↦ (hc c hm t ht).mono fun _ ↦ specific_of_numberless

/-- **Unification makes types equal, up to bounds.**  After calls on types without numbers, `any`
and the gradual type, a successful `unify` of two more such types leaves a store in which all
replacements end. The two types and the returned one are then equal up to the bounds of variadic
functions.  They are equal if all types have their bounds from one table, by the number of
parameters. -/
theorem rebound_apply_eq_of_unify (hcalls : ∀ c ∈ calls, ∀ t ∈ c.types, t.Built Node.Numberless)
    (h₁ : t₁.Built Node.Numberless) (h₂ : t₂.Built Node.Numberless)
    (hrun : (unify t₁ t₂ e₁ e₂).run (after .initial calls) = (.ok w, s')) :
    (∀ t, s'.store.settles t = true) ∧
    (∀ b, (s'.store.apply t₁).rebound b = (s'.store.apply t₂).rebound b ∧
      (s'.store.apply w).rebound b = (s'.store.apply t₁).rebound b) ∧
    ∀ b, (∀ c ∈ calls, ∀ t ∈ c.types, t.rebound b = t) → t₁.rebound b = t₁ → t₂.rebound b = t₂ →
      s'.store.apply t₁ = s'.store.apply t₂ ∧ s'.store.apply w = s'.store.apply t₁ := by
  have hend := not_endless_of_numberless hcalls
  obtain ⟨hwf, hs⟩ := acyclic_after wf_initial acyclic_initial hend
  have hnone : ∀ {P : Ty → Prop}, InferenceState.initial.store.All P := fun k t ht ↦
    absurd ((value?_initial k).symm.trans ht) nofun
  have hv := all_after (hereditary_built _) (fun _ ↦ built_unknown.2 trivial) wf_initial
    acyclic_initial hnone hend hcalls
  obtain ⟨hadv, hw, hagree⟩ :=
    (ensures_ok hrun).1 (ensures_unify_solves numberless_tags e₁ e₂ hwf hs hv h₁ h₂)
  -- Up to bounds, a store makes of a type what its most general solution makes of the core.
  have happly : ∀ (b : BoundTable) {t : Ty}, t.Built Node.Numberless →
      (s'.store.apply t).rebound b = (t.core.fill s'.store.solution).rebound b := by
    intro b t ht
    rw [← Store.core_apply, rebound_core b (hadv.built.apply ht)]
  have heq : ∀ b, (s'.store.apply t₁).rebound b = (s'.store.apply t₂).rebound b ∧
      (s'.store.apply w).rebound b = (s'.store.apply t₁).rebound b := by
    intro b
    obtain ⟨h₁₂, hw₁⟩ := hagree _ (Store.solves_solution hadv.acyclic)
    rw [happly b h₁, happly b h₂, happly b hw, h₁₂, hw₁, h₁₂]
    exact ⟨rfl, rfl⟩
  refine ⟨hadv.acyclic.settles, heq, fun b hb hb₁ hb₂ ↦ ?_⟩
  have hP := hereditary_rebound b
  have hvb := all_after hP (fun _ ↦ rfl) wf_initial acyclic_initial hnone hend hb
  obtain ⟨hkept, hbw⟩ := (ensures_ok hrun).1 (ensures_unify_hereditary hP e₁ e₂ hwf hs hvb hb₁ hb₂)
  have h := heq b
  rwa [hkept.all.apply hP hb₁, hkept.all.apply hP hb₂, hkept.all.apply hP hbw] at h

/-- Calls after which an unknown is solved by a function of at least one string. -/
def stringFunction : List Call :=
  [.newUnknown "f", .newUnknown "a",
    .unify (.unknown "f#1") (.variadic (some 1) none [.unknown "a#2", string]) none none]

/-- A function of strings without bounds is unified with one of at least one string, and both keep
their bounds.  With the same bounds the two become equal. -/
theorem rebound_apply_eq_of_unify_stringFunction :
    (∃ s', (unify (.unknown "f#1") (.variadic none none [string, string]) none none).run
        (after .initial stringFunction) = (.ok (.variadic (some 1) none [string, string]), s') ∧
      ∀ b, (s'.store.apply (.unknown "f#1")).rebound b =
        (s'.store.apply (.variadic none none [string, string])).rebound b) ∧
    ∃ s', (unify (.unknown "f#1") (.variadic (some 1) none [string, string]) none none).run
        (after .initial stringFunction) = (.ok (.variadic (some 1) none [string, string]), s') ∧
      s'.store.apply (.unknown "f#1") =
        s'.store.apply (.variadic (some 1) none [string, string]) := by
  have hcalls : ∀ c ∈ stringFunction, ∀ t ∈ c.types, t.Built Node.Numberless := by decide +kernel
  constructor
  · have hrun : (unify (.unknown "f#1") (.variadic none none [string, string]) none none).run
        (after .initial stringFunction) = (.ok (.variadic (some 1) none [string, string]), _) :=
      Prod.ext (by decide +kernel) rfl
    exact ⟨_, hrun,
      fun b ↦ ((rebound_apply_eq_of_unify hcalls (by decide) (by decide) hrun).2.1 b).1⟩
  · have hrun : (unify (.unknown "f#1") (.variadic (some 1) none [string, string]) none none).run
        (after .initial stringFunction) = (.ok (.variadic (some 1) none [string, string]), _) :=
      Prod.ext (by decide +kernel) rfl
    exact ⟨_, hrun, ((rebound_apply_eq_of_unify hcalls (by decide) (by decide) hrun).2.2
      (fun _ ↦ (some 1, none)) (by decide +kernel) rfl rfl).1⟩

/-- Two variadic functions with different bounds are unified, and stay different. -/
theorem unify_ignores_bounds :
    ∃ s', (unify (.variadic none none [string, string]) (.variadic (some 1) none [string, string])
        none none).run .initial = (.ok (.variadic none none [string, string]), s') ∧
      s'.store.apply (.variadic none none [string, string]) ≠
        s'.store.apply (.variadic (some 1) none [string, string]) :=
  ⟨_, Prod.ext (by decide +kernel) rfl, by decide +kernel⟩

end Infer

end SchemeTyping
