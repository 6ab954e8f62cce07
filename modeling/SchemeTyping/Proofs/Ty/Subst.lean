import SchemeTyping.Proofs.Ty.Subtype
import SchemeTyping.Ty.Eliminate

/-!
# Free variables under substitution and elimination

## What is here

* `subst_eq_self`, `eliminate_eq_self` — substitution and elimination change a type only where their
  variables are free in it.
* `isSubtype_iff_forall_subst` — `s` is a subtype of `t` exactly if it is so under every
  substitution.
* `mem_freeVars_subst_iff`, `freeVars_subst_exact` — which variables are free after a substitution,
  the captured ones left out.
-/

set_option autoImplicit false

namespace SchemeTyping.Ty

variable {vars : List String} {t : Ty} {ps : List Ty} {σ : Subst}

/-! ## Substitution -/

/-- A substitution without the free variables of `t` does not change `t`. -/
theorem subst_eq_self (h : ∀ x ∈ t.freeVars, σ.get? x = none) : t.subst σ = t := by
  induction t generalizing σ with
  | var name => rw [subst_var, h name (by simp), Option.getD_none]
  | unknown id => rfl
  | con tag ps ih =>
    have hps : ∀ p ∈ ps, p.subst σ = p := fun p hp ↦ ih p hp fun x hx ↦
      h x (mem_freeVars_of_mem_params (t := .con tag ps) hp hx)
    rw [subst_con, List.map_congr_left hps, List.map_id']
  | variadic min max ps ih =>
    have hps : ∀ p ∈ ps, p.subst σ = p := fun p hp ↦ ih p hp fun x hx ↦
      h x (mem_freeVars_of_mem_params (t := .variadic min max ps) hp hx)
    rw [subst_variadic, List.map_congr_left hps, List.map_id']
  | all bound body ih =>
    rw [subst_all, ih fun x hx ↦ ?_]
    rw [OrdMap.get?_filterKeys]
    split
    · rename_i hbound
      exact h x (by rw [freeVars_all, List.mem_filter]; exact ⟨hx, hbound⟩)
    · rfl

/-- **Subtyping is what every substitution keeps.**  `s` is a subtype of `t` exactly if `s.subst σ`
is a subtype of `t.subst σ` for every `σ`. -/
theorem isSubtype_iff_forall_subst (s t : Ty) :
    s.isSubtype t = true ↔ ∀ σ : Subst, (s.subst σ).isSubtype (t.subst σ) = true := by
  refine ⟨fun h σ ↦ isSubtype_subst σ h, fun h ↦ ?_⟩
  have hempty : ∀ u : Ty, u.subst ∅ = u := fun u ↦ subst_eq_self fun x _ ↦ OrdMap.get?_empty x
  simpa only [hempty] using h ∅

/-- `t.subst σ` stays in a fragment that has `t` and every type of `σ`. -/
theorem Built.subst {p : Node → Prop} (h : t.Built p)
    (hσ : ∀ x u, σ.get? x = some u → u.Built p) : (t.subst σ).Built p := by
  induction t generalizing σ with
  | var name =>
    rw [subst_var]
    cases hname : σ.get? name with
    | none => exact h
    | some u => exact hσ name u hname
  | unknown id => exact h
  | con tag ps ih =>
    obtain ⟨hnode, hps⟩ := built_con.1 h
    rw [subst_con, built_con, List.length_map, List.forall_mem_map]
    exact ⟨hnode, fun p hp ↦ ih p hp (hps p hp) hσ⟩
  | variadic min max ps ih =>
    obtain ⟨hnode, hps⟩ := built_variadic.1 h
    rw [subst_variadic, built_variadic, List.length_map, List.forall_mem_map]
    exact ⟨hnode, fun p hp ↦ ih p hp (hps p hp) hσ⟩
  | all bound body ih =>
    obtain ⟨hnode, hbody⟩ := built_all.1 h
    refine built_all.2 ⟨hnode, ih hbody fun x u hx ↦ ?_⟩
    rw [OrdMap.get?_filterKeys] at hx
    split at hx
    · exact hσ x u hx
    · cases hx

/-!
## Free variables after a substitution

Bound names are not renamed, so a quantifier around the place of a variable captures its own names
in the type that is put there.  What is free afterwards depends on where the variable occurs:
`freeVarsOutside z` has the variables that occur at a place where `z` is not captured.
-/

mutual

/-- The variables that occur free outside the quantifiers that bind `z`. -/
def freeVarsOutside (z : String) : Ty → List String
  | .var name => [name]
  | .unknown _ => []
  | .con _ ps => freeVarsOutsideList z ps
  | .variadic _ _ ps => freeVarsOutsideList z ps
  | .all bound body =>
    if bound.contains z then [] else (body.freeVarsOutside z).filter fun name ↦ !bound.contains name

/-- As `freeVarsOutside`, for the types of a list. -/
def freeVarsOutsideList (z : String) : List Ty → List String
  | [] => []
  | t :: ts => t.freeVarsOutside z ++ freeVarsOutsideList z ts

end

theorem freeVarsOutsideList_eq_flatMap (z : String) (ps : List Ty) :
    freeVarsOutsideList z ps = ps.flatMap (freeVarsOutside z) := by
  induction ps with
  | nil => rfl
  | cons t ps ih => rw [freeVarsOutsideList, ih, List.flatMap_cons]

theorem mem_freeVarsOutside_all {x z : String} {bound : List String} {body : Ty} :
    x ∈ (all bound body).freeVarsOutside z ↔ z ∉ bound ∧ x ∈ body.freeVarsOutside z ∧
    x ∉ bound := by
  rw [freeVarsOutside]
  split <;> simp_all

/-- A variable of `t.freeVarsOutside z` is free in `t`. -/
theorem mem_freeVars_of_outside {x z : String} (h : x ∈ t.freeVarsOutside z) : x ∈ t.freeVars := by
  induction t with
  | var | unknown => exact h
  | con tag ps ih =>
    rw [freeVarsOutside, freeVarsOutsideList_eq_flatMap] at h
    obtain ⟨p, hp, hx⟩ := List.mem_flatMap.1 h
    exact mem_freeVars_of_mem_params (t := .con tag ps) hp (ih p hp hx)
  | variadic min max ps ih =>
    rw [freeVarsOutside, freeVarsOutsideList_eq_flatMap] at h
    obtain ⟨p, hp, hx⟩ := List.mem_flatMap.1 h
    exact mem_freeVars_of_mem_params (t := .variadic min max ps) hp (ih p hp hx)
  | all bound body ih =>
    obtain ⟨-, hx, hbound⟩ := mem_freeVarsOutside_all.1 h
    simpa using ⟨ih hx, hbound⟩

theorem mem_flatMap_freeVars_subst {z : String}
    (ih : ∀ p ∈ ps, z ∈ (p.subst σ).freeVars ↔ z ∈ p.freeVars ∧ σ.get? z = none ∨
      ∃ x ∈ p.freeVarsOutside z, ∃ u, σ.get? x = some u ∧ z ∈ u.freeVars) :
    z ∈ (ps.map (subst σ)).flatMap freeVars ↔ z ∈ ps.flatMap freeVars ∧ σ.get? z = none ∨
      ∃ x ∈ freeVarsOutsideList z ps, ∃ u, σ.get? x = some u ∧ z ∈ u.freeVars := by
  simp only [freeVarsOutsideList_eq_flatMap, List.flatMap_map, List.mem_flatMap]
  constructor
  · rintro ⟨p, hp, hz⟩
    rcases (ih p hp).1 hz with ⟨hz, hnone⟩ | ⟨x, hx, hu⟩
    · exact .inl ⟨⟨p, hp, hz⟩, hnone⟩
    · exact .inr ⟨x, ⟨p, hp, hx⟩, hu⟩
  · rintro (⟨⟨p, hp, hz⟩, hnone⟩ | ⟨x, ⟨p, hp, hx⟩, hu⟩)
    · exact ⟨p, hp, (ih p hp).2 (.inl ⟨hz, hnone⟩)⟩
    · exact ⟨p, hp, (ih p hp).2 (.inr ⟨x, hx, hu⟩)⟩

/-- `z` is free in `t.subst σ` if it is free in `t` and `σ` leaves it alone, or if it is free in
what `σ` puts for a variable at a place where no quantifier binds `z`. -/
theorem mem_freeVars_subst_iff {z : String} :
    z ∈ (t.subst σ).freeVars ↔ z ∈ t.freeVars ∧ σ.get? z = none ∨
      ∃ x ∈ t.freeVarsOutside z, ∃ u, σ.get? x = some u ∧ z ∈ u.freeVars := by
  induction t generalizing σ with
  | var name =>
    rw [subst_var, freeVarsOutside, freeVars_var]
    cases hname : σ.get? name with
    | none =>
      have hz : z = name → σ.get? z = none := fun h ↦ h ▸ hname
      simpa [hname] using hz
    | some u =>
      have hz : z = name → σ.get? z = none → z ∈ u.freeVars :=
        fun h hnone ↦ by simp [h, hname] at hnone
      simpa [hname] using hz
  | unknown id => simp [freeVarsOutside]
  | con tag ps ih =>
    rw [subst_con, freeVars_con, freeVars_con]
    exact mem_flatMap_freeVars_subst fun p hp ↦ ih p hp
  | variadic min max ps ih =>
    rw [subst_variadic, freeVars_variadic, freeVars_variadic]
    exact mem_flatMap_freeVars_subst fun p hp ↦ ih p hp
  | all bound body ih =>
    simp only [subst_all, freeVars_all, List.mem_filter, ih, mem_freeVarsOutside_all,
      OrdMap.get?_filterKeys,
      Bool.not_eq_true', List.contains_eq_mem, decide_eq_false_iff_not,
        Option.ite_none_right_eq_some]
    -- a name that the quantifier binds is free on neither side
    by_cases hz : z ∈ bound
    · simp [hz]
    · simp [hz, and_assoc]

/-- A variable that is free in `t.subst σ` is one of `t` that `σ` leaves alone, or comes from
`σ`. -/
theorem mem_freeVars_subst {x : String} (h : x ∈ (t.subst σ).freeVars) :
    x ∈ t.freeVars ∧ σ.get? x = none ∨
      ∃ name ∈ t.freeVars, ∃ u, σ.get? name = some u ∧ x ∈ u.freeVars := by
  rcases mem_freeVars_subst_iff.1 h with h | ⟨name, hname, hu⟩
  · exact .inl h
  · exact .inr ⟨name, mem_freeVars_of_outside hname, hu⟩

/-- **The free variables after a substitution** are the free ones that `σ` leaves alone and, of the
types that `σ` puts for free variables, those that no quantifier around the place binds.  If each
variable has a place where its type is not captured, none of these is lost. -/
theorem freeVars_subst_exact (t : Ty) (σ : Subst) :
    (∀ z, z ∈ (t.subst σ).freeVars ↔ z ∈ t.freeVars ∧ σ.get? z = none ∨
      ∃ x ∈ t.freeVarsOutside z, ∃ u ∈ σ.get? x, z ∈ u.freeVars) ∧
    ((∀ x ∈ t.freeVars, ∀ u ∈ σ.get? x, ∀ z ∈ u.freeVars, x ∈ t.freeVarsOutside z) →
      ∀ z, z ∈ (t.subst σ).freeVars ↔ z ∈ t.freeVars ∧ σ.get? z = none ∨
        ∃ x ∈ t.freeVars, ∃ u ∈ σ.get? x, z ∈ u.freeVars) := by
  refine ⟨fun z ↦ mem_freeVars_subst_iff, fun hout z ↦ ⟨mem_freeVars_subst, fun h ↦ ?_⟩⟩
  rw [mem_freeVars_subst_iff]
  rcases h with h | ⟨x, hx, u, hu, hz⟩
  · exact .inl h
  · exact .inr ⟨x, hout x hx u hu z hz, u, hu, hz⟩

/-- One quantifier binds the variable of the substitution.  The other one binds a name of the type
that is put in under it, but the variable also occurs outside of it. -/
theorem freeVars_subst_exact_nested :
    (∀ x ∈ (function [.var "a", .all ["a"] (list (.var "a")), .all ["c"] (.var "a")]).freeVars,
      ∀ u ∈ OrdMap.get? (⟨[("a", list (.var "c"))]⟩ : Subst) x, ∀ z ∈ u.freeVars,
        x ∈ (function
          [.var "a", .all ["a"] (list (.var "a")), .all ["c"] (.var "a")]).freeVarsOutside z) ∧
    "c" ∈ ((function [.var "a", .all ["a"] (list (.var "a")), .all ["c"] (.var "a")]).subst
      ⟨[("a", list (.var "c"))]⟩).freeVars := by
  have hout : ∀ x ∈
    (function [.var "a", .all ["a"] (list (.var "a")), .all ["c"] (.var "a")]).freeVars,
      ∀ u ∈ OrdMap.get? (⟨[("a", list (.var "c"))]⟩ : Subst) x, ∀ z ∈ u.freeVars,
        x ∈ (function
          [.var "a", .all ["a"] (list (.var "a")), .all ["c"] (.var "a")]).freeVarsOutside z := by
    decide
  exact ⟨hout, ((freeVars_subst_exact _ _).2 hout "c").2
    (.inr ⟨"a", by decide, list (.var "c"), by decide, by decide⟩)⟩

/-- A variable of the type that is put in is captured: `a` is free in what stands for the free
variable `b`, but not in the result. -/
theorem freeVars_subst_captured :
    (∃ x ∈ (Ty.all ["a"] (function [.var "a", .var "b"])).freeVars,
      ∃ u ∈ OrdMap.get? (⟨[("b", .var "a")]⟩ : Subst) x, "a" ∈ u.freeVars) ∧
    "a" ∉ ((Ty.all ["a"] (function [.var "a", .var "b"])).subst ⟨[("b", .var "a")]⟩).freeVars := by
  decide

/-! ## Elimination -/

/-- `p` keeps the names that a quantifier does not bind.  If none of those in `xs` is in `vars`,
then none of those in `vars` is in `xs`. -/
theorem notMem_filter_of_filter {xs : List String} {p : String → Bool}
    (h : ∀ x ∈ xs.filter p, x ∉ vars) : ∀ x ∈ xs, x ∉ vars.filter p := by
  intro x hx hmem
  obtain ⟨hmem, hpx⟩ := List.mem_filter.1 hmem
  exact h x (List.mem_filter.2 ⟨hx, hpx⟩) hmem

theorem eliminateFixed_eq_self (h : ∀ x ∈ t.freeVars, x ∉ vars) : t.eliminateFixed vars = t := by
  rw [eliminateFixed, if_neg]
  simpa using h

theorem eliminateList_eq_self {vs : List Variance} {ps : List Ty} {up : Bool}
    (hvs : ps.length ≤ vs.length) (h : ∀ p ∈ ps, ∀ x ∈ p.freeVars, x ∉ vars)
    (ih : ∀ p ∈ ps, ∀ up, p.eliminate vars up = p) : eliminateList vars up vs ps = ps := by
  induction ps generalizing vs with
  | nil => cases vs <;> rfl
  | cons p ps ih' =>
    cases vs with
    | nil => simp at hvs
    | cons v vs =>
      rw [List.forall_mem_cons] at h ih
      have hvs' : ps.length ≤ vs.length := by simpa using hvs
      have hrest := ih' hvs' h.2 ih.2
      cases v <;> simp [eliminateList, hrest, ih.1, eliminateFixed_eq_self h.1]

/-- If none of `vars` is free in `t`, elimination does not change `t`. -/
theorem eliminate_eq_self (h : ∀ x ∈ t.freeVars, x ∉ vars) (up : Bool) :
    t.eliminate vars up = t := by
  induction t generalizing vars up with
  | var name => rw [eliminate, if_neg (by simpa using h)]
  | unknown id => rfl
  | con tag ps ih =>
    have hps : ∀ p ∈ ps, ∀ x ∈ p.freeVars, x ∉ vars := fun p hp x hx ↦
      h x (mem_freeVars_of_mem_params (t := .con tag ps) hp hx)
    rw [eliminate,
      eliminateList_eq_self (le_length_ofTag _ _) hps fun p hp up ↦ ih p hp (hps p hp) up]
  | variadic min max ps ih =>
    have hps : ∀ p ∈ ps, ∀ x ∈ p.freeVars, x ∉ vars := fun p hp x hx ↦
      h x (mem_freeVars_of_mem_params (t := .variadic min max ps) hp hx)
    rw [eliminate, eliminateList_eq_self (by simp) hps fun p hp up ↦ ih p hp (hps p hp) up]
  | all bound body ih => rw [eliminate, ih (notMem_filter_of_filter h)]

end SchemeTyping.Ty
