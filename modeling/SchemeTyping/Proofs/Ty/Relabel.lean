import Mathlib.Data.List.Basic
import Mathlib.Logic.Equiv.Basic
import SchemeTyping.Proofs.Ty.Basic

/-!
# Other names and ids

`Ty.mapUnknowns ρ` gives the unknowns of a type other ids, and `Ty.relabel V ρ` gives its variables
other names as well.  The size, the tags and the order of the parameters do not change.
-/

set_option autoImplicit false

namespace SchemeTyping.Ty

variable {V ρ ρ' : String → String} {tag : String} {ps : List Ty} {min max : Option Int} {t : Ty}

/-- The type with `ρ id` for every unknown `id`. -/
def mapUnknowns (ρ : String → String) (t : Ty) : Ty := t.fill fun k ↦ .unknown (ρ k)

@[simp] theorem mapUnknowns_unknown (ρ : String → String) (id : String) :
    (unknown id).mapUnknowns ρ = unknown (ρ id) := rfl

@[simp] theorem mapUnknowns_con (ρ : String → String) :
    (con tag ps).mapUnknowns ρ = con tag (ps.map (mapUnknowns ρ)) := fill_con ..

@[simp] theorem mapUnknowns_variadic (ρ : String → String) :
    (variadic min max ps).mapUnknowns ρ = variadic min max (ps.map (mapUnknowns ρ)) :=
  fill_variadic ..

mutual

/-- The type with `V name` for every variable and every bound name, and `ρ id` for every unknown. -/
def relabel (V ρ : String → String) : Ty → Ty
  | .var name => .var (V name)
  | .unknown id => .unknown (ρ id)
  | .con tag ps => .con tag (relabelList V ρ ps)
  | .variadic min max ps => .variadic min max (relabelList V ρ ps)
  | .all bound body => .all (bound.map V) (body.relabel V ρ)

/-- As `relabel`, for the types of a list. -/
def relabelList (V ρ : String → String) : List Ty → List Ty
  | [] => []
  | t :: ts => t.relabel V ρ :: relabelList V ρ ts

end

theorem relabelList_eq_map (V ρ : String → String) (ps : List Ty) :
    relabelList V ρ ps = ps.map (relabel V ρ) := by
  induction ps with
  | nil => rfl
  | cons t ps ih => rw [relabelList, ih, List.map_cons]

@[simp] theorem relabel_con : (con tag ps).relabel V ρ = con tag (ps.map (relabel V ρ)) := by
  rw [relabel, relabelList_eq_map]

@[simp] theorem relabel_variadic :
    (variadic min max ps).relabel V ρ = variadic min max (ps.map (relabel V ρ)) := by
  rw [relabel, relabelList_eq_map]

theorem relabel_id (ρ : String → String) (t : Ty) : t.relabel id ρ = t.mapUnknowns ρ := by
  induction t with
  | var | unknown => rfl
  | con tag ps ih => rw [relabel_con, mapUnknowns_con, List.map_congr_left ih]
  | variadic min max ps ih => rw [relabel_variadic, mapUnknowns_variadic, List.map_congr_left ih]
  | all bound body ih =>
    rw [relabel, ih, List.map_id]
    rfl

theorem relabel_congr (V : String → String) (h : ∀ k ∈ t.unknowns, ρ k = ρ' k) :
    t.relabel V ρ = t.relabel V ρ' := by
  induction t with
  | var => rfl
  | unknown id => exact congrArg unknown (h id (by simp))
  | con tag ps ih =>
    rw [unknowns_con] at h
    rw [relabel_con, relabel_con, List.map_congr_left fun p hp ↦
      ih p hp fun k hk ↦ h k (List.mem_flatMap.2 ⟨p, hp, hk⟩)]
  | variadic min max ps ih =>
    rw [unknowns_variadic] at h
    rw [relabel_variadic, relabel_variadic, List.map_congr_left fun p hp ↦
      ih p hp fun k hk ↦ h k (List.mem_flatMap.2 ⟨p, hp, hk⟩)]
  | all bound body ih => rw [relabel, relabel, ih h]

theorem unknowns_relabel (V ρ : String → String) (t : Ty) :
    (t.relabel V ρ).unknowns = t.unknowns.map ρ := by
  induction t with
  | var | unknown => rfl
  | con tag ps ih =>
    rw [relabel_con, unknowns_con, unknowns_con, List.flatMap_map, List.map_flatMap]
    exact List.flatMap_congr ih
  | variadic min max ps ih =>
    rw [relabel_variadic, unknowns_variadic, unknowns_variadic, List.flatMap_map, List.map_flatMap]
    exact List.flatMap_congr ih
  | all bound body ih => exact ih

/-- If `t` has no variables and no quantifiers, relabelling `t.fill θ` relabels what `θ` puts in. -/
theorem relabel_fill {p : Node → Prop} (hp : ¬ p .var ∧ ¬ p .all) (ht : t.Built p)
    (V ρ : String → String) (θ : String → Ty) :
    (t.fill θ).relabel V ρ = t.fill fun k ↦ (θ k).relabel V ρ := by
  induction t with
  | var name => exact absurd (built_var.1 ht) hp.1
  | unknown => rfl
  | con tag ps ih =>
    simp only [fill_con, relabel_con, List.map_map]
    exact congrArg _ (List.map_congr_left fun q hq ↦ ih q hq ((built_con.1 ht).2 q hq))
  | variadic min max ps ih =>
    simp only [fill_variadic, relabel_variadic, List.map_map]
    exact congrArg _ (List.map_congr_left fun q hq ↦ ih q hq ((built_variadic.1 ht).2 q hq))
  | all bound body => exact absurd (built_all.1 ht).1 hp.2

/-! ## Other ids only -/

theorem unknowns_mapUnknowns (ρ : String → String) (t : Ty) :
    (t.mapUnknowns ρ).unknowns = t.unknowns.map ρ := by
  rw [← relabel_id, unknowns_relabel]

theorem size_mapUnknowns (ρ : String → String) (t : Ty) : (t.mapUnknowns ρ).size = t.size := by
  have hrow : ∀ ps : List Ty, (∀ p ∈ ps, (p.mapUnknowns ρ).size = p.size) →
      sizeList (ps.map (mapUnknowns ρ)) = sizeList ps := by
    intro ps ih
    induction ps with
    | nil => rfl
    | cons p ps ih' =>
      rw [List.forall_mem_cons] at ih
      rw [List.map_cons, sizeList, sizeList, ih.1, ih' ih.2]
  induction t with
  | var | unknown => rfl
  | con tag ps ih => rw [mapUnknowns_con, size, size, hrow ps ih]
  | variadic min max ps ih => rw [mapUnknowns_variadic, size, size, hrow ps ih]
  | all bound body ih => exact congrArg (1 + ·) ih

theorem tag?_mapUnknowns (ρ : String → String) (t : Ty) : (t.mapUnknowns ρ).tag? = t.tag? := by
  cases t <;> rfl

theorem hasTag_mapUnknowns (ρ : String → String) (t : Ty) (tag : String) :
    (t.mapUnknowns ρ).hasTag tag = t.hasTag tag := by
  rw [hasTag, hasTag, tag?_mapUnknowns]

theorem params_mapUnknowns (ρ : String → String) (t : Ty) :
    (t.mapUnknowns ρ).params = t.params.map (mapUnknowns ρ) := by
  cases t with
  | con | variadic => simp [params]
  | _ => rfl

theorem mapUnknowns_injective (ρ : Equiv.Perm String) : Function.Injective (mapUnknowns ρ) := by
  have hinv : ∀ t : Ty, (t.mapUnknowns ρ).mapUnknowns ρ.symm = t := fun t ↦ by
    rw [mapUnknowns, mapUnknowns, fill_fill]
    simp [fill_self]
  exact Function.LeftInverse.injective hinv

theorem mapUnknowns_congr (h : ∀ k ∈ t.unknowns, ρ k = ρ' k) : t.mapUnknowns ρ = t.mapUnknowns ρ' :=
  fill_congr fun k hk ↦ congrArg unknown (h k hk)

theorem mapUnknowns_eq_self (h : t.unknowns = []) : t.mapUnknowns ρ = t :=
  (fill_congr fun _ hk ↦ absurd (h ▸ hk) List.not_mem_nil).trans (fill_self t)

end SchemeTyping.Ty
