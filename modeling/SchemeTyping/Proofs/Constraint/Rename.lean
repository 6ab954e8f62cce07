import SchemeTyping.Proofs.Constraint
import SchemeTyping.Proofs.Ty.Usage

/-!
# The names of quantified variables

Two calls that differ only in the names of the quantified variables have the same outcome, if the
types of the arguments mention neither the old names nor the new ones (`callResult_rename`).  Where
an argument mentions a variable with the name of a quantified one, the two are taken for the same
variable, and the outcome depends on the name (`callResult_captures`).

The proof compares the two runs step by step.  Both find the same bounds, which are parts of the
arguments; the keys of the constraint sets of the second are the new names (`ConstraintSet.rename`).
-/

set_option autoImplicit false

namespace SchemeTyping

open Ty

variable {xs ys vars : List String} {s t : Ty}

/-! ## Renaming variables -/

/-- The substitution of the variables `ys` for `xs`. -/
def relabel (xs ys : List String) : Subst := ⟨xs.zip (ys.map .var)⟩

/-- The name that takes the place of `x`. -/
def newName (xs ys : List String) (x : String) : String := (OrdMap.lookup x (xs.zip ys)).getD x

theorem get?_relabel (xs ys : List String) (x : String) :
    (relabel xs ys).get? x = (OrdMap.lookup x (xs.zip ys)).map .var := by
  rw [relabel, OrdMap.get?, List.zip_map_right, ← OrdMap.lookup_map]
  rfl

theorem subst_var_relabel (xs ys : List String) (x : String) :
    (Ty.var x).subst (relabel xs ys) = .var (newName xs ys x) := by
  rw [subst_var, get?_relabel, newName]
  cases OrdMap.lookup x (xs.zip ys) <;> rfl

/-- A name of `xs` is renamed to one of `ys`, which is renamed back to it. -/
theorem exists_lookup_zip (hlen : xs.length = ys.length) (hys : ys.Nodup) {x : String}
    (hx : x ∈ xs) :
    ∃ y ∈ ys, OrdMap.lookup x (xs.zip ys) = some y ∧ OrdMap.lookup y (ys.zip xs) = some x := by
  induction xs generalizing ys with
  | nil => cases hx
  | cons a xs ih =>
    obtain ⟨b, ys, rfl⟩ := List.exists_cons_of_length_eq_add_one (hlen.symm.trans rfl)
    obtain ⟨hb, hys⟩ := List.nodup_cons.1 hys
    simp only [List.zip_cons_cons, OrdMap.lookup]
    by_cases hxa : a = x
    · exact ⟨b, List.mem_cons_self, by rw [if_pos hxa], by rw [if_pos rfl, hxa]⟩
    · have hx' : x ∈ xs := (List.mem_cons.1 hx).resolve_left (Ne.symm hxa)
      obtain ⟨y, hy, hxy, hyx⟩ := ih (by simpa using hlen) hys hx'
      have hby : b ≠ y := fun h ↦ hb (h ▸ hy)
      exact ⟨y, List.mem_cons_of_mem _ hy, by rw [if_neg hxa, hxy], by rw [if_neg hby, hyx]⟩

theorem lookup_zip_of_notMem {x : String} (hx : x ∉ xs) : OrdMap.lookup x (xs.zip ys) = none := by
  have hkeys : x ∉ OrdMap.keys ⟨xs.zip ys⟩ := fun h ↦ by
    obtain ⟨e, he, rfl⟩ := List.mem_map.1 h
    exact hx (List.of_mem_zip he).1
  exact OrdMap.get?_eq_none_iff.2 hkeys

theorem newName_of_notMem {x : String} (hx : x ∉ xs) : newName xs ys x = x := by
  rw [newName, lookup_zip_of_notMem hx, Option.getD_none]

section

variable (hlen : xs.length = ys.length) (hys : ys.Nodup)

include hlen hys

theorem newName_mem {x : String} (hx : x ∈ xs) : newName xs ys x ∈ ys := by
  obtain ⟨y, hy, hxy, -⟩ := exists_lookup_zip hlen hys hx
  rwa [newName, hxy]

theorem newName_mem_iff {x : String} (hx : x ∉ ys) : newName xs ys x ∈ ys ↔ x ∈ xs := by
  refine ⟨fun h ↦ ?_, newName_mem hlen hys⟩
  by_contra hx'
  exact hx (newName_of_notMem hx' ▸ h)

theorem newName_newName {x : String} (hx : x ∉ ys) : newName ys xs (newName xs ys x) = x := by
  by_cases hx' : x ∈ xs
  · obtain ⟨y, -, hxy, hyx⟩ := exists_lookup_zip hlen hys hx'
    rw [newName, newName, hxy, Option.getD_some, hyx, Option.getD_some]
  · rw [newName_of_notMem hx', newName_of_notMem hx]

theorem newName_inj {x x' : String} (hx : x ∈ xs) (hx' : x' ∈ xs)
    (h : newName xs ys x = newName xs ys x') : x = x' := by
  obtain ⟨y, -, hxy, hyx⟩ := exists_lookup_zip hlen hys hx
  obtain ⟨y', -, hxy', hyx'⟩ := exists_lookup_zip hlen hys hx'
  rw [newName, newName, hxy, hxy', Option.getD_some, Option.getD_some] at h
  rw [h, hyx'] at hyx
  exact (Option.some.inj hyx).symm

theorem newName_eq_iff {x v : String} (hx : x ∈ xs) (hv : v ∉ ys) :
    newName xs ys v = newName xs ys x ↔ v = x := by
  refine ⟨fun h ↦ newName_inj hlen hys ?_ hx h, congrArg _⟩
  exact (newName_mem_iff hlen hys hv).1 (h ▸ newName_mem hlen hys hx)

/-! ## Types under other names -/

omit hlen hys in
/-- Without quantifiers, the composition of `σ` and `τ` is determined by what it does to the
variables. -/
theorem Ty.QuantifierFree.subst_subst {σ τ υ : Subst} (ht : t.QuantifierFree)
    (h : ∀ x ∈ t.freeVars, ((Ty.var x).subst σ).subst τ = (Ty.var x).subst υ) :
    (t.subst σ).subst τ = t.subst υ := by
  induction t with
  | var x => exact h x (by simp)
  | unknown id => rfl
  | con tag ps ih =>
    rw [subst_con, subst_con, subst_con, List.map_map]
    exact congrArg _ (List.map_congr_left fun p hp ↦ ih p hp ((built_con.1 ht).2 p hp) fun x hx ↦
      h x (mem_freeVars_of_mem_params (t := .con tag ps) hp hx))
  | variadic min max ps ih =>
    rw [subst_variadic, subst_variadic, subst_variadic, List.map_map]
    exact congrArg _
      (List.map_congr_left fun p hp ↦ ih p hp ((built_variadic.1 ht).2 p hp) fun x hx ↦
      h x (mem_freeVars_of_mem_params (t := .variadic min max ps) hp hx))
  | all => exact absurd rfl (built_all.1 ht).1

/-- A type without quantifiers that does not mention `ys`. -/
structure Avoids (ys : List String) (t : Ty) : Prop where
  quantifierFree : t.QuantifierFree
  notMem : ∀ y ∈ t.freeVars, y ∉ ys

omit hlen hys in
theorem Avoids.of_mem_params (h : Avoids ys t) {p : Ty} (hp : p ∈ t.params) : Avoids ys p :=
  ⟨h.quantifierFree.of_mem_params hp, fun y hy ↦ h.notMem y (mem_freeVars_of_mem_params hp hy)⟩

/-- `relabel ys xs` undoes `relabel xs ys` on a type that avoids `ys`. -/
theorem subst_relabel_relabel (ht : Avoids ys t) :
    (t.subst (relabel xs ys)).subst (relabel ys xs) = t := by
  rw [ht.quantifierFree.subst_subst (υ := ∅) fun x hx ↦ ?_, subst_eq_self fun _ _ ↦ rfl]
  rw [subst_var_relabel, subst_var_relabel, newName_newName hlen hys (ht.notMem x hx)]
  rfl

/-- `relabel xs ys` preserves and reflects subtyping between types that avoid `ys`. -/
theorem isSubtype_relabel (hs : Avoids ys s) (ht : Avoids ys t) :
    (s.subst (relabel xs ys)).isSubtype (t.subst (relabel xs ys)) = s.isSubtype t := by
  refine Bool.eq_iff_iff.2 ⟨fun h ↦ ?_, isSubtype_subst _⟩
  have hback := isSubtype_subst (relabel ys xs) h
  rwa [subst_relabel_relabel hlen hys hs, subst_relabel_relabel hlen hys ht] at hback

theorem varAmong?_relabel (ht : Avoids ys t) :
    ConstraintSet.varAmong? ys (t.subst (relabel xs ys)) =
      (ConstraintSet.varAmong? xs t).map (newName xs ys) := by
  cases t with
  | var x =>
    have hmem := newName_mem_iff hlen hys (ht.notMem x (by simp))
    rw [subst_var_relabel]
    simp only [ConstraintSet.varAmong?, List.contains_iff_mem, hmem]
    split <;> rfl
  | _ => rfl

omit hlen hys in
theorem usageList_map {x y : String} {f : Ty → Ty} {vs : List Variance} {ps : List Ty}
    (h : ∀ p ∈ ps, (f p).usage y = p.usage x) : usageList y vs (ps.map f) = usageList x vs ps := by
  induction ps generalizing vs with
  | nil => cases vs <;> rfl
  | cons p ps ih =>
    rw [List.forall_mem_cons] at h
    cases vs with
    | nil => rfl
    | cons v vs => rw [List.map_cons, usageList, usageList, h.1, ih h.2]

/-- The usage of the new name after `relabel xs ys` is that of the old name before. -/
theorem usage_relabel (ht : Avoids ys t) {x : String} (hx : x ∈ xs) :
    (t.subst (relabel xs ys)).usage (newName xs ys x) = t.usage x := by
  induction t with
  | var v =>
    rw [subst_var_relabel, usage, usage]
    simp only [newName_eq_iff hlen hys hx (ht.notMem v (by simp))]
  | unknown id => rfl
  | con tag ps ih =>
    rw [subst_con, usage, usage, List.length_map]
    exact usageList_map fun p hp ↦ ih p hp (ht.of_mem_params hp)
  | variadic min max ps ih =>
    rw [subst_variadic, usage, usage, List.length_map]
    exact usageList_map fun p hp ↦ ih p hp (ht.of_mem_params hp)
  | all => exact absurd rfl (built_all.1 ht.quantifierFree).1

theorem mem_freeVars_relabel (ht : Avoids ys t) {x : String} (hx : x ∈ xs) :
    newName xs ys x ∈ (t.subst (relabel xs ys)).freeVars ↔ x ∈ t.freeVars := by
  rw [← not_iff_not, ← usage_eq_constant_iff, ← usage_eq_constant_iff, usage_relabel hlen hys ht hx]

end

/-! ## Constraint sets under other names -/

namespace ConstraintSet

variable {G : Ty → Prop} {π : String → String} {S T V : ConstraintSet}

/-- The constraints with `π name` for every key `name`. -/
def rename (π : String → String) (S : ConstraintSet) : ConstraintSet :=
  ⟨S.entries.map fun e ↦ (π e.1, e.2)⟩

theorem keys_rename (π : String → String) (S : ConstraintSet) :
    (S.rename π).keys = S.keys.map π := by
  simp [rename, OrdMap.keys]

theorem values_rename (π : String → String) (S : ConstraintSet) :
    (S.rename π).values = S.values := by
  simp [rename, OrdMap.values]

section

variable (hπ : ∀ x ∈ vars, ∀ y ∈ vars, π x = π y → x = y)

include hπ

theorem get?_rename (hS : ∀ x ∈ S.keys, x ∈ vars) {x : String} (hx : x ∈ vars) :
    (S.rename π).get? (π x) = S.get? x := by
  obtain ⟨es⟩ := S
  rw [rename, OrdMap.get?, OrdMap.get?]
  induction es with
  | nil => rfl
  | cons e es ih =>
    have he : e.1 ∈ vars := hS e.1 (by simp [OrdMap.keys])
    have hes := ih fun y hy ↦ hS y (by simp [OrdMap.keys] at hy ⊢; exact .inr hy)
    rw [List.map_cons, OrdMap.lookup, OrdMap.lookup]
    by_cases h : e.1 = x
    · rw [if_pos h, if_pos (congrArg π h)]
    · rw [if_neg h, if_neg fun h' ↦ h (hπ _ he _ hx h')]
      exact hes

theorem on_rename (hS : S.Among vars G) {x : String} (hx : x ∈ vars) :
    (S.rename π).on (π x) = S.on x := by
  rw [ConstraintSet.on, ConstraintSet.on, get?_rename hπ (fun _ ↦ hS.mem_vars) hx]

theorem names_rename (hS : S.Among vars G) (hT : T.Among vars G) :
    names (S.rename π) (T.rename π) = (names S T).map π := by
  rw [names, names, keys_rename, keys_rename, List.map_append, List.filter_map]
  congr 2
  refine List.filter_congr fun x hx ↦ ?_
  rw [Function.comp_apply, OrdMap.contains, OrdMap.contains,
    get?_rename hπ (fun _ ↦ hS.mem_vars) (hT.mem_vars hx)]

omit hπ in
theorem mapM_rename {g g' : String → Option Constraint} {l : List String}
    (h : ∀ x ∈ l, g' (π x) = g x) :
    ((l.map π).mapM fun x ↦ (g' x).map (x, ·)) =
      (l.mapM fun x ↦ (g x).map (x, ·)).map (List.map fun e ↦ (π e.1, e.2)) := by
  induction l with
  | nil => rfl
  | cons x l ih =>
    rw [List.forall_mem_cons] at h
    rw [List.map_cons, List.mapM_cons, List.mapM_cons, ih h.2, h.1]
    cases g x with
    | none => rfl
    | some c => cases l.mapM fun x ↦ (g x).map (x, ·) <;> rfl

/-- The meet of renamed sets is the renamed meet. -/
theorem meet_rename (hS : S.Among vars G) (hT : T.Among vars G) :
    (S.rename π).meet (T.rename π) = (S.meet T).map (rename π) := by
  have hnames : ∀ x ∈ names S T, x ∈ vars := fun x hx ↦
    (mem_names.1 hx).elim hS.mem_vars hT.mem_vars
  rw [meet, meet, names_rename hπ hS hT, mapM_rename (g := fun x ↦ (S.on x).meet (T.on x))
    fun x hx ↦ by rw [on_rename hπ hS (hnames x hx), on_rename hπ hT (hnames x hx)]]
  rw [Option.map_map, Option.map_map]
  rfl

/-! ## Two runs -/

/-- `o'` is `o` with the keys renamed by `π`, and the bounds of `o` are from `G`. -/
structure Follows (vars : List String) (G : Ty → Prop) (π : String → String)
    (o o' : Option ConstraintSet) : Prop where
  eq : o' = o.map (rename π)
  among : ∀ S, o = some S → S.Among vars G

/-- As `Follows`, for lists of sets. -/
structure FollowsAll (vars : List String) (G : Ty → Prop) (π : String → String)
    (o o' : Option (List ConstraintSet)) : Prop where
  eq : o' = o.map (List.map (rename π))
  among : ∀ Ss, o = some Ss → ∀ S ∈ Ss, S.Among vars G

variable {o o' p p' : Option ConstraintSet} {q q' : Option (List ConstraintSet)}

theorem Follows.meet (hG : Supply vars G) (h : Follows vars G π o o') (h' : Follows vars G π p p') :
    Follows vars G π (do ConstraintSet.meet (← o) (← p)) (do ConstraintSet.meet (← o') (← p')) := by
  cases o with
  | none => exact ⟨by rw [h.eq]; rfl, nofun⟩
  | some S =>
    cases p with
    | none => exact ⟨by rw [h.eq, h'.eq]; rfl, nofun⟩
    | some T =>
      refine ⟨?_, fun V hV ↦ (h.among S rfl).meet hG (h'.among T rfl) hV⟩
      rw [h.eq, h'.eq]
      exact meet_rename hπ (h.among S rfl) (h'.among T rfl)

omit hπ in
theorem FollowsAll.cons (h : Follows vars G π o o') (h' : FollowsAll vars G π q q') :
    FollowsAll vars G π (do return (← o) :: (← q)) (do return (← o') :: (← q')) := by
  cases o with
  | none => exact ⟨by rw [h.eq]; rfl, nofun⟩
  | some S =>
    cases q with
    | none => exact ⟨by rw [h.eq, h'.eq]; rfl, nofun⟩
    | some Ss =>
      refine ⟨by rw [h.eq, h'.eq]; rfl, fun _ hSs ↦ ?_⟩
      cases hSs
      exact List.forall_mem_cons.2 ⟨h.among S rfl, h'.among Ss rfl⟩

omit hπ in
theorem followsAll_mapM {α : Type} {f g : α → Option ConstraintSet} {l : List α}
    (h : ∀ a ∈ l, Follows vars G π (f a) (g a)) : FollowsAll vars G π (l.mapM f) (l.mapM g) := by
  induction l with
  | nil => exact ⟨rfl, fun _ h ↦ by cases h; exact nofun⟩
  | cons a l ih =>
    rw [List.forall_mem_cons] at h
    rw [List.mapM_cons, List.mapM_cons]
    exact .cons h.1 (ih h.2)

theorem FollowsAll.meetAll (hG : Supply vars G) (h : FollowsAll vars G π q q') :
    Follows vars G π (do ConstraintSet.meetAll (← q)) (do ConstraintSet.meetAll (← q')) := by
  cases q with
  | none => exact ⟨by rw [h.eq]; rfl, nofun⟩
  | some Ss =>
    have hSs := h.among Ss rfl
    rw [h.eq]
    clear h
    -- The meet is folded over the sets; `T` and `T'` are what was met so far.
    have hfold : ∀ T T' : Option ConstraintSet, Follows vars G π T T' →
        Follows vars G π (Ss.foldl (fun acc S ↦ acc.bind (ConstraintSet.meet · S)) T)
          ((Ss.map (rename π)).foldl (fun acc S ↦ acc.bind (ConstraintSet.meet · S)) T') := by
      induction Ss with
      | nil => exact fun _ _ ↦ id
      | cons S Ss ih =>
        intro T T' hT
        rw [List.forall_mem_cons] at hSs
        have hS : Follows vars G π (some S) (some (S.rename π)) :=
          ⟨rfl, fun _ h ↦ Option.some.inj h ▸ hSs.1⟩
        exact ih hSs.2 _ _ (hT.meet hπ hG hS)
    exact hfold (some ∅) (some ∅) ⟨rfl, fun _ h ↦ by cases h; exact among_empty⟩

theorem FollowsAll.meetConcat (hG : Supply vars G) (h : FollowsAll vars G π q q')
    (h' : Follows vars G π o o') :
    Follows vars G π (do let sets ← q; let last ← o; ConstraintSet.meetAll (sets ++ [last]))
      (do let sets ← q'; let last ← o'; ConstraintSet.meetAll (sets ++ [last])) := by
  cases q with
  | none => exact ⟨by rw [h.eq]; rfl, nofun⟩
  | some Ss =>
    cases o with
    | none => exact ⟨by rw [h.eq, h'.eq]; rfl, nofun⟩
    | some S =>
      have hall : FollowsAll vars G π (some (Ss ++ [S]))
          (some (Ss.map (rename π) ++ [S.rename π])) := by
        refine ⟨by simp, fun _ hSs ↦ ?_⟩
        cases hSs
        rw [List.forall_mem_append, List.forall_mem_singleton]
        exact ⟨h.among Ss rfl, h'.among S rfl⟩
      rw [h.eq, h'.eq]
      exact hall.meetAll hπ hG

end

/-! ## Generation -/

end ConstraintSet

/-- A type that mentions neither `xs` nor `ys`. -/
def Apart (xs ys : List String) (t : Ty) : Prop := ∀ x ∈ t.freeVars, x ∉ xs ∧ x ∉ ys

theorem supply_apart (h : ∀ x ∈ vars, x ∈ xs ∨ x ∈ ys) : Supply vars (Apart xs ys) where
  notMem ht x hx hmem := (h x hmem).elim (ht x hx).1 (ht x hx).2
  never := by simp [Apart, Ty.never]
  any := by simp [Apart, Ty.any]
  bound b _ _ hs ht x hx := (mem_freeVars_bound hx).elim (hs x) (ht x)
  param ht hp x hx := ht x (mem_freeVars_of_mem_params hp hx)

theorem Apart.subst_eq (ht : Apart xs ys t) : t.subst (relabel xs ys) = t :=
  subst_eq_self fun x hx ↦ by rw [get?_relabel, lookup_zip_of_notMem (ht x hx).1, Option.map_none]

namespace ConstraintSet

/-- `generate` for `s` and `t` after `relabel xs ys` follows `generate` for `s` and `t`. -/
def Tracks (xs ys : List String) (s t : Ty) : Prop :=
  Follows xs (Apart xs ys) (newName xs ys) (generate xs [] s t)
    (generate ys [] (s.subst (relabel xs ys)) (t.subst (relabel xs ys)))

section

variable (hlen : xs.length = ys.length) (hys : ys.Nodup)

include hlen hys

theorem generateParams_relabel {vs : List Variance} {ps qs : List Ty}
    (ih : ∀ p ∈ ps, ∀ q ∈ qs, Tracks xs ys p q ∧ Tracks xs ys q p) :
    FollowsAll xs (Apart xs ys) (newName xs ys) (generateParams xs [] vs ps qs)
      (generateParams ys [] vs (ps.map (subst (relabel xs ys)))
        (qs.map (subst (relabel xs ys)))) := by
  have hπ : ∀ x ∈ xs, ∀ y ∈ xs, newName xs ys x = newName xs ys y → x = y :=
    fun _ hx _ hy ↦ newName_inj hlen hys hx hy
  have hG : Supply xs (Apart xs ys) := supply_apart fun _ ↦ .inl
  rw [generateParams_eq_mapM, generateParams_eq_mapM, List.zip_map, List.zip_map_right,
    List.mapM_map]
  refine followsAll_mapM ?_
  rintro ⟨v, p, q⟩ hr
  obtain ⟨hp, hq⟩ := List.of_mem_zip (List.of_mem_zip hr).2
  obtain ⟨hpq, hqp⟩ := ih p hp q hq
  cases v with
  | covariant => exact hpq
  | contravariant => exact hqp
  | invariant => exact hpq.meet hπ hG hqp

theorem generateSpread_relabel {ps qs : List Ty}
    (ih : ∀ p ∈ ps, ∀ q ∈ qs, Tracks xs ys p q ∧ Tracks xs ys q p) :
    FollowsAll xs (Apart xs ys) (newName xs ys) (generateSpread xs [] ps qs)
      (generateSpread ys [] (ps.map (subst (relabel xs ys))) (qs.map (subst (relabel xs ys)))) := by
  rw [generateSpread_eq_generateParams, generateSpread_eq_generateParams, List.length_map,
    map_stretch]
  exact generateParams_relabel hlen hys fun p hp ↦ ih p (mem_of_mem_stretch hp)

omit hlen hys in
theorem follows_none : Follows xs (Apart xs ys) (newName xs ys) none none := ⟨rfl, nofun⟩

omit hlen hys in
theorem static_relabel (ht : t.Static) : (t.subst (relabel xs ys)).Static :=
  Built.subst ht fun x u hu ↦ by
    rw [get?_relabel] at hu
    obtain ⟨y, -, rfl⟩ := Option.map_eq_some_iff.1 hu
    exact built_var.2 nofun

/-- **Generation does not depend on the names.**  For static types without quantifiers that avoid
`ys`, one of which is `Apart xs ys`, the same constraints are found under the new names as under the
old ones. -/
theorem tracks {s t : Ty} (hs : Avoids ys s) (ht : Avoids ys t) (hstatic : s.Static)
    (hstatic' : t.Static) (hside : Apart xs ys s ∨ Apart xs ys t) : Tracks xs ys s t := by
  have hπ : ∀ x ∈ xs, ∀ y ∈ xs, newName xs ys x = newName xs ys y → x = y :=
    fun _ hx _ hy ↦ newName_inj hlen hys hx hy
  have hG : Supply xs (Apart xs ys) := supply_apart fun _ ↦ .inl
  have hneg : ∀ {s t : Ty}, s.Static → t.Static → ¬ (s.isUntyped || t.isUntyped) = true :=
    fun hs ht ↦ by simp [hs.not_isUntyped, ht.not_isUntyped]
  unfold Tracks generate
  rw [if_neg (hneg hstatic hstatic'),
    if_neg (hneg (static_relabel hstatic) (static_relabel hstatic')),
    isSubtype_relabel hlen hys hs ht, varAmong?_relabel hlen hys hs, varAmong?_relabel hlen hys ht]
  by_cases hsub : s.isSubtype t = true
  · rw [if_pos hsub, if_pos hsub]
    exact ⟨rfl, fun _ h ↦ by cases h; exact among_empty⟩
  rw [if_neg hsub, if_neg hsub]
  cases hleft : varAmong? xs s with
  | some name =>
    obtain ⟨rfl, hmem⟩ := varAmong?_eq_some hleft
    have ht' := hside.resolve_left fun hs ↦ hG.notMem hs name (by simp) hmem
    simp only [Option.map_some, eliminateDown, eliminate_eq_self, List.not_mem_nil,
      not_false_eq_true,
      implies_true, ht'.subst_eq]
    exact ⟨rfl, fun _ h ↦ by cases h; exact among_single hmem ⟨hG.never, ht'⟩⟩
  | none =>
    cases hright : varAmong? xs t with
    | some name =>
      obtain ⟨rfl, hmem⟩ := varAmong?_eq_some hright
      have hs' := hside.resolve_right fun ht ↦ hG.notMem ht name (by simp) hmem
      simp only [Option.map_some, Option.map_none, eliminateUp, eliminate_eq_self, List.not_mem_nil,
        not_false_eq_true, implies_true, hs'.subst_eq]
      exact ⟨rfl, fun _ h ↦ by cases h; exact among_single hmem ⟨hs', hG.any⟩⟩
    | none =>
      have hparams : ∀ p ∈ s.params, ∀ q ∈ t.params, Tracks xs ys p q ∧ Tracks xs ys q p := by
        intro p hp q hq
        have hside' := hside.imp (hG.param · hp) (hG.param · hq)
        exact ⟨tracks (hs.of_mem_params hp) (ht.of_mem_params hq) (hstatic.of_mem_params hp)
          (hstatic'.of_mem_params hq) hside', tracks (ht.of_mem_params hq) (hs.of_mem_params hp)
          (hstatic'.of_mem_params hq) (hstatic.of_mem_params hp) hside'.symm⟩
      simp only [Option.map_none]
      cases s with
      | var name =>
        rw [subst_var_relabel]
        exact follows_none
      | unknown id => exact follows_none
      | all => exact absurd rfl (built_all.1 hs.quantifierFree).1
      | variadic min max ps =>
        cases t with
        | con tag qs =>
          simp only [subst_variadic, subst_con, List.length_map]
          by_cases htag : tag = "Function"
          · rw [if_pos htag, if_pos htag]
            by_cases hne : ps ≠ [] ∧ qs ≠ []
            · rw [dif_pos hne, dif_pos (by simpa using hne)]
              simp only [arguments_map, List.isEmpty_map, List.length_map, accepts_map,
                List.getLast_map]
              split
              · refine (generateSpread_relabel hlen hys fun p hp q hq ↦ hparams p
                  (List.dropLast_subset ps hp) q (List.dropLast_subset qs hq)).meetConcat hπ hG ?_
                exact (hparams _ (List.getLast_mem hne.1) _ (List.getLast_mem hne.2)).1
              · exact follows_none
            · rw [dif_neg hne, dif_neg (by simpa using hne)]
              exact follows_none
          · rw [if_neg htag, if_neg htag]
            split
            · exact (generateParams_relabel hlen hys hparams).meetAll hπ hG
            · exact follows_none
        | var name =>
          rw [subst_var_relabel]
          exact follows_none
        | _ => exact follows_none
      | con tag ps =>
        cases t with
        | con tag' qs =>
          simp only [subst_con, List.length_map]
          split
          · exact (generateParams_relabel hlen hys hparams).meetAll hπ hG
          · exact follows_none
        | var name =>
          rw [subst_var_relabel]
          exact follows_none
        | _ => exact follows_none
termination_by sizeOf s + sizeOf t
decreasing_by
  all_goals
    have := sizeOf_lt_of_mem_params hp
    have := sizeOf_lt_of_mem_params hq
    omega

/-! ## Solutions -/

omit hlen hys in
theorem isSome_minimal_rename (π : String → String) (S : ConstraintSet) (goal goal' : Ty) :
    ((S.rename π).minimal goal').isSome = (S.minimal goal).isSome := by
  rw [isSome_minimal, isSome_minimal, isSatisfiable, isSatisfiable, values_rename]

omit hlen hys in
theorem minimal_rename_eq_none (π : String → String) {S : ConstraintSet} {goal goal' : Ty}
    (h : S.minimal goal = none) : (S.rename π).minimal goal' = none := by
  rw [← Option.not_isSome_iff_eq_none, isSome_minimal_rename π S goal, h]
  exact Bool.false_ne_true

/-- `minimal` chooses the same types under the new names, and makes the same type of the goal. -/
theorem minimal_relabel {goal : Ty} {σ : Subst} {S : ConstraintSet} (hgoal : Avoids ys goal)
    (hS : S.Among xs (Apart xs ys)) (h : S.minimal goal = some σ) :
    ∃ σ', (S.rename (newName xs ys)).minimal (goal.subst (relabel xs ys)) = some σ' ∧
      (goal.subst (relabel xs ys)).subst (σ'.filterKeys ys.contains) =
        goal.subst (σ.filterKeys xs.contains) := by
  obtain ⟨σ', hσ'⟩ :
      ∃ σ', (S.rename (newName xs ys)).minimal (goal.subst (relabel xs ys)) = some σ' := by
    rw [← Option.isSome_iff_exists, isSome_minimal_rename _ S goal, h, Option.isSome_some]
  refine ⟨σ', hσ', hgoal.quantifierFree.subst_subst fun x hx ↦ ?_⟩
  have hx' := hgoal.notMem x hx
  rw [subst_var_relabel, subst_var, subst_var, get?_minimal ys hσ', get?_minimal xs h]
  by_cases hmem : x ∈ xs
  · have hfree := (mem_freeVars_relabel hlen hys hgoal hmem).2 hx
    rw [if_pos (newName_mem hlen hys hmem), if_pos hmem, if_pos hfree, if_pos hx,
      usage_relabel hlen hys hgoal hmem,
      get?_rename (fun _ hx _ hy ↦ newName_inj hlen hys hx hy) (fun _ ↦ hS.mem_vars) hmem]
    cases S.get? x <;> rfl
  · rw [newName_of_notMem hmem, if_neg hmem, if_neg hx']

/-- `eliminateUp` leaves the goal alone under the old names and under the new ones. -/
theorem eliminateUp_relabel {goal : Ty} {σ : Subst} {S : ConstraintSet} (hgoal : Avoids ys goal)
    (hS : S.Among xs (Apart xs ys)) (h : S.minimal goal = some σ) :
    ∃ σ', (S.rename (newName xs ys)).minimal (goal.subst (relabel xs ys)) = some σ' ∧
      ((goal.subst (relabel xs ys)).subst (σ'.filterKeys ys.contains)).eliminateUp ys =
        (goal.subst (σ.filterKeys xs.contains)).eliminateUp xs := by
  obtain ⟨σ', hσ', hsubst⟩ := minimal_relabel hlen hys hgoal hS h
  obtain ⟨hchoice, -, hgone⟩ := minimal_sound (supply_apart fun _ ↦ .inl) hS h
  have hgone' : ∀ x ∈ (goal.subst (σ.filterKeys xs.contains)).freeVars, x ∉ ys := by
    intro x hx
    rcases mem_freeVars_subst hx with ⟨hx, -⟩ | ⟨name, -, u, hu, hx⟩
    · exact hgoal.notMem x hx
    · exact ((hchoice name u hu).2 x hx).2
  refine ⟨σ', hσ', ?_⟩
  rw [hsubst, eliminateUp, eliminateUp, eliminate_eq_self hgone, eliminate_eq_self hgone']

omit hlen hys in
/-- `ofArguments` gives the renamed sets under the new names. -/
theorem ofArguments_relabel {qs : List (Ty × Ty)} (i : Nat)
    (hqs : ∀ q ∈ qs, Tracks xs ys q.1 q.2 ∧ Apart xs ys q.1) :
    (∀ Ss, ofArguments xs i qs = .ok Ss → ∀ S ∈ Ss, S.Among xs (Apart xs ys)) ∧
    ofArguments ys i (qs.map fun q ↦ (q.1, q.2.subst (relabel xs ys))) =
      ((ofArguments xs i qs).map (List.map (rename (newName xs ys)))).mapError
        fun e ↦ (e.1, e.2.subst (relabel xs ys)) := by
  induction qs generalizing i with
  | nil =>
    refine ⟨fun Ss h ↦ ?_, rfl⟩
    cases h
    exact List.forall_mem_nil _
  | cons q qs ih =>
    obtain ⟨a, p⟩ := q
    rw [List.forall_mem_cons] at hqs
    obtain ⟨⟨htracks, ha⟩, hrest⟩ := hqs
    obtain ⟨hamong, heq⟩ := ih (i + 1) hrest
    have hgen := htracks.eq
    rw [ha.subst_eq] at hgen
    rw [List.map_cons, ofArguments, ofArguments, hgen, heq]
    cases hS : generate xs [] a p with
    | none => exact ⟨fun Ss h ↦ (by cases h), rfl⟩
    | some S =>
      cases hSs : ofArguments xs (i + 1) qs with
      | error e => exact ⟨fun Ss h ↦ (by cases h), rfl⟩
      | ok Ss =>
        refine ⟨fun _ h ↦ ?_, rfl⟩
        cases h
        exact List.forall_mem_cons.2 ⟨htracks.among S hS, hamong Ss hSs⟩

/-- `meetAll` of the renamed sets follows `meetAll` of the sets. -/
theorem follows_meetAll {Ss : List ConstraintSet} (hSs : ∀ S ∈ Ss, S.Among xs (Apart xs ys)) :
    Follows xs (Apart xs ys) (newName xs ys) (meetAll Ss)
      (meetAll (Ss.map (rename (newName xs ys)))) := by
  have hall : FollowsAll xs (Apart xs ys) (newName xs ys) (some Ss)
      (some (Ss.map (rename (newName xs ys)))) := ⟨rfl, fun _ h ↦ Option.some.inj h ▸ hSs⟩
  exact hall.meetAll (fun _ hx _ hy ↦ newName_inj hlen hys hx hy) (supply_apart fun _ ↦ .inl)

end

end ConstraintSet

/-! ## Calls -/

/-- The outcome with `f` applied to the type of the parameter in a `badArgument`. -/
def CallOutcome.mapExpected (f : Ty → Ty) : CallOutcome → CallOutcome
  | .badArgument i expected => .badArgument i (f expected)
  | outcome => outcome

/-- **The names of quantified variables do not matter**, as long as the arguments do not mention
them. Let the types of arguments and parameters be static, let all types have no quantifiers, and
let the new names `ys` be distinct and occur nowhere.  If the arguments do not mention the old names
`xs` either, then `callResult` has the same outcome under the new names: the same type, no
assignment, or the same argument that is not accepted. -/
theorem callResult_rename {args params : List Ty} {result : Ty} (hlen : xs.length = ys.length)
    (hys : ys.Nodup)
    (hargs : ∀ a ∈ args, a.Static ∧ a.QuantifierFree ∧ ∀ x ∈ a.freeVars, x ∉ xs ∧ x ∉ ys)
    (hparams : ∀ p ∈ params, p.Static ∧ p.QuantifierFree ∧ ∀ y ∈ p.freeVars, y ∉ ys)
    (hresult : result.QuantifierFree ∧ ∀ y ∈ result.freeVars, y ∉ ys) :
    callResult ys args (params.map (subst (relabel xs ys))) (result.subst (relabel xs ys)) =
      (callResult xs args params result).mapExpected (subst (relabel xs ys)) := by
  have hgoal : Avoids ys result := ⟨hresult.1, hresult.2⟩
  have hzip : ∀ q ∈ args.zip params, ConstraintSet.Tracks xs ys q.1 q.2 ∧ Apart xs ys q.1 := by
    intro q hq
    obtain ⟨ha, hp⟩ := List.of_mem_zip hq
    obtain ⟨hstatic, hfree, hapart⟩ := hargs _ ha
    obtain ⟨hstatic', hfree', havoid⟩ := hparams _ hp
    exact ⟨ConstraintSet.tracks hlen hys ⟨hfree, fun y hy ↦ (hapart y hy).2⟩
      ⟨hfree', havoid⟩ hstatic
      hstatic' (.inl hapart), hapart⟩
  obtain ⟨hamong, heq⟩ := ConstraintSet.ofArguments_relabel 0 hzip
  have hmap : args.zip (params.map (subst (relabel xs ys))) =
      (args.zip params).map fun q ↦ (q.1, q.2.subst (relabel xs ys)) := List.zip_map_right ..
  rw [callResult, callResult, hmap, heq]
  cases hSs : ConstraintSet.ofArguments xs 0 (args.zip params) with
  | error e => rfl
  | ok Ss =>
    have hmeet := ConstraintSet.follows_meetAll hlen hys (hamong Ss hSs)
    simp only [Except.map, Except.mapError, hmeet.eq]
    cases hS : ConstraintSet.meetAll Ss with
    | none => rfl
    | some S =>
      simp only [Option.map_some, Option.bind_some]
      cases hσ : S.minimal result with
      | none =>
        rw [ConstraintSet.minimal_rename_eq_none _ hσ]
        rfl
      | some σ =>
        obtain ⟨σ', hσ', hresult'⟩ :=
          ConstraintSet.eliminateUp_relabel hlen hys hgoal (hmeet.among S hS) hσ
        simp only [hσ', hresult']
        rfl

/-- The types mention a variable of the context, and one of the quantified variables is bounded from
both sides. -/
theorem callResult_rename_function :
    callResult ["a", "b"] [function [number, .var "c"], list integer]
        [function [.var "a", .var "b"], list (.var "a")] (function [.var "a", list (.var "b")]) =
      .result (function [number, list (.var "c")]) ∧
    callResult ["u", "v"] [function [number, .var "c"], list integer]
        ([function [.var "a", .var "b"], list (.var "a")].map
          (subst (relabel ["a", "b"] ["u", "v"])))
        ((function [.var "a", list (.var "b")]).subst (relabel ["a", "b"] ["u", "v"])) =
      .result (function [number, list (.var "c")]) := by
  have hrun : callResult ["a", "b"] [function [number, .var "c"], list integer]
      [function [.var "a", .var "b"], list (.var "a")] (function [.var "a", list (.var "b")]) =
      .result (function [number, list (.var "c")]) := by decide +kernel
  refine ⟨hrun, (callResult_rename (by decide) (by decide) (by decide +kernel) (by decide +kernel)
    (by decide +kernel)).trans ?_⟩
  rw [hrun]
  rfl

/-- **A variable of the context is taken for a quantified one of the same name.**
`(All (a) (Function a a))` applied to an argument of type `a` has type `never`; under any other name
it has the type of the argument. -/
theorem callResult_captures :
    callResult ["a"] [.var "a"] [.var "a"] (.var "a") = .result never ∧
    callResult ["b"] [.var "a"] [(Ty.var "a").subst (relabel ["a"] ["b"])]
      ((Ty.var "a").subst (relabel ["a"] ["b"])) = .result (.var "a") := by
  constructor <;> decide +kernel

end SchemeTyping
