import SchemeTyping.Inference.Unify
import SchemeTyping.Proofs.Inference.Acyclic

/-!
# The solutions of a store

A store stands for equations between unknowns and types.  `Solves store θ` says that `θ`, a type for
every unknown, satisfies them.  Unification accepts an integer for a number and ignores the bounds
of variadic functions, so the equations are between the *cores* of types, in which these differences
are gone.

## What is here

* `Solves.fill_apply`, `Solves.fill_resolve` — `apply` and `resolve` do not change what a solution
  makes of a type.
* `solves_solution` — an acyclic store has a most general solution, through which all others factor.
* `acyclic_solveAnew`, `solves_of_solveAnew` — a class can get another solution without an occurs
  check, if the most general solution already agrees with it.  Around a cycle the sizes in the most
  general solution would have to decrease, unless all values on it are unknowns, and then the cycle
  was there before.
* `acyclic_bind`, `acyclic_merge`, `solves_of_bind` — the same for an unknown that gets its first
  solution, and for two unknowns that are put in one class.
-/

set_option autoImplicit false

namespace SchemeTyping

namespace Ty

/-- The tag of a constructor, with `Integer` for `Number`. -/
def coreTag (tag : String) (arity : Nat) : String :=
  if tag = "Number" ∧ arity = 0 then "Integer" else tag

mutual

/-- The type without the differences that unification ignores. -/
def core : Ty → Ty
  | .var name => .var name
  | .unknown id => .unknown id
  | .con tag ps => .con (coreTag tag ps.length) (coreList ps)
  | .variadic _ _ ps => .variadic none none (coreList ps)
  | .all bound body => .all bound body.core

/-- As `core`, for the types of a list. -/
def coreList : List Ty → List Ty
  | [] => []
  | t :: ts => t.core :: coreList ts

end

theorem coreList_eq_map (ps : List Ty) : coreList ps = ps.map core := by
  induction ps with
  | nil => rfl
  | cons t ps ih => rw [coreList, ih, List.map_cons]

variable {name id tag : String} {ps : List Ty} {min max : Option Int} {bound : List String}
  {body t : Ty}

@[simp] theorem core_var : (var name).core = var name := rfl

@[simp] theorem core_unknown : (unknown id).core = unknown id := rfl

@[simp] theorem core_con : (con tag ps).core = con (coreTag tag ps.length) (ps.map core) := by
  rw [core, coreList_eq_map]

@[simp] theorem core_variadic : (variadic min max ps).core = variadic none none (ps.map core) := by
  rw [core, coreList_eq_map]

@[simp] theorem core_all : (all bound body).core = all bound body.core := rfl

theorem core_eq_unknown_iff : t.core = unknown id ↔ t = unknown id := by
  cases t <;> simp

theorem core_fill (f : String → Ty) (t : Ty) :
    (t.fill f).core = t.core.fill fun id ↦ (f id).core := by
  induction t with
  | var => rfl
  | unknown => rfl
  | con tag ps ih =>
    simp only [fill_con, core_con, List.length_map, List.map_map]
    congr 1
    exact List.map_congr_left ih
  | variadic min max ps ih =>
    simp only [fill_variadic, core_variadic, List.map_map]
    congr 1
    exact List.map_congr_left ih
  | all bound body ih => simp only [fill_all, core_all, ih]

theorem unknowns_core (t : Ty) : t.core.unknowns = t.unknowns := by
  induction t with
  | var => rfl
  | unknown => rfl
  | con tag ps ih =>
    simp only [core_con, unknowns_con, List.flatMap_def, List.map_map]
    congr 1
    exact List.map_congr_left ih
  | variadic min max ps ih =>
    simp only [core_variadic, unknowns_variadic, List.flatMap_def, List.map_map]
    congr 1
    exact List.map_congr_left ih
  | all bound body ih => exact ih

end Ty

/-! ## Properties that replacing unknowns preserves -/

/-- A property of types that parameters and unknowns inherit, and that types have if their
parameters or the types for their unknowns do. -/
structure Hereditary (P : Ty → Prop) : Prop where
  unknown : ∀ {t}, P t → ∀ id ∈ t.unknowns, P (.unknown id)
  params : ∀ {t}, P t → ∀ q ∈ t.params, P q
  withParams : ∀ {t ps}, P t → ps.length = t.params.length → (∀ q ∈ ps, P q) →
    P (Infer.withParams ps t)
  fill : ∀ {t θ}, P t → (∀ id ∈ t.unknowns, P (θ id)) → P (t.fill θ)

theorem hereditary_true : Hereditary fun _ ↦ True where
  unknown _ _ _ := trivial
  params _ _ _ := trivial
  withParams _ _ _ := trivial
  fill _ _ := trivial

theorem hereditary_built (p : Ty.Node → Prop) : Hereditary (Ty.Built p) where
  unknown h _ := h.unknown
  params h _ := h.of_mem_params
  withParams {t _} h hlen hps := by
    cases t with
    | con tag qs => exact Ty.built_con.2 ⟨hlen ▸ (Ty.built_con.1 h).1, hps⟩
    | variadic min max qs => exact Ty.built_variadic.2 ⟨hlen ▸ (Ty.built_variadic.1 h).1, hps⟩
    | _ => exact h
  fill h := (h.mono fun _ ↦ .inr).fill

namespace Store

open Relation

variable {store store' : Store} {θ : String → Ty} {a b id id' : String} {t u : Ty}
  {C : String → Prop}

/-- `θ` makes every unknown equal to the value of its class, up to `core`. -/
def Solves (store : Store) (θ : String → Ty) : Prop :=
  ∀ k t, store.value? k = some t → θ k = t.core.fill θ

theorem Solves.next? (h : store.Solves θ) (ht : store.next? id = some t) : θ id = t.core.fill θ :=
  h id t (next?_eq_some_iff.1 ht).1

theorem Solves.fill_applyWithin (h : store.Solves θ) :
    ∀ (n : Nat) (t : Ty), (applyWithin store n t).core.fill θ = t.core.fill θ
  | 0, _ => rfl
  | n + 1, t => by
    rw [applyWithin, Ty.core_fill, Ty.fill_fill]
    refine Ty.fill_congr fun id _ ↦ ?_
    cases hnext : Store.next? store id with
    | none => rfl
    | some s => exact (h.fill_applyWithin n s).trans (h.next? hnext).symm

/-- `apply` does not change what a solution makes of a type. -/
theorem Solves.fill_apply (h : store.Solves θ) (t : Ty) :
    (store.apply t).core.fill θ = t.core.fill θ :=
  h.fill_applyWithin _ t

/-- A property of `t` that passes from an unknown to its solution holds of `store.resolve t`. -/
theorem resolve_induction {P : Ty → Prop} (ht : P t)
    (hnext : ∀ id s, store.next? id = some s → P (.unknown id) → P s) : P (store.resolve t) := by
  rw [resolve]
  generalize store.size + 1 = n
  induction n generalizing t with
  | zero => exact ht
  | succ n ih =>
    cases t with
    | unknown id =>
      rw [resolveWithin]
      cases h : store.next? id with
      | none => exact ht
      | some s => exact ih (hnext id s h ht)
    | _ => exact ht

/-- `resolve` does not change what a solution makes of a type. -/
theorem Solves.fill_resolve (h : store.Solves θ) (t : Ty) :
    (store.resolve t).core.fill θ = t.core.fill θ :=
  resolve_induction (P := fun u ↦ u.core.fill θ = t.core.fill θ) rfl fun _ _ hnext hid ↦
    (h.next? hnext).symm.trans hid

/-! ## Fragments -/

variable {P : Ty → Prop} {p : Ty.Node → Prop}

/-- All values of the store have the property `P`. -/
def All (P : Ty → Prop) (store : Store) : Prop := ∀ k t, store.value? k = some t → P t

theorem All.next? (h : store.All P) (ht : store.next? id = some t) : P t :=
  h id t (next?_eq_some_iff.1 ht).1

theorem All.applyWithin (hP : Hereditary P) (h : store.All P) :
    ∀ (n : Nat) {t : Ty}, P t → P (Store.applyWithin store n t)
  | 0, _, ht => ht
  | n + 1, t, ht => by
    rw [Store.applyWithin]
    refine hP.fill ht fun id hid ↦ ?_
    cases hnext : Store.next? store id with
    | none => exact hP.unknown ht id hid
    | some s => exact h.applyWithin hP n (h.next? hnext)

theorem All.apply (hP : Hereditary P) (h : store.All P) (ht : P t) : P (store.apply t) :=
  h.applyWithin hP _ ht

theorem All.resolve (h : store.All P) (ht : P t) : P (store.resolve t) :=
  resolve_induction ht fun _ _ hnext _ ↦ h.next? hnext

/-- All values of the store are built from `p`. -/
def Built (p : Ty.Node → Prop) (store : Store) : Prop := ∀ k t, store.value? k = some t → t.Built p

theorem Built.apply (h : store.Built p) (ht : t.Built p) : (store.apply t).Built p :=
  All.apply (hereditary_built p) h ht

theorem Built.resolve (h : store.Built p) (ht : t.Built p) : (store.resolve t).Built p :=
  All.resolve h ht

/-! ## The most general solution -/

/-- The most general solution of an acyclic store. -/
def solution (store : Store) (id : String) : Ty := (store.apply (.unknown id)).core

theorem core_apply (store : Store) (t : Ty) :
    (store.apply t).core = t.core.fill store.solution := by
  rw [apply_eq_fill, Ty.core_fill]
  rfl

theorem solution_of_none (h : store.next? id = none) : store.solution id = .unknown id := by
  rw [solution, apply_unknown_of_none h, Ty.core_unknown]

theorem solves_solution (hs : store.Acyclic) : store.Solves store.solution := by
  intro k t ht
  by_cases hk : t = .unknown k
  · rw [hk, Ty.core_unknown, Ty.fill_unknown]
  · rw [← core_apply, solution, apply_unknown hs (next?_eq_some_iff.2 ⟨ht, hk⟩)]

/-- Every solution factors through the most general one. -/
theorem Solves.eq_fill_solution (h : store.Solves θ) (id : String) :
    θ id = (store.solution id).fill θ :=
  (h.fill_apply (.unknown id)).symm

theorem next?_of_mem_unknowns_applyWithin : ∀ {n : Nat} {t : Ty}, settlesWithin store n t = true →
    b ∈ (applyWithin store n t).unknowns → store.next? b = none
  | 0, _, h, _ => by simp [settlesWithin] at h
  | n + 1, t, h, hb => by
    rw [applyWithin, Ty.mem_unknowns_fill] at hb
    obtain ⟨id, hid, hb⟩ := hb
    cases hnext : store.next? id with
    | none =>
      rw [hnext, Ty.unknowns_unknown, List.mem_singleton] at hb
      rw [hb, hnext]
    | some s =>
      rw [hnext] at hb
      exact next?_of_mem_unknowns_applyWithin (settlesWithin_iff.1 h id hid s hnext) hb

/-- The unknowns that are left in `store.apply t` have no solution. -/
theorem next?_of_mem_unknowns_apply (hs : store.Acyclic) (h : b ∈ (store.apply t).unknowns) :
    store.next? b = none :=
  next?_of_mem_unknowns_applyWithin (hs.settles t) h

/-! ## Another solution for a class -/

/-- A solution that satisfies the changed equations is one of the changed store. -/
theorem solves_of_changed (hsame : ∀ a, ¬ C a → store'.value? a = store.value? a)
    (hnew : ∀ a, C a → store'.value? a = some u) (hu : ∀ a, C a → θ a = u.core.fill θ)
    (hθ : store.Solves θ) : store'.Solves θ := by
  intro k t ht
  by_cases hk : C k
  · obtain rfl : u = t := Option.some.inj ((hnew k hk).symm.trans ht)
    exact hu k hk
  · exact hθ k t ((hsame k hk).symm.trans ht)

section solveAnew

variable (hsame : ∀ a, ¬ C a → store'.value? a = store.value? a)
  (hnew : ∀ a, C a → store'.value? a = some u) (hu : ∀ id, u ≠ .unknown id)
  (hsol : ∀ a, C a → store.solution a = u.core.fill store.solution)

include hsame hnew hsol

theorem solves_solution_of_solveAnew (hs : store.Acyclic) : store'.Solves store.solution :=
  solves_of_changed hsame hnew hsol (solves_solution hs)

include hu

/-- A cycle would consist of unknowns only, and so be there before. -/
theorem acyclic_solveAnew (hs : store.Acyclic) : store'.Acyclic := by
  have hθ := solves_solution_of_solveAnew hsame hnew hsol hs
  have hstep : ∀ {a b}, store'.Leads a b → (store.solution b).size < (store.solution a).size ∨
      (store.solution b).size = (store.solution a).size ∧ store.Leads a b := by
    rintro a b ⟨t, ht, hb⟩
    have ha := hθ.next? ht
    by_cases htb : t = .unknown b
    · have hC : ¬ C a := fun hC ↦
        hu b (Option.some.inj ((hnew a hC).symm.trans (htb ▸ (next?_eq_some_iff.1 ht).1)))
      refine .inr ⟨by rw [ha, htb]; rfl, t, ?_, hb⟩
      rw [next?_eq_some_iff] at ht ⊢
      exact ⟨(hsame a hC).symm.trans ht.1, ht.2⟩
    · refine .inl (ha ▸ Ty.size_lt_size_fill ?_ ?_)
      · rwa [Ty.unknowns_core]
      · rwa [Ne, Ty.core_eq_unknown_iff]
  have hpath : ∀ {a b}, TransGen store'.Leads a b →
      (store.solution b).size < (store.solution a).size ∨
        (store.solution b).size = (store.solution a).size ∧ TransGen store.Leads a b := by
    intro a b h
    induction h with
    | single h => exact (hstep h).imp_right fun h ↦ ⟨h.1, .single h.2⟩
    | tail _ h ih =>
      rcases hstep h with h | h <;> rcases ih with ih | ih
      · exact .inl (by omega)
      · exact .inl (by omega)
      · exact .inl (by omega)
      · exact .inr ⟨by omega, .tail ih.2 h.2⟩
  intro a h
  rcases hpath h with h | h
  · omega
  · exact hs a h.2

theorem solves_of_solveAnew (hs : store.Acyclic) (hθ : store'.Solves θ) : store.Solves θ := by
  have hs' := acyclic_solveAnew hsame hnew hu hsol hs
  have hsol' := solves_solution_of_solveAnew hsame hnew hsol hs
  -- Both stores leave the same unknowns open, so `θ` factors through the old solution, too.
  have hfactor : ∀ id, θ id = (store.solution id).fill θ := by
    intro id
    rw [hsol'.eq_fill_solution id, Ty.fill_fill, hθ.eq_fill_solution id]
    refine Ty.fill_congr fun b hb ↦ ?_
    rw [solution, Ty.unknowns_core] at hb
    have hb' := next?_of_mem_unknowns_apply hs' hb
    have hC : ¬ C b := by
      intro hC
      rcases next?_eq_none_iff.1 hb' with h | h
      · exact absurd ((hnew b hC).symm.trans h) (by simp)
      · exact hu b (Option.some.inj ((hnew b hC).symm.trans h))
    have hnone : store.next? b = none := by
      rw [next?_eq_none_iff] at hb' ⊢
      rwa [hsame b hC] at hb'
    rw [solution_of_none hnone, Ty.fill_unknown]
  intro k t ht
  rw [hfactor k, solves_solution hs k t ht, Ty.fill_fill]
  exact (Ty.fill_congr fun id _ ↦ (hfactor id).symm)

end solveAnew

/-! ## A first solution for a class -/

/-- A class whose unknowns had no solution gets one in which they do not occur. -/
theorem acyclic_bind (hs : store.Acyclic) (hsame : ∀ a, ¬ C a → store'.value? a = store.value? a)
    (hnew : ∀ a, C a → store'.value? a = some u)
    (hold : ∀ a, C a → store.value? a = some (.unknown id)) (hid : store.next? id = none)
    (hocc : id ∉ (store.apply u).unknowns) : store'.Acyclic := by
  refine hs.of_changed (C := C) ?_ ?_
  · rintro a ha b ⟨t, ht, hb⟩
    rw [next?_eq_some_iff, hsame a ha, ← next?_eq_some_iff] at ht
    exact ⟨t, ht, hb⟩
  · rintro a ha b ⟨t, ht, hb⟩ c hc hbc
    obtain rfl : u = t := Option.some.inj ((hnew a ha).symm.trans (next?_eq_some_iff.1 ht).1)
    have hbid : ReflTransGen store.Leads b id := by
      by_cases hcid : c = id
      · exact hcid ▸ hbc
      · refine hbc.tail ⟨.unknown id, next?_eq_some_iff.2 ⟨hold c hc, ?_⟩, by simp⟩
        exact fun h ↦ hcid (Ty.unknown.inj h).symm
    refine hocc ?_
    rw [apply_eq_fill, Ty.mem_unknowns_fill]
    exact ⟨b, hb, mem_unknowns_apply hs hbid hid⟩

/-- Two classes are merged, with one of their unknowns for the value. -/
theorem acyclic_merge (hs : store.Acyclic) (hsame : ∀ a, ¬ C a → store'.value? a = store.value? a)
    (hnew : ∀ a, C a → store'.value? a = some (.unknown id)) (hid : store.next? id = none) :
    store'.Acyclic := by
  refine hs.of_changed (C := fun a ↦ C a ∧ a ≠ id) ?_ ?_
  · rintro a ha b ⟨t, ht, hb⟩
    rw [next?_eq_some_iff] at ht
    by_cases hC : C a
    · have hta : t = .unknown id := Option.some.inj (ht.1.symm.trans (hnew a hC))
      have haid : a = id := not_not.1 fun h ↦ ha ⟨hC, h⟩
      exact absurd (haid ▸ hta) ht.2
    · exact ⟨t, next?_eq_some_iff.2 ⟨(hsame a hC).symm.trans ht.1, ht.2⟩, hb⟩
  · rintro a ⟨hC, -⟩ b ⟨t, ht, hb⟩ c ⟨-, hc⟩ hbc
    obtain rfl : t = .unknown id :=
      Option.some.inj ((next?_eq_some_iff.1 ht).1.symm.trans (hnew a hC))
    rw [Ty.unknowns_unknown, List.mem_singleton] at hb
    rcases ReflTransGen.cases_head hbc with h | ⟨d, ⟨s, hs, -⟩, -⟩
    · exact hc (h.symm.trans hb)
    · rw [hb, hid] at hs
      cases hs

/-- A solution of the changed store makes the unknowns of the class equal, as the store before
asks. -/
theorem solves_of_bind (hsame : ∀ a, ¬ C a → store'.value? a = store.value? a)
    (hnew : ∀ a, C a → store'.value? a = some u)
    (hold : ∀ a, C a → ∃ b, C b ∧ store.value? a = some (.unknown b)) (hθ : store'.Solves θ) :
    store.Solves θ := by
  intro k t ht
  by_cases hk : C k
  · obtain ⟨b, hb, hkb⟩ := hold k hk
    obtain rfl : t = .unknown b := Option.some.inj (ht.symm.trans hkb)
    rw [hθ k u (hnew k hk), Ty.core_unknown, Ty.fill_unknown, hθ b u (hnew b hb)]
  · exact hθ k t ((hsame k hk).trans ht)

end Store

end SchemeTyping
