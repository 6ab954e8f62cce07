import Mathlib.Data.Set.Function
import SchemeTyping.Proofs.Inference.Soundness
import SchemeTyping.Proofs.Inference.Unify.Complete

/-!
# Steps that follow a derivation

A derivation chooses monotypes where inference makes unknowns.  Inference follows it if some
solution of its store gives the unknowns just these types.

## What is here

* `Continues` — a later state, with a solution that extends the one before to the new unknowns.
* `Finds` — a step succeeds with a type that the extended solution makes equal to the given
  monotype.
* `Covers`, `EnvCovers` — the environment of inference need not be that of the derivation: its
  schemes may have more instances.
* `GeneralizedTo.covers` — whatever scheme the derivation makes of a monotype, generalisation makes
  one with all its instances of the type that was found.
-/

set_option autoImplicit false

namespace SchemeTyping

/-! ## Entries of two environments -/

namespace OrdMap

variable {κ α β : Type} [DecidableEq κ] {R : α → β → Prop} {es : List (κ × α)} {es' : List (κ × β)}

theorem exists_lookup_of_forall₂
    (h : List.Forall₂ (fun e e' ↦ e.1 = e'.1 ∧ R e.2 e'.2) es es') {k : κ}
    {b : β} (hk : lookup k es' = some b) : ∃ a, lookup k es = some a ∧ R a b := by
  induction h with
  | nil => cases hk
  | @cons e e' es es' he _ ih =>
    rw [lookup] at hk ⊢
    rw [he.1]
    split at hk
    · rename_i heq
      cases hk
      exact ⟨e.2, if_pos heq, he.2⟩
    · rename_i hne
      rw [if_neg hne]
      exact ih hk

theorem forall₂_put (h : List.Forall₂ (fun e e' ↦ e.1 = e'.1 ∧ R e.2 e'.2) es es') (k : κ) {a : α}
    {b : β} (hab : R a b) :
    List.Forall₂ (fun e e' ↦ e.1 = e'.1 ∧ R e.2 e'.2) (put k a es) (put k b es') := by
  induction h with
  | nil => exact .cons ⟨rfl, hab⟩ .nil
  | cons he hes ih =>
    rw [put, put, he.1]
    split
    · exact .cons ⟨rfl, hab⟩ hes
    · exact .cons he ih

theorem forall₂_insertAll {m : OrdMap κ α} {m' : OrdMap κ β}
    (h : List.Forall₂ (fun e e' ↦ e.1 = e'.1 ∧ R e.2 e'.2) m.entries m'.entries)
    (hes : List.Forall₂ (fun e e' ↦ e.1 = e'.1 ∧ R e.2 e'.2) es es') :
    List.Forall₂ (fun e e' ↦ e.1 = e'.1 ∧ R e.2 e'.2) (m.insertAll es).entries
      (m'.insertAll es').entries := by
  induction hes generalizing m m' with
  | nil => exact h
  | @cons e e' _ _ he _ ih => exact ih (m := m.insert e.1 e.2) (he.1 ▸ forall₂_put h e.1 he.2)

end OrdMap

/-! ## Schemes with more instances -/

namespace Ty

variable {t : Ty} {f g : String → Ty} {p : String}

theorem mem_unknowns_assign (h : p ∈ t.unknowns) : p ∈ (t.assign f).unknowns := by
  induction t with
  | var => simp at h
  | unknown => exact h
  | con tag ps ih =>
    obtain ⟨q, hq, h⟩ := List.mem_flatMap.1 (unknowns_con tag ps ▸ h)
    rw [assign_con, unknowns_con, List.mem_flatMap]
    exact ⟨_, List.mem_map_of_mem hq, ih q hq h⟩
  | variadic min max ps ih =>
    obtain ⟨q, hq, h⟩ := List.mem_flatMap.1 (unknowns_variadic ps min max ▸ h)
    rw [assign_variadic, unknowns_variadic, List.mem_flatMap]
    exact ⟨_, List.mem_map_of_mem hq, ih q hq h⟩
  | all bound body ih => exact ih h

theorem mem_unknowns_of_assign (hf : ∀ name, (f name).unknowns = [])
    (h : p ∈ (t.assign f).unknowns) : p ∈ t.unknowns := by
  induction t with
  | var name => simp [hf] at h
  | unknown => exact h
  | con tag ps ih =>
    rw [assign_con, unknowns_con, List.flatMap_map, List.mem_flatMap] at h
    obtain ⟨q, hq, h⟩ := h
    exact unknowns_con tag ps ▸ List.mem_flatMap.2 ⟨q, hq, ih q hq h⟩
  | variadic min max ps ih =>
    rw [assign_variadic, unknowns_variadic, List.flatMap_map, List.mem_flatMap] at h
    obtain ⟨q, hq, h⟩ := h
    exact unknowns_variadic ps min max ▸ List.mem_flatMap.2 ⟨q, hq, ih q hq h⟩
  | all bound body ih => exact ih h

/-- If `t` has no variables, `assign` reaches only what `fill` puts in. -/
theorem assign_fill (h : t.Built (· ≠ .var)) :
    (t.fill g).assign f = t.fill fun id ↦ (g id).assign f := by
  induction t with
  | var => simp at h
  | unknown => rfl
  | con tag ps ih =>
    rw [fill_con, assign_con, fill_con, List.map_map]
    exact congrArg _ (List.map_congr_left fun q hq ↦ ih q hq ((built_con.1 h).2 q hq))
  | variadic min max ps ih =>
    rw [fill_variadic, assign_variadic, fill_variadic, List.map_map]
    exact congrArg _ (List.map_congr_left fun q hq ↦ ih q hq ((built_variadic.1 h).2 q hq))
  | all bound body ih => rw [fill_all, assign_all, fill_all, ih (built_all.1 h).2]

theorem Mono.fill (h : t.Mono) (hf : ∀ id, (f id).Mono) : (t.fill f).Mono :=
  Built.fill (Built.mono h fun _ ↦ .inr) fun id _ ↦ hf id

theorem mono_integer : integer.Mono := (simple_atom (by decide) (by decide)).mono

end Ty

open Ty

namespace Typing

/-- Every instance of `S'` is one of `S`. -/
def Covers (S S' : Ty) : Prop := ∀ t, Instance S' t → Instance S t

/-- The environments have the same names, and the schemes of `Δ` cover those of `Γ`. -/
def EnvCovers (Δ Γ : Env) : Prop :=
  List.Forall₂ (fun e e' ↦ e.1 = e'.1 ∧ Covers e.2 e'.2) Δ.entries Γ.entries

variable {S S' : Ty} {Γ Δ : Env} {p : String}

theorem instance_assign_const (S : Ty) {u : Ty} (hu : u.Mono) : Instance S (S.assign fun _ ↦ u) :=
  ⟨_, fun _ ↦ hu, rfl⟩

theorem Covers.refl (S : Ty) : Covers S S := fun _ ↦ id

/-- A scheme with more instances has fewer parameters. -/
theorem Covers.mem_unknowns (h : Covers S S') (hp : p ∈ S.unknowns) : p ∈ S'.unknowns := by
  obtain ⟨g, -, heq⟩ := h _ (instance_assign_const S' mono_integer)
  refine mem_unknowns_of_assign (f := fun _ ↦ integer) (fun _ ↦ rfl) ?_
  rw [heq]
  exact mem_unknowns_assign hp

theorem EnvCovers.refl (Γ : Env) : EnvCovers Γ Γ := List.forall₂_same.2 fun _ _ ↦ ⟨rfl, .refl _⟩

theorem EnvCovers.mem_unknowns (h : EnvCovers Δ Γ) (hp : p ∈ Δ.unknowns) : p ∈ Γ.unknowns := by
  rw [Env.unknowns, OrdMap.values, List.flatMap_map, List.mem_flatMap] at hp ⊢
  obtain ⟨e, he, hp⟩ := hp
  obtain ⟨e', he', -, hcovers⟩ := exists_mem_of_forall₂ h he
  exact ⟨e', he', hcovers.mem_unknowns hp⟩

end Typing

namespace Infer

open Typing

variable {s s' s'' : InferenceState} {Γ env : Env} {t t₁ t₂ u w : Ty} {θ θ' θ'' : String → Ty}
  {e₁ e₂ : Option Mention}

/-! ## States with a solution -/

/-- A state whose types have all their unknowns in the store, with a solution of the store. -/
structure Ready (s : InferenceState) (θ : String → Ty) : Prop where
  valid : Valid s
  closed : s.store.Closed
  solution : Solution s.store θ

/-- A later state, with a solution that agrees with `θ` on the unknowns of `s`. -/
structure Continues (s : InferenceState) (θ : String → Ty) (s' : InferenceState)
    (θ' : String → Ty) :
    Prop where
  ready : Ready s' θ'
  contains : ∀ id, s.store.contains id = true → s'.store.contains id = true
  agrees : ∀ id, s.store.contains id = true → θ' id = θ id

theorem Continues.refl (h : Ready s θ) : Continues s θ s θ := ⟨h, fun _ ↦ id, fun _ _ ↦ rfl⟩

theorem Continues.trans (h : Continues s θ s' θ') (h' : Continues s' θ' s'' θ'') :
    Continues s θ s'' θ'' :=
  ⟨h'.ready, fun id hid ↦ h'.contains id (h.contains id hid),
    fun id hid ↦ (h'.agrees id (h.contains id hid)).trans (h.agrees id hid)⟩

theorem Continues.registered (h : Continues s θ s' θ') (ht : s.store.Registered t) :
    s'.store.Registered t :=
  fun id hid ↦ h.contains id (ht id hid)

/-- `t.fill` does not change for types of `s`. -/
theorem Continues.fill_eq (h : Continues s θ s' θ') (ht : s.store.Registered t) :
    t.fill θ' = t.fill θ :=
  fill_congr fun id hid ↦ h.agrees id (ht id hid)

theorem Continues.of_store_eq (h : Ready s θ) (hstore : s'.store = s.store)
    (hcounter : s'.counter = s.counter) : Continues s θ s' θ := by
  refine ⟨⟨h.valid.congr hstore hcounter, ?_, ?_⟩, fun id hid ↦ ?_, fun _ _ ↦ rfl⟩ <;> rw [hstore]
  · exact h.closed
  · exact h.solution
  · exact hid

/-- The type `w` was found, and `θ'` makes it equal to `t`. -/
structure Found (s : InferenceState) (θ : String → Ty) (t w : Ty) (s' : InferenceState)
    (θ' : String → Ty) : Prop where
  continues : Continues s θ s' θ'
  simple : w.Simple
  registered : s'.store.Registered w
  fill_eq : w.fill θ' = t

/-- The step succeeds with a type that some later solution makes equal to `t`. -/
def Finds (x : Infer Ty) (s : InferenceState) (θ : String → Ty) (t : Ty) : Prop :=
  Ensures x s (fun w s' ↦ ∃ θ', Found s θ t w s' θ') (fun _ _ ↦ False)

/-- `Found` is preserved by later states. -/
theorem Found.later (h : Found s θ t w s' θ') (h' : Continues s' θ' s'' θ'') :
    Found s θ t w s'' θ'' :=
  ⟨h.continues.trans h', h.simple, h'.registered h.registered,
    (h'.fill_eq h.registered).trans h.fill_eq⟩

/-! ## The single steps -/

/-- A new unknown may have any monotype. -/
theorem finds_newUnknown (h : Ready s θ) (ht : t.Mono) (stem : String) :
    Finds (newUnknown stem) s θ t := by
  have hgrows := (ensures_ok (run_newUnknown stem)).1
    (ensures_newUnknown (E := fun _ _ ↦ False) h.valid stem)
  have hnew := h.valid.value?_new stem
  rw [Finds, ensures_ok (run_newUnknown stem)]
  generalize stem ++ "#" ++ toString (s.counter + 1) = id at hgrows hnew
  obtain ⟨hwf, hval⟩ := Forest.value?_add h.valid.wf id (Ty.unknown id)
  have hmissing : ∀ k, s.store.contains k = true → k ≠ id := by
    rintro k hk rfl
    obtain ⟨v, hv⟩ := h.valid.wf.value?_isSome hk
    exact absurd (hv.symm.trans hnew) nofun
  have hold : ∀ k, s.store.contains k = true →
      (s.store.add id (Ty.unknown id)).contains k = true := by
    intro k hk
    obtain ⟨v, hv⟩ := h.valid.wf.value?_isSome hk
    exact Forest.contains_of_value? ((hval k).trans ((if_neg (hmissing k hk).symm).trans hv))
  have hmem : (s.store.add id (Ty.unknown id)).contains id = true :=
    Forest.contains_of_value? ((hval id).trans (if_pos rfl))
  let θ' : String → Ty := fun k ↦ if k = id then t else θ k
  have hagrees : ∀ k, s.store.contains k = true → θ' k = θ k := fun k hk ↦ if_neg (hmissing k hk)
  have hreg : ∀ k v, (s.store.add id (Ty.unknown id)).value? k = some v → k ≠ id →
      s.store.value? k = some v ∧ s.store.Registered v := by
    intro k v hv hk
    rw [hval k, if_neg hk.symm] at hv
    exact ⟨hv, h.closed k v hv⟩
  refine ⟨θ', ⟨⟨hgrows.1.valid, fun k v hv ↦ ?_, fun k v hv ↦ ?_, fun k ↦ ?_⟩, hold, hagrees⟩,
    hgrows.2, Store.registered_unknown.2 hmem, if_pos rfl⟩
  · by_cases hk : k = id
    · rw [hval k, if_pos hk.symm] at hv
      cases hv
      exact Store.registered_unknown.2 hmem
    · exact fun a ha ↦ hold a ((hreg k v hv hk).2 a ha)
  · by_cases hk : k = id
    · subst hk
      rw [hval k, if_pos rfl] at hv
      cases hv
      rfl
    · obtain ⟨hv, hv'⟩ := hreg k v hv hk
      rw [hagrees k (Forest.contains_of_value? hv), h.solution.solves k v hv]
      exact fill_congr fun a ha ↦ (hagrees a (hv' a (unknowns_core v ▸ ha))).symm
  · simp only [θ']
    split
    · exact ht
    · exact h.solution.mono k

/-- Types that the solution makes equal can be unified, and the solution stays one. -/
theorem finds_unify (h : Ready s θ) (h₁ : t₁.Simple) (h₂ : t₂.Simple) (hr₁ : s.store.Registered t₁)
    (hr₂ : s.store.Registered t₂) (heq₁ : t₁.fill θ = t) (heq₂ : t₂.fill θ = t) :
    Finds (unify t₁ t₂ e₁ e₂) s θ t := by
  have hbare : ¬ (Node.var = .unknown ∨ Node.var.Ordinary (· = 2)) ∧
      ¬ (Node.all = .unknown ∨ Node.all.Ordinary (· = 2)) := by simp [Node.Ordinary]
  have hcore : t₁.core.fill θ = t₂.core.fill θ := by rw [h₁.core_eq, h₂.core_eq, heq₁, heq₂]
  refine (((ensures_unify_acyclic t₁ t₂ e₁ e₂ h.valid.wf h.valid.acyclic).and
    (ensures_unify h.valid h₁ h₂)).and
      (ensures_unify_complete definite_of_simple hbare e₁ e₂ h.valid.wf
      h.valid.acyclic h.closed h.valid.simple h₁ h₂ hr₁ hr₂ h.solution.solves hcore)).mono ?_
    fun _ _ ↦ And.right
  rintro w s' ⟨⟨⟨hsame, -⟩, hgrows, hw, heq⟩, hclosed, hreg, hsolves⟩
  refine ⟨θ, ⟨⟨hgrows.valid, hclosed, hsolves, h.solution.mono⟩, fun id hid ↦ ?_, fun _ _ ↦ rfl⟩,
    hw,
    hreg, (heq θ hsolves).1.symm.trans heq₁⟩
  exact (hsame.contains_eq id).trans hid

/-! ## Instantiation -/

/-- `θ` gives the instances the types that the assignment `f` gives to the variables. -/
def Chosen (s : InferenceState) (θ f : String → Ty) (instances : Env) : Prop :=
  ∀ name u, instances.get? name = some u → s.store.Registered u ∧ u.fill θ = f name

theorem Chosen.later {f : String → Ty} {instances : Env} (h : Chosen s θ f instances)
    (h' : Continues s θ s' θ') : Chosen s' θ' f instances := fun name u hu ↦
  ⟨h'.registered (h name u hu).1, (h'.fill_eq (h name u hu).1).trans (h name u hu).2⟩

/-- Instantiation follows every assignment of monotypes to the variables of `t`. -/
def InstantiatesAs (t : Ty) : Prop :=
  ∀ {s : InferenceState} {θ f : String → Ty} {instances : Env}, Ready s θ → s.store.Registered t →
    (∀ name, (f name).Mono) → Chosen s θ f instances →
    Ensures (instantiateWith instances t) s
      (fun r s' ↦ ∃ θ', Continues s θ s' θ' ∧ Chosen s' θ' f r.2 ∧ s'.store.Registered r.1 ∧
        r.1.fill θ' = (t.scheme.fill θ).assign f)
      (fun _ _ ↦ False)

theorem ensures_instantiateList_as {ts : List Ty} (ih : ∀ t ∈ ts, InstantiatesAs t)
    {f : String → Ty} {instances : Env} (h : Ready s θ) (hreg : ∀ t ∈ ts, s.store.Registered t)
    (hf : ∀ name, (f name).Mono) (hi : Chosen s θ f instances) :
    Ensures (instantiateList instances ts) s
      (fun r s' ↦ ∃ θ', Continues s θ s' θ' ∧ Chosen s' θ' f r.2 ∧
        (∀ w ∈ r.1, s'.store.Registered w) ∧
        r.1.map (fill θ') = ((ts.map scheme).map (fill θ)).map (assign f))
      (fun _ _ ↦ False) := by
  induction ts generalizing s θ instances with
  | nil => exact ⟨θ, .refl h, hi, nofun, rfl⟩
  | cons t ts ih' =>
    rw [List.forall_mem_cons] at ih hreg
    rw [instantiateList, ensures_bind]
    refine (ih.1 h hreg.1 hf hi).mono ?_ fun _ _ ↦ id
    rintro ⟨w, i₁⟩ s₁ ⟨θ₁, hk₁, hi₁, hw, heq⟩
    rw [ensures_bind]
    refine (ih' ih.2 hk₁.ready (fun t ht ↦ hk₁.registered (hreg.2 t ht)) hi₁).mono ?_ fun _ _ ↦ id
    rintro ⟨ws, i₂⟩ s₂ ⟨θ₂, hk₂, hi₂, hws, heqs⟩
    refine ⟨θ₂, hk₁.trans hk₂, hi₂, List.forall_mem_cons.2 ⟨hk₂.registered hw, hws⟩, ?_⟩
    have hrest : (ts.map scheme).map (fill θ₁) = (ts.map scheme).map (fill θ) := by
      rw [List.map_map, List.map_map]
      refine List.map_congr_left fun t ht ↦ fill_congr fun id hid ↦ ?_
      exact hk₁.agrees id (hreg.2 t ht id (unknowns_scheme t ▸ hid))
    rw [hrest] at heqs
    exact List.cons_eq_cons.2 ⟨(hk₂.fill_eq hw).trans heq, heqs⟩

theorem instantiatesAs (ht : t.Regular) : InstantiatesAs t := by
  induction t with
  | unknown id =>
    intro s θ f instances h hreg hf hi
    exact ⟨θ, .refl h, hi, hreg, (assign_eq_self (h.solution.mono id).no_var).symm⟩
  | var name =>
    intro s θ f instances h hreg hf hi
    rw [instantiateWith]
    cases hname : instances.get? name with
    | some t => exact ⟨θ, .refl h, hi, hi name t hname⟩
    | none =>
      rw [ensures_bind]
      refine (finds_newUnknown h (hf name) name).mono ?_ fun _ _ ↦ id
      rintro t s' ⟨θ', ht⟩
      exact ⟨θ', ht.continues,
        OrdMap.forall_get?_insert (hi.later ht.continues) ⟨ht.registered, ht.fill_eq⟩,
        ht.registered, ht.fill_eq⟩
  | con tag ps ih =>
    intro s θ f instances h hreg hf hi
    rw [instantiateWith, ensures_bind]
    refine (ensures_instantiateList_as (fun q hq ↦ ih q hq ((built_con.1 ht).2 q hq)) h
      (Store.registered_con.1 hreg) hf hi).mono ?_ fun _ _ ↦ id
    rintro ⟨ws, i⟩ s' ⟨θ', hk, hi', hws, heq⟩
    refine ⟨θ', hk, hi', fun id hid ↦ ?_, ?_⟩
    · rw [unknowns_curried] at hid
      exact Store.registered_con.2 hws id hid
    · rw [scheme_con, fill_curried, fill_curried, assign_curried]
      exact congrArg (fun ps ↦ (con tag ps).curried) heq
  | variadic => simp [Regular, Node.Ordinary] at ht
  | all bound body ih => exact ih (built_all.1 ht).2

/-- Instantiation finds every instance. -/
theorem finds_instantiate (h : Ready s θ) (ht : t.Regular) (hreg : s.store.Registered t)
    (hu : Instance (t.scheme.fill θ) u) : Finds (instantiate t) s θ u := by
  obtain ⟨f, hf, rfl⟩ := hu
  have hfound : Ensures (instantiate t) s
      (fun w s' ↦ ∃ θ', Continues s θ s' θ' ∧ s'.store.Registered w ∧
        w.fill θ' = (t.scheme.fill θ).assign f) (fun _ _ ↦ False) := by
    rw [instantiate, ensures_bind]
    refine (instantiatesAs ht h hreg hf (by simp [Chosen])).mono ?_ fun _ _ ↦ id
    rintro r s' ⟨θ', hk, -, hr, heq⟩
    exact ⟨θ', hk, hr, heq⟩
  refine ((ensures_instantiate h.valid ht).and hfound).mono ?_ fun _ _ ↦ And.right
  rintro w s' ⟨⟨-, hw, -⟩, θ', hk, hr, heq⟩
  exact ⟨θ', hk, hw, hr, heq⟩

/-! ## Environments -/

/-- The environment of inference covers that of the typing rules. -/
structure Fits (Γ env : Env) (s : InferenceState) (θ : String → Ty) : Prop where
  ready : Ready s θ
  regular : RegularEnv env
  registered : ∀ S ∈ env.values, s.store.Registered S
  covers : EnvCovers (solved θ env) Γ

theorem Fits.later (h : Fits Γ env s θ) (h' : Continues s θ s' θ') : Fits Γ env s' θ' := by
  refine ⟨h'.ready, h.regular, fun S hS ↦ h'.registered (h.registered S hS), ?_⟩
  rw [solved_congr fun S hS ↦ fill_congr fun id hid ↦ h'.agrees id ?_]
  · exact h.covers
  · exact h.registered S hS id (unknowns_scheme S ▸ hid)

/-- `Fits` with more names whose schemes cover those of the typing rules. -/
theorem Fits.insertAll (h : Fits Γ env s θ) {bs bs' : List (String × Ty)}
    (hbs : ∀ b ∈ bs, b.2.Polymorphic ∧ s.store.Registered b.2)
    (hcovers : List.Forall₂ (fun b b' ↦ b.1 = b'.1 ∧ Covers (b.2.fill θ) b'.2) bs bs') :
    Fits (Γ.insertAll bs') (env.insertAll bs) s θ := by
  refine ⟨h.ready, h.regular.insertAll fun b hb ↦ (hbs b hb).1.regular, fun S hS ↦ ?_, ?_⟩
  · rcases OrdMap.mem_values_insertAll hS with hS | hS
    · obtain ⟨b, hb, rfl⟩ := List.mem_map.1 hS
      exact (hbs b hb).2
    · exact h.registered S hS
  · rw [solved_insertAll fun b hb ↦ (hbs b hb).1]
    refine OrdMap.forall₂_insertAll h.covers ?_
    rwa [List.forall₂_map_left_iff]

/-- `Fits` with more names that have the monotypes of the typing rules. -/
theorem Fits.insertAll_mono (h : Fits Γ env s θ) {bs bs' : List (String × Ty)}
    (hbs : ∀ b ∈ bs, b.2.Simple ∧ s.store.Registered b.2)
    (heq : bs.map (fun b ↦ (b.1, b.2.fill θ)) = bs') :
    Fits (Γ.insertAll bs') (env.insertAll bs) s θ := by
  refine h.insertAll (fun b hb ↦ ⟨(hbs b hb).1.polymorphic, (hbs b hb).2⟩) ?_
  rw [← heq, List.forall₂_map_right_iff]
  exact List.forall₂_same.2 fun b _ ↦ ⟨rfl, .refl _⟩

theorem Fits.exists_get? (h : Fits Γ env s θ) {name : String} {S : Ty} (hS : Γ.get? name = some S) :
    ∃ S', env.get? name = some S' ∧ Covers (S'.scheme.fill θ) S := by
  obtain ⟨_, hget, hcovers⟩ := OrdMap.exists_lookup_of_forall₂ h.covers hS
  rw [show OrdMap.lookup name (solved θ env).entries = (solved θ env).get? name from rfl, solved,
    OrdMap.get?_mapValues] at hget
  obtain ⟨S', hS', rfl⟩ := Option.map_eq_some_iff.1 hget
  exact ⟨S', hS', hcovers⟩

/-! ## Generalisation -/

theorem GeneralizedTo.registered {G : Ty} (hG : GeneralizedTo s.store env t G) (hc : s.store.Closed)
    (ht : s.store.Registered t) : s.store.Registered G := by
  obtain ⟨name, -, rfl⟩ := hG
  intro p hp
  obtain ⟨r, hr, hp⟩ := mem_unknowns_fill.1 hp
  split at hp
  · rw [unknowns_unknown, List.mem_singleton] at hp
    exact hp ▸ hc.apply ht r hr
  · cases hp

/-- Generalisation covers every scheme that the typing rules make of the monotype. -/
theorem GeneralizedTo.covers {G S : Ty} (h : Fits Γ env s θ) (ht : t.Simple)
    (hG : GeneralizedTo s.store env t G) (hS : Generalizes Γ (t.fill θ) S) :
    Covers (G.fill θ) S := by
  obtain ⟨name, hname, rfl⟩ := hG
  obtain ⟨name', -, rfl⟩ := hS
  rintro _ ⟨f, hf, rfl⟩
  have hs := h.ready.valid
  have hmono := h.ready.solution.mono
  -- What the instance has for the parameters, and so for the unknowns that are generalised.
  let π : String → Ty := fun p ↦ if p ∈ Γ.unknowns then .unknown p else f (name' p)
  let A : Set String := {r | r ∈ (s.store.apply t).unknowns ∧ r ∉ openIn s.store env}
  let g : String → Ty := fun x ↦ (θ (Function.invFunOn name A x)).fill π
  have hπ : ∀ p, (π p).Mono := by
    intro p
    simp only [π]
    split
    · exact mono_unknown p
    · exact hf _
  have hg : ∀ r ∈ A, g (name r) = (θ r).fill π := by
    have hinj : Set.InjOn name A := fun p hp q hq ↦ hname p hp.1 q hq.1 hp.2 hq.2
    exact fun r hr ↦ congrArg (fun q ↦ (θ q).fill π) (hinj.leftInvOn_invFunOn hr)
  have hopen : ∀ r ∈ openIn s.store env, (θ r).fill π = θ r := by
    refine fun r hr ↦ (fill_congr fun p hp ↦ if_pos ?_).trans (fill_self _)
    exact h.covers.mem_unknowns (mem_unknowns_of_openIn hs h.ready.solution.solves hr hp)
  refine ⟨g, fun x ↦ (hmono _).fill hπ, ?_⟩
  calc ((t.fill θ).fill fun p ↦ if p ∈ Γ.unknowns then .unknown p else .var (name' p)).assign f
      = (t.fill θ).fill π := by
        rw [assign_fill (ht.fill_mono hmono).no_var]
        refine fill_congr fun p _ ↦ ?_
        simp only [π]
        split <;> rfl
    _ = (s.store.apply t).fill fun r ↦ (θ r).fill π := by
        rw [← hs.fill_apply h.ready.solution.solves ht, fill_fill]
    _ = (s.store.apply t).fill fun r ↦
          ((if r ∈ openIn s.store env then .unknown r else .var (name r) : Ty).fill θ).assign
            g := by
        refine fill_congr fun r hr ↦ ?_
        split
        · rename_i hro
          rw [fill_unknown, assign_eq_self (hmono r).no_var, hopen r hro]
        · rename_i hro
          rw [fill_var, assign_var, hg r ⟨hr, hro⟩]
    _ = _ := by rw [fill_fill, assign_fill (hs.simple_apply ht).mono.no_var]

theorem ensures_generalize_ready (h : Ready s θ) (env : Env) (ht : s.store.Registered t) :
    Ensures (generalize env t) s
      (fun r s' ↦ Continues s θ s' θ ∧ s'.store = s.store ∧ GeneralizedTo s.store env t r.1)
      (fun _ _ ↦ False) := by
  refine (ensures_generalize_missing h.valid env t).mono ?_ ?_
  · rintro r s' ⟨hstore, hcounter, hG⟩
    exact ⟨.of_store_eq h hstore hcounter, hstore, hG⟩
  · rintro _ _ ⟨r, hr, hnone⟩
    obtain ⟨v, hv⟩ := h.valid.wf.value?_isSome (h.closed.apply ht r hr)
    exact absurd (hv.symm.trans hnone) nofun

end Infer

end SchemeTyping
