import SchemeTyping.Inference.Generalize
import SchemeTyping.Proofs.Inference.Unify
import SchemeTyping.Proofs.Ty.Names
import SchemeTyping.Proofs.Ty.Scheme

/-!
# The invariant of inference

While inference runs, its store is acyclic, all its values are simple types, and every unknown in it
has a number that was given out (`Valid`).  So a new unknown is really new, and every step only adds
equations: a solution of the store it leaves is one of the store before (`Grows`).

`ensures_unify` and `ensures_instantiate` are the specifications of the two main steps in such a
state. The type that instantiation returns is the scheme of the given one, with simple types for its
variables.
-/

set_option autoImplicit false

namespace SchemeTyping

open Ty

theorem Ty.Simple.core_eq {t : Ty} (h : t.Simple) : t.core = t := by
  induction t with
  | con tag ps ih =>
    obtain ⟨hn, hps⟩ := built_con.1 h
    have htag : tag ≠ "Number" := by
      rintro rfl
      exact (hn.resolve_left nofun).1 (by simp [specialTags])
    rw [core_con, List.map_congr_left fun q hq ↦ ih q hq (hps q hq), List.map_id', coreTag,
      if_neg fun h ↦ htag h.1]
  | variadic => simp [Simple, Node.Ordinary] at h
  | all => simp [Simple, Node.Ordinary] at h
  | _ => rfl

namespace Infer

variable {α : Type} {s s' s'' : InferenceState} {t t₁ t₂ : Ty} {e₁ e₂ : Option Mention}

/-! ## Numbers of unknowns -/

theorem digits_eq_of_append {as bs cs ds : List Char} (hbs : '#' ∉ bs) (hds : '#' ∉ ds)
    (h : as ++ '#' :: bs = cs ++ '#' :: ds) : bs = ds := by
  induction as generalizing cs with
  | nil =>
    cases cs with
    | nil => simpa using h
    | cons c cs =>
      obtain ⟨-, rfl⟩ := List.cons.inj h
      exact absurd (List.mem_append_right cs (List.mem_cons_self ..)) hbs
  | cons a as ih =>
    cases cs with
    | nil =>
      obtain ⟨-, rfl⟩ := List.cons.inj h
      exact absurd (List.mem_append_right as (List.mem_cons_self ..)) hds
    | cons c cs => exact ih (List.cons.inj h).2

/-- The number of an unknown is determined by its id. -/
theorem number_eq_of_id {stem stem' : String} {m n : Nat}
    (h : stem ++ "#" ++ toString m = stem' ++ "#" ++ toString n) : m = n := by
  have hdigit : ∀ k, '#' ∉ Nat.toDigits 10 k := fun k hk ↦
    absurd (Nat.isDigit_of_mem_toDigits (by decide) (by decide) hk) (by decide)
  have h := congrArg String.toList h
  simp only [String.toList_append, Nat.toString_eq_repr, Nat.toList_repr, List.append_assoc] at h
  exact toDigits_injective (digits_eq_of_append (hdigit m) (hdigit n) h)

/-! ## The invariant -/

/-- The invariant of inference on simple types. -/
structure Valid (s : InferenceState) : Prop where
  wf : s.store.WF
  acyclic : s.store.Acyclic
  simple : ∀ k t, s.store.value? k = some t → t.Simple
  numbered : ∀ k t, s.store.value? k = some t →
    ∃ stem n, n ≤ s.counter ∧ k = stem ++ "#" ++ toString n

/-- `s'` is valid, and its store has all equations of that of `s`. -/
structure Grows (s s' : InferenceState) : Prop where
  valid : Valid s'
  solves : ∀ θ, s'.store.Solves θ → s.store.Solves θ

theorem Grows.refl (hs : Valid s) : Grows s s := ⟨hs, fun _ ↦ id⟩

theorem Grows.trans (h : Grows s s') (h' : Grows s' s'') : Grows s s'' :=
  ⟨h'.valid, fun θ hθ ↦ h.solves θ (h'.solves θ hθ)⟩

theorem Valid.congr (h : Valid s) (hstore : s'.store = s.store)
    (hcounter : s'.counter = s.counter) : Valid s' := by
  obtain ⟨hwf, hs, hv, hn⟩ := h
  exact ⟨hstore ▸ hwf, hstore ▸ hs, hstore ▸ hv, hstore ▸ hcounter ▸ hn⟩

theorem Grows.congr (h : Grows s s') (hstore : s''.store = s'.store)
    (hcounter : s''.counter = s'.counter) : Grows s s'' :=
  ⟨h.valid.congr hstore hcounter, fun θ hθ ↦ h.solves θ (hstore ▸ hθ)⟩

/-- The id of a new unknown is not in the store, because its number is too large. -/
theorem Valid.value?_new (hs : Valid s) (stem : String) :
    s.store.value? (stem ++ "#" ++ toString (s.counter + 1)) = none := by
  cases h : s.store.value? (stem ++ "#" ++ toString (s.counter + 1)) with
  | none => rfl
  | some t =>
    obtain ⟨stem', n, hn, he⟩ := hs.numbered _ t h
    have := number_eq_of_id he
    omega

theorem run_newUnknown (stem : String) : (newUnknown stem).run s =
    (.ok (.unknown (stem ++ "#" ++ toString (s.counter + 1))),
      { s with
        counter := s.counter + 1
        store := s.store.add (stem ++ "#" ++ toString (s.counter + 1))
          (.unknown (stem ++ "#" ++ toString (s.counter + 1))) }) := rfl

theorem ensures_newUnknown {E : Failure → InferenceState → Prop} (hs : Valid s) (stem : String) :
    Ensures (newUnknown stem) s (fun t s' ↦ Grows s s' ∧ t.Simple) E := by
  have hnew := hs.value?_new stem
  rw [ensures_ok (run_newUnknown stem)]
  generalize hid : stem ++ "#" ++ toString (s.counter + 1) = id at hnew
  obtain ⟨hwf, hval⟩ := Forest.value?_add hs.wf id (Ty.unknown id)
  refine ⟨⟨⟨hwf, acyclic_add hs.wf hs.acyclic id, fun k t ht ↦ ?_, fun k t ht ↦ ?_⟩,
    fun θ hθ k t ht ↦ hθ k t ?_⟩, simple_unknown id⟩
  · rw [hval k] at ht
    split at ht
    · cases ht
      exact simple_unknown id
    · exact hs.simple k t ht
  · rw [hval k] at ht
    split at ht
    · rename_i h
      exact ⟨stem, s.counter + 1, Nat.le_refl _, h.symm.trans hid.symm⟩
    · obtain ⟨stem', n, hn, he⟩ := hs.numbered k t ht
      exact ⟨stem', n, by simp only; omega, he⟩
  · rw [hval k, if_neg, ht]
    rintro rfl
    rw [hnew] at ht
    cases ht

theorem ensures_applied_valid {E : Failure → InferenceState → Prop} (hs : Valid s) (t : Ty) :
    Ensures (applied t) s (fun w s' ↦ s' = s ∧ w = s.store.apply t) E := by
  rw [ensures_applied]
  exact ⟨fun _ ↦ ⟨rfl, rfl⟩, fun h ↦ absurd (hs.acyclic.settles t) h⟩

theorem Valid.simple_apply (hs : Valid s) (ht : t.Simple) : (s.store.apply t).Simple :=
  Store.Built.apply hs.simple ht

theorem Valid.fill_apply (hs : Valid s) {θ : String → Ty} (hθ : s.store.Solves θ) (ht : t.Simple) :
    (s.store.apply t).fill θ = t.fill θ := by
  have h := hθ.fill_apply t
  rwa [ht.core_eq, (hs.simple_apply ht).core_eq] at h

/-- A simple type has neither `any` nor the gradual type. -/
theorem definite_of_simple (tag : String) (arity : Nat)
    (h : Node.con tag arity = .unknown ∨ (Node.con tag arity).Ordinary (· = 2)) :
    tag ≠ "Any" ∧ tag ≠ "?" := by
  have h : tag ∉ specialTags := (h.resolve_left nofun).1
  simp only [specialTags, List.mem_cons, not_or] at h
  exact ⟨h.1, h.2.2.1⟩

/-- After `unify`, every solution makes the two types equal to the returned one. -/
theorem ensures_unify (hs : Valid s) (h₁ : t₁.Simple) (h₂ : t₂.Simple) :
    Ensures (unify t₁ t₂ e₁ e₂) s
      (fun w s' ↦ Grows s s' ∧ w.Simple ∧
        ∀ θ, s'.store.Solves θ → t₁.fill θ = w.fill θ ∧ t₂.fill θ = w.fill θ)
      (fun _ _ ↦ True) := by
  refine (ensures_unify_solves definite_of_simple e₁ e₂ hs.wf hs.acyclic hs.simple h₁ h₂).mono ?_
    fun _ _ _ ↦ trivial
  rintro w s' ⟨h, hw, hagree⟩
  refine ⟨⟨⟨h.unknowns.wf, h.acyclic, h.built, fun k t ht ↦ ?_⟩, h.solves⟩, hw, fun θ hθ ↦ ?_⟩
  · have hk := Forest.contains_of_value? ht
    rw [h.unknowns.contains_eq] at hk
    obtain ⟨v, hv⟩ := hs.wf.value?_isSome hk
    rw [h.counter]
    exact hs.numbered k v hv
  · obtain ⟨h₁₂, hw₁⟩ := hagree θ hθ
    rw [h₁.core_eq, h₂.core_eq] at h₁₂
    rw [h₁.core_eq, Ty.Simple.core_eq hw] at hw₁
    exact ⟨hw₁.symm, h₁₂.symm.trans hw₁.symm⟩

/-! ## Instantiation -/

/-- `instances'` are simple types that extend `instances`. -/
structure Instances (instances instances' : Env) : Prop where
  simple : ∀ name t, instances'.get? name = some t → t.Simple
  keeps : ∀ name t, instances.get? name = some t → instances'.get? name = some t

/-- The assignment `f` gives the variables their instances. -/
def Extends (instances : Env) (f : String → Ty) : Prop :=
  ∀ name t, instances.get? name = some t → f name = t

theorem Instances.trans {i i' i'' : Env} (h : Instances i i') (h' : Instances i' i'') :
    Instances i i'' :=
  ⟨h'.simple, fun name t ht ↦ h'.keeps name t (h.keeps name t ht)⟩

theorem Extends.of_instances {i i' : Env} {f : String → Ty} (h : Instances i i')
    (hf : Extends i' f) : Extends i f :=
  fun name t ht ↦ hf name t (h.keeps name t ht)

/-- Instantiation gives the scheme of `t` under every assignment that extends the instances. -/
def InstantiatesTo (t : Ty) : Prop :=
  ∀ {s : InferenceState} {instances : Env}, Valid s →
    (∀ name t, instances.get? name = some t → t.Simple) →
    Ensures (instantiateWith instances t) s
      (fun r s' ↦ Grows s s' ∧ Instances instances r.2 ∧ ∀ f, Extends r.2 f →
        r.1 = t.scheme.assign f)
      (fun _ _ ↦ True)

theorem ensures_instantiateList {ts : List Ty} (ih : ∀ t ∈ ts, InstantiatesTo t) {instances : Env}
    (hs : Valid s) (hi : ∀ name t, instances.get? name = some t → t.Simple) :
    Ensures (instantiateList instances ts) s
      (fun r s' ↦ Grows s s' ∧ Instances instances r.2 ∧
        ∀ f, Extends r.2 f → r.1 = (ts.map scheme).map (assign f))
      (fun _ _ ↦ True) := by
  induction ts generalizing s instances with
  | nil => exact ⟨.refl hs, ⟨hi, fun _ _ ↦ id⟩, fun _ _ ↦ rfl⟩
  | cons t ts ih' =>
    rw [List.forall_mem_cons] at ih
    rw [instantiateList, ensures_bind]
    refine (ih.1 hs hi).mono ?_ fun _ _ ↦ id
    rintro ⟨w, i₁⟩ s₁ ⟨hg₁, hi₁, hw⟩
    rw [ensures_bind]
    refine (ih' ih.2 hg₁.valid hi₁.simple).mono ?_ fun _ _ ↦ id
    rintro ⟨ws, i₂⟩ s₂ ⟨hg₂, hi₂, hws⟩
    refine ⟨hg₁.trans hg₂, hi₁.trans hi₂, fun f hf ↦ ?_⟩
    exact List.cons_eq_cons.2 ⟨hw f (hf.of_instances hi₂), hws f hf⟩

theorem instantiatesTo (ht : t.Regular) : InstantiatesTo t := by
  induction t with
  | unknown => exact fun hs hi ↦ ⟨.refl hs, ⟨hi, fun _ _ ↦ id⟩, fun _ _ ↦ rfl⟩
  | var name =>
    intro s instances hs hi
    rw [instantiateWith]
    cases hname : instances.get? name with
    | some t => exact ⟨.refl hs, ⟨hi, fun _ _ ↦ id⟩, fun f hf ↦ (hf name t hname).symm⟩
    | none =>
      rw [ensures_bind]
      refine (ensures_newUnknown hs name).mono ?_ fun _ _ ↦ id
      rintro t s' ⟨hg, ht⟩
      refine ⟨hg, ⟨OrdMap.forall_get?_insert hi ht, fun name' t' h ↦ ?_⟩, fun f hf ↦ ?_⟩
      · rw [OrdMap.get?_insert, if_neg, h]
        rintro rfl
        rw [hname] at h
        cases h
      · exact (hf name t (OrdMap.get?_insert_self _ _ _)).symm
  | con tag ps ih =>
    intro s instances hs hi
    rw [instantiateWith, ensures_bind]
    refine (ensures_instantiateList (fun q hq ↦ ih q hq ((built_con.1 ht).2 q hq)) hs hi).mono ?_
      fun _ _ ↦ id
    rintro ⟨ws, i⟩ s' ⟨hg, hi, hws⟩
    refine ⟨hg, hi, fun f hf ↦ ?_⟩
    rw [scheme_con, assign_curried]
    exact congrArg (fun ps ↦ (con tag ps).curried) (hws f hf)
  | variadic => simp [Regular, Node.Ordinary] at ht
  | all bound body ih => exact ih (built_all.1 ht).2

/-- `instantiate` puts simple types for the variables of the scheme. -/
theorem ensures_instantiate (hs : Valid s) (ht : t.Regular) :
    Ensures (instantiate t) s
      (fun w s' ↦ Grows s s' ∧ w.Simple ∧ ∃ f : String → Ty, (∀ name, (f name).Simple) ∧
        w = t.scheme.assign f)
      (fun _ _ ↦ True) := by
  rw [instantiate, ensures_bind]
  refine (instantiatesTo ht hs (by simp)).mono ?_ fun _ _ ↦ id
  rintro ⟨w, instances⟩ s' ⟨hg, hi, hw⟩
  have hf : ∀ name, ((instances.get? name).getD (.unknown name)).Simple := by
    intro name
    cases h : instances.get? name with
    | none => exact simple_unknown name
    | some t => exact hi.simple name t h
  have hw := hw (fun name ↦ (instances.get? name).getD (.unknown name)) fun name t ht ↦ by simp [ht]
  exact ⟨hg, hw ▸ Built.assign ht.scheme hf, _, hf, hw⟩

end Infer

end SchemeTyping
