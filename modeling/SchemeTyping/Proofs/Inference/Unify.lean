import SchemeTyping.Inference.Unify
import SchemeTyping.Proofs.Inference.Depth
import SchemeTyping.Proofs.Outcome

/-!
# What unification does to the store

`ensures_unifyWithin_succ` lists what one call of `unifyWithin` can do: return at once, bind an
unknown, or unify the parameters and conclude.  Two inductions on the depth follow from it.

## What is here

* `ensures_unify_hereditary` — for all types: `unify` keeps the unknowns of the store and every
  `Hereditary` property of its values, and fails only for a `Reason`.
* `ensures_unify_acyclic` — it preserves acyclicity, unless it fails because replacing unknowns does
  not end.  It fails that way exactly if it leaves a cycle.
* `ensures_unify_solves` — for types without `any` and the gradual type: it never fails that way,
  and every solution of the store it leaves makes the two types and the returned one equal.
-/

set_option autoImplicit false

namespace SchemeTyping.Infer

open Ty

variable {α : Type} {s s' : InferenceState} {store store' : Store} {t t₁ t₂ u : Ty} {id : String}
  {e₁ e₂ : Option Mention} {Q : Ty → InferenceState → Prop} {E : Failure → InferenceState → Prop}
  {P : Ty → Prop}

/-! ## The small steps -/

theorem wf_initial : InferenceState.initial.store.WF := Forest.wf_empty

theorem value?_initial (k : String) : InferenceState.initial.store.value? k = none := rfl

theorem acyclic_initial : InferenceState.initial.store.Acyclic := by
  intro a h
  obtain ⟨b, ⟨t, ht, -⟩, -⟩ := Relation.TransGen.head'_iff.1 h
  exact absurd ((value?_initial a).symm.trans (Store.next?_eq_some_iff.1 ht).1) nofun

@[simp] theorem ensures_tell (event : Event) (Q : Unit → InferenceState → Prop)
    (E : Failure → InferenceState → Prop) :
    Ensures (tell event) s Q E ↔ Q () { s with log := s.log.push event } := Iff.rfl

theorem ensures_fail {failure : Failure} {Q : α → InferenceState → Prop}
    (h : ∀ error, E failure { s with error }) : Ensures (fail failure) s Q E := by
  rw [fail]
  split
  · exact h _
  · exact h s.error

@[simp] theorem ensures_applied (t : Ty) (Q : Ty → InferenceState → Prop)
    (E : Failure → InferenceState → Prop) :
    Ensures (applied t) s Q E ↔ (s.store.settles t = true → Q (s.store.apply t) s) ∧
      (¬ s.store.settles t = true → E .unbounded s) := by
  rw [applied]
  simp only [ensures_bind, ensures_get, ensures_ite, ensures_pure, ensures_throw]

theorem ensures_onStore (op : Forest.Op String Ty α) (Q : α → InferenceState → Prop)
    (E : Failure → InferenceState → Prop) :
    Ensures (onStore op) s Q E ↔ Ensures op s.store (fun a f ↦ Q a { s with store := f })
      (fun id f ↦ E (.missingUnknown id) { s with store := f }) := by
  rw [onStore, ensures_bind, ensures_get]
  rcases h : op.run s.store with ⟨id | a, f⟩
  · rw [ensures_error h]; rfl
  · rw [ensures_ok h]; rfl

/-- A new unknown does not make a cycle. -/
theorem acyclic_add {store : Store} (hwf : store.WF) (hs : store.Acyclic) (id : String) :
    Store.Acyclic (store.add id (.unknown id)) := by
  have hval := (Forest.value?_add hwf id (Ty.unknown id)).2
  refine hs.of_changed (C := fun a ↦ a = id) ?_ ?_
  · rintro a ha b ⟨t, ht, hb⟩
    rw [Store.next?_eq_some_iff, hval a, if_neg (Ne.symm ha), ← Store.next?_eq_some_iff] at ht
    exact ⟨t, ht, hb⟩
  · rintro a rfl b ⟨t, ht, hb⟩
    rw [Store.next?_eq_some_iff, hval a, if_pos rfl] at ht
    exact absurd (Option.some.inj ht.1).symm ht.2

/-! ## Binding an unknown -/

/-- `store'` has the unknowns of `store`. -/
structure SameUnknowns (store store' : Store) : Prop where
  wf : store'.WF
  index : store'.index = store.index

theorem SameUnknowns.refl (h : store.WF) : SameUnknowns store store := ⟨h, rfl⟩

theorem SameUnknowns.trans {store'' : Store} (h : SameUnknowns store store')
    (h' : SameUnknowns store' store'') : SameUnknowns store store'' :=
  ⟨h'.wf, h'.index.trans h.index⟩

theorem SameUnknowns.contains_eq (h : SameUnknowns store store') (id : String) :
    store'.contains id = store.contains id := by
  rw [Forest.contains, Forest.contains, h.index]

/-- `store'` is `store` up to the links in the forest. -/
structure Unchanged (store store' : Store) : Prop extends SameUnknowns store store' where
  values : ∀ k, store'.value? k = store.value? k

/-- The store after the unknown `id` was bound to `t`. -/
structure Bound (store store' : Store) (id : String) (t : Ty) : Prop
    extends SameUnknowns store store' where
  acyclic : store'.Acyclic
  occurs : id ∉ (store.apply t).unknowns
  solves : ∀ θ, store'.Solves θ ↔ store.Solves θ ∧ θ id = t.core.fill θ
  unsolved : store'.unsolved ⊂ store.unsolved
  values : ∀ k v, store'.value? k = some v → store.value? k = some v ∨ v = t ∨ v = .unknown id

theorem ensures_setValue_bound (hwf : store.WF) (hs : store.Acyclic) (hid : store.next? id = none)
    (ht : ∀ id', t ≠ .unknown id') (hocc : id ∉ (store.apply t).unknowns) :
    Ensures (Forest.setValue id t) store (fun _ store' ↦ Bound store store' id t)
      (fun _ store' ↦ store.contains id = false ∧ Unchanged store store') := by
  refine (Forest.ensures_setValue hwf id t).mono (fun _ f h ↦ ?_) ?_
  · obtain ⟨hwf', hindex, hmem, -, hval⟩ := h
    have hvalue : store.value? id = some (.unknown id) := by
      obtain ⟨v, hv⟩ := hwf.value?_isSome hmem
      rcases Store.next?_eq_none_iff.1 hid with h | h
      · rw [hv] at h; cases h
      · exact h
    have hsame : ∀ a, ¬ store.Same id a → f.value? a = store.value? a :=
      fun a ha ↦ by rw [hval a, if_neg ha]
    have hnew : ∀ a, store.Same id a → f.value? a = some t := fun a ha ↦ by rw [hval a, if_pos ha]
    have hold : ∀ a, store.Same id a → store.value? a = some (.unknown id) :=
      fun a ha ↦ ha.value?_eq.symm.trans hvalue
    refine ⟨⟨hwf', hindex⟩, Store.acyclic_bind hs hsame hnew hold hid hocc, hocc,
      fun θ ↦ ⟨fun hθ ↦ ⟨?_, ?_⟩, fun ⟨hθ, heq⟩ ↦ ?_⟩, ?_, ?_⟩
    · exact Store.solves_of_bind hsame hnew (fun a ha ↦ ⟨id, .refl hmem, hold a ha⟩) hθ
    · exact hθ id t (hnew id (.refl hmem))
    · exact Store.solves_of_changed hsame hnew (fun a ha ↦ (hθ a _ (hold a ha)).trans heq) hθ
    · refine Finset.ssubset_iff_of_subset (fun k hk ↦ ?_) |>.2 ⟨id, Store.mem_unsolved.2 hvalue, ?_⟩
      · rw [Store.mem_unsolved] at hk ⊢
        by_cases hC : store.Same id k
        · exact absurd (Option.some.inj ((hnew k hC).symm.trans hk)) (ht k)
        · exact (hsame k hC).symm.trans hk
      · rw [Store.mem_unsolved, hnew id (.refl hmem)]
        exact fun h ↦ ht id (Option.some.inj h)
    · intro k v hv
      by_cases hk : store.Same id k
      · exact .inr (.inl (Option.some.inj (hv.symm.trans (hnew k hk))))
      · exact .inl ((hsame k hk).symm.trans hv)
  · rintro _ _ ⟨h, rfl, -⟩
    exact ⟨h, .refl hwf, fun _ ↦ rfl⟩

theorem ensures_union_bound {id' : String} (hwf : store.WF) (hs : store.Acyclic)
    (hid : store.next? id = none) (hid' : store.next? id' = none) (hne : id ≠ id') :
    Ensures (Forest.union Store.preferSolved id id') store
      (fun _ store' ↦ Bound store store' id (.unknown id'))
      (fun _ store' ↦ (store.contains id = false ∨ store.contains id' = false) ∧
        Unchanged store store') := by
  refine (Forest.ensures_union hwf Store.preferSolved id id').mono (fun _ f h ↦ ?_)
    fun _ f h ↦ ⟨h.1.imp (·.1) (·.2.1), ⟨h.2.wf, h.2.index⟩, h.2.value⟩
  obtain ⟨hwf', hindex, -, v, v', hv, hv', hval⟩ := h
  obtain rfl : v = .unknown id := by
    rcases Store.next?_eq_none_iff.1 hid with h | h <;> rw [hv] at h <;> cases h; rfl
  obtain rfl : v' = .unknown id' := by
    rcases Store.next?_eq_none_iff.1 hid' with h | h <;> rw [hv'] at h <;> cases h; rfl
  have hmem := Forest.contains_of_value? hv
  have hmem' := Forest.contains_of_value? hv'
  -- Two unknowns without a solution are not in one class.
  have hsm : ¬ store.Same id id' := by
    intro h
    have h := h.value?_eq
    rw [hv, hv'] at h
    exact hne (Ty.unknown.inj (Option.some.inj h))
  have hsame : ∀ a, ¬ (store.Same id a ∨ store.Same id' a) → f.value? a = store.value? a :=
    fun a ha ↦ by rw [hval a, if_neg (fun h ↦ ha h.2)]
  have hnew : ∀ a, store.Same id a ∨ store.Same id' a → f.value? a = some (.unknown id) :=
    fun a ha ↦ by rw [hval a, if_pos ⟨hsm, ha⟩]; rfl
  have hold : ∀ a, store.Same id a ∨ store.Same id' a →
      store.value? a = some (.unknown id) ∨ store.value? a = some (.unknown id') := fun a ha ↦
    ha.imp (fun h ↦ h.value?_eq.symm.trans hv) fun h ↦ h.value?_eq.symm.trans hv'
  refine ⟨⟨hwf', hindex⟩, Store.acyclic_merge hs hsame hnew hid, ?_,
    fun θ ↦ ⟨fun hθ ↦ ⟨?_, ?_⟩, fun ⟨hθ, heq⟩ ↦ ?_⟩, ?_, ?_⟩
  · rw [Store.apply_unknown_of_none hid']
    simpa using hne
  · refine Store.solves_of_bind hsame hnew (fun a ha ↦ ?_) hθ
    exact (hold a ha).elim (fun h ↦ ⟨id, .inl (.refl hmem), h⟩) fun h ↦ ⟨id', .inr (.refl hmem'), h⟩
  · exact (hθ id' _ (hnew id' (.inr (.refl hmem')))).symm
  · exact Store.solves_of_changed hsame hnew
      (fun a ha ↦ (hold a ha).elim (hθ a _) fun h ↦ (hθ a _ h).trans heq.symm) hθ
  · refine Finset.ssubset_iff_of_subset (fun k hk ↦ ?_) |>.2 ⟨id', Store.mem_unsolved.2 hv', ?_⟩
    · rw [Store.mem_unsolved] at hk ⊢
      by_cases hC : store.Same id k ∨ store.Same id' k
      · obtain rfl : id = k := Ty.unknown.inj (Option.some.inj ((hnew k hC).symm.trans hk))
        exact hv
      · exact (hsame k hC).symm.trans hk
    · rw [Store.mem_unsolved, hnew id' (.inr (.refl hmem'))]
      exact fun h ↦ hne (Ty.unknown.inj (Option.some.inj h))
  · intro k v hv
    by_cases hk : store.Same id k ∨ store.Same id' k
    · exact .inr (.inr (Option.some.inj (hv.symm.trans (hnew k hk))))
    · exact .inl ((hsame k hk).symm.trans hv)

/-- Why an unknown cannot be bound to a type. -/
inductive Refused (store : Store) (e₁ e₂ : Option Mention) (id : String) (t : Ty) : Failure → Prop
  | occurs (h : id ∈ (store.apply t).unknowns) :
    Refused store e₁ e₂ id t (.occurs e₁ e₂ (.unknown id) (store.apply t))
  | missing {k k' : String} (hk' : k' = id ∨ t = .unknown k') (h : store.contains k' = false) :
    Refused store e₁ e₂ id t (.missingUnknown k)

theorem Refused.ne_unbounded {f : Failure} (h : Refused store e₁ e₂ id t f) : f ≠ .unbounded := by
  cases h <;> simp

/-- `bind` for an unknown without a solution and a type that is resolved. -/
theorem ensures_bind_bound (hwf : s.store.WF) (hs : s.store.Acyclic) (hid : s.store.next? id = none)
    (ht : ∀ id', t = .unknown id' → s.store.next? id' = none) :
    Ensures (bind e₁ e₂ id t) s
      (fun w s' ↦ w = s.store.apply t ∧ s'.counter = s.counter ∧ Bound s.store s'.store id t)
      (fun f s' ↦ Refused s.store e₁ e₂ id t f ∧ s'.counter = s.counter ∧
        Unchanged s.store s'.store) := by
  rw [bind]
  simp only [ensures_bind, ensures_applied, ensures_ite]
  refine ⟨fun hsettles ↦ ⟨fun hocc ↦ ensures_fail fun _ ↦ ?_, fun hocc ↦ ?_⟩,
    fun h ↦ absurd (hs.settles t) h⟩
  · exact ⟨.occurs (List.contains_iff_mem.1 hocc), rfl, .refl hwf, fun _ ↦ rfl⟩
  clear hsettles
  replace hocc : id ∉ (s.store.apply t).unknowns := fun h ↦ hocc (List.contains_iff_mem.2 h)
  split
  · rename_i id'
    have hid' := ht id' rfl
    have hne : id ≠ id' := by
      rintro rfl
      rw [Store.apply_unknown_of_none hid'] at hocc
      exact hocc (by simp)
    rw [ensures_bind, ensures_onStore]
    refine (ensures_union_bound hwf hs hid hid' hne).mono (fun _ _ h ↦ ⟨rfl, rfl, h⟩) fun _ _ h ↦ ?_
    exact ⟨h.1.elim (.missing (.inl rfl)) (.missing (.inr rfl)), rfl, h.2⟩
  · rename_i hne
    rw [ensures_bind, ensures_onStore]
    exact (ensures_setValue_bound hwf hs hid hne hocc).mono (fun _ _ h ↦ ⟨rfl, rfl, h⟩)
      fun _ _ h ↦ ⟨.missing (.inl rfl) h.1, rfl, h.2⟩

/-! ## Giving a class another solution -/

/-- The unknowns with `C` have the solution `u`, and the others are as they were. -/
structure Anew (store store' : Store) (C : String → Prop) (u : Ty) : Prop
    extends SameUnknowns store store' where
  classes : ∀ a b, store'.Same a b ↔ store.Same a b
  same : ∀ a, ¬ C a → store'.value? a = store.value? a
  new : ∀ a, C a → store'.value? a = some u

/-- The unknowns in the class of `t`, if `t` is an unknown. -/
def ClassOf (store : Store) (t : Ty) (a : String) : Prop := ∃ id, t = .unknown id ∧ store.Same id a

theorem ensures_solveAnew (hwf : s.store.WF)
    (ht : ∀ id, t = .unknown id → s.store.contains id = true) :
    Ensures (solveAnew t u) s
      (fun _ s' ↦ s'.counter = s.counter ∧ Anew s.store s'.store (ClassOf s.store t) u)
      (fun _ _ ↦ False) := by
  unfold solveAnew
  split
  · rename_i id
    rw [ensures_onStore]
    refine (Forest.ensures_setValue hwf id u).mono (fun _ f h ↦ ?_) fun _ _ h ↦ ?_
    · obtain ⟨hwf', hindex, -, hclasses, hval⟩ := h
      refine ⟨rfl, ⟨hwf', hindex⟩, hclasses, fun a ha ↦ ?_, ?_⟩
      · exact (hval a).trans (if_neg fun h ↦ ha ⟨id, rfl, h⟩)
      · rintro a ⟨_, hid, h⟩
        cases hid
        exact (hval a).trans (if_pos h)
    · exact absurd (ht id rfl) (by simp [h.1])
  · rename_i hne
    refine ⟨rfl, .refl hwf, fun _ _ ↦ .rfl, fun _ _ ↦ rfl, ?_⟩
    rintro a ⟨id, rfl, -⟩
    exact absurd rfl (hne id)

theorem ensures_conclude (hwf : s.store.WF)
    (ht₁ : ∀ id, t₁ = .unknown id → s.store.contains id = true)
    (ht₂ : ∀ id, t₂ = .unknown id → s.store.contains id = true) :
    Ensures (conclude t₁ t₂ u) s
      (fun w s' ↦ s'.counter = s.counter ∧ w = s'.store.apply u ∧ s'.store.settles u = true ∧
        Anew s.store s'.store (fun a ↦ ClassOf s.store t₁ a ∨ ClassOf s.store t₂ a) u)
      (fun f s' ↦ s'.counter = s.counter ∧ f = .unbounded ∧ ¬ s'.store.settles u = true ∧
        Anew s.store s'.store (fun a ↦ ClassOf s.store t₁ a ∨ ClassOf s.store t₂ a) u) := by
  rw [conclude, ensures_bind]
  refine (ensures_solveAnew hwf ht₁).mono (fun _ s₁ ⟨hc₁, h₁⟩ ↦ ?_) fun _ _ ↦ False.elim
  rw [ensures_bind]
  refine (ensures_solveAnew h₁.wf fun id h ↦ (h₁.contains_eq id).trans (ht₂ id h)).mono
    (fun _ s₂ ⟨hc₂, h₂⟩ ↦ ?_) fun _ _ ↦ False.elim
  have hclass : ∀ a, ClassOf s₁.store t₂ a ↔ ClassOf s.store t₂ a := fun a ↦
    exists_congr fun id ↦ and_congr_right fun _ ↦ h₁.classes id a
  have hanew : Anew s.store s₂.store (fun a ↦ ClassOf s.store t₁ a ∨ ClassOf s.store t₂ a) u := by
    refine ⟨h₁.toSameUnknowns.trans h₂.toSameUnknowns,
      fun a b ↦ (h₂.classes a b).trans (h₁.classes a b),
      fun a ha ↦ ?_, fun a ha ↦ ?_⟩
    · rw [h₂.same a fun h ↦ ha (.inr ((hclass a).1 h)), h₁.same a fun h ↦ ha (.inl h)]
    · by_cases ha₂ : ClassOf s₁.store t₂ a
      · exact h₂.new a ha₂
      · rw [h₂.same a ha₂]
        exact h₁.new a (ha.resolve_right fun h ↦ ha₂ ((hclass a).2 h))
  rw [ensures_applied]
  exact ⟨fun h ↦ ⟨hc₂.trans hc₁, rfl, h, hanew⟩, fun h ↦ ⟨hc₂.trans hc₁, rfl, h, hanew⟩⟩

/-! ## One call -/

/-- The cases of one call of `unifyWithin` in an acyclic store. -/
theorem ensures_unifyWithin_succ {depth : Nat} (hs : s.store.Acyclic)
    (equal : s.store.apply t₁ = s.store.apply t₂ → Q (s.store.apply t₁) s)
    (left : s.store.apply t₁ ≠ s.store.apply t₂ → ∀ id, s.store.resolve t₁ = .unknown id →
      Ensures (bind e₁ e₂ id (s.store.resolve t₂)) s Q E)
    (right : s.store.apply t₁ ≠ s.store.apply t₂ → ∀ id, s.store.resolve t₂ = .unknown id →
      Ensures (bind e₁ e₂ id (s.store.resolve t₁)) s Q E)
    (bare : ∀ t, t = s.store.resolve t₁ ∨ t = s.store.resolve t₂ → (∀ id, t ≠ .unknown id) →
      t.tag? = none → E (.uninstantiated t) s)
    (fitsLeft : fitsAll (s.store.resolve t₁) = true → Q (s.store.apply (s.store.resolve t₂)) s)
    (fitsRight : fitsAll (s.store.resolve t₂) = true → Q (s.store.apply (s.store.resolve t₁)) s)
    (promotion : (∀ id, s.store.resolve t₁ ≠ .unknown id) →
      (∀ id, s.store.resolve t₂ ≠ .unknown id) →
      isPromotion (s.store.resolve t₁) (s.store.resolve t₂) = true →
      Ensures (conclude t₁ t₂ integer) s Q E)
    (params : (∀ id, s.store.resolve t₁ ≠ .unknown id) → (∀ id, s.store.resolve t₂ ≠ .unknown id) →
      sameShape (s.store.resolve t₁) (s.store.resolve t₂) = true →
      Ensures (((s.store.resolve t₁).params.zip (s.store.resolve t₂).params).mapM
        fun p ↦ unifyWithin e₁ e₂ depth p.1 p.2) s
        (fun ps s' ↦ Ensures (conclude t₁ t₂ (withParams ps (s.store.resolve t₁))) s' Q E) E)
    (clash : (∀ id, s.store.resolve t₁ ≠ .unknown id) → (∀ id, s.store.resolve t₂ ≠ .unknown id) →
      ¬ isPromotion (s.store.resolve t₁) (s.store.resolve t₂) = true →
      ¬ sameShape (s.store.resolve t₁) (s.store.resolve t₂) = true →
      ∀ error, E (.mismatch e₁ e₂ (s.store.apply t₁) (s.store.apply t₂)) { s with error }) :
    Ensures (unifyWithin e₁ e₂ (depth + 1) t₁ t₂) s Q E := by
  rw [unifyWithin]
  simp only [ensures_bind, ensures_applied, ensures_get, ensures_ite, ensures_pure]
  refine ⟨fun _ ↦ ⟨fun _ ↦ ⟨equal, fun hne ↦ ?_⟩, fun h ↦ absurd (hs.settles t₂) h⟩,
    fun h ↦ absurd (hs.settles t₁) h⟩
  split
  · rename_i id h
    exact left hne id h
  · rename_i id h _
    exact right hne id h
  · rename_i h₁ h₂
    simp only [ensures_bind, ensures_applied, ensures_ite, ensures_pure, ensures_throw,
      Option.isNone_iff_eq_none]
    have happly : ∀ t (P : Prop), P → (s.store.settles t = true → P) ∧
        (¬ s.store.settles t = true → E .unbounded s) :=
      fun t P h ↦ ⟨fun _ ↦ h, fun h ↦ absurd (hs.settles t) h⟩
    refine ⟨bare _ (.inl rfl) h₁, fun _ ↦ ⟨bare _ (.inr rfl) h₂, fun _ ↦
      ⟨fun h ↦ happly _ _ (fitsLeft h), fun _ ↦ ⟨fun h ↦ happly _ _ (fitsRight h), fun _ ↦
        ⟨promotion h₁ h₂, fun hnp ↦ ⟨params h₁ h₂, fun hns ↦ ?_⟩⟩⟩⟩⟩⟩
    exact ensures_fail (clash h₁ h₂ hnp hns)

/-- In an acyclic store `unify` starts with a depth for the types after `apply`. -/
theorem ensures_unify_of_acyclic (hs : s.store.Acyclic)
    (h : Ensures
      (unifyWithin e₁ e₂ (unifyDepth s.store (s.store.apply t₁) (s.store.apply t₂)) t₁ t₂)
      s Q E) : Ensures (unify t₁ t₂ e₁ e₂) s Q E := by
  rw [unify]
  simp only [ensures_bind, ensures_applied, ensures_get]
  exact ⟨fun _ ↦ ⟨fun _ ↦ h, fun h ↦ absurd (hs.settles t₂) h⟩, fun h ↦ absurd (hs.settles t₁) h⟩

/-- An unknown that resolves to another type than an unknown is in the store. -/
theorem contains_of_resolve (ht : ∀ id, store.resolve t ≠ .unknown id) (id : String)
    (h : t = .unknown id) : store.contains id = true := by
  subst h
  obtain ⟨v, hv⟩ := Store.next?_isSome_of_resolve ht
  exact Forest.contains_of_value? (Store.next?_eq_some_iff.1 hv).1

theorem withParams_ne_unknown (ps : List Ty) (h : ∀ id, t ≠ .unknown id) (id : String) :
    withParams ps t ≠ .unknown id := by
  cases t with
  | unknown id' => exact absurd rfl (h id')
  | _ => simp [withParams]

/-! ## All types -/

theorem Anew.acyclic {C : String → Prop} (h : Anew store store' C u) (hs : store.Acyclic)
    (hu : ∀ id, u ≠ .unknown id) (hsettles : store'.settles u = true) : store'.Acyclic := by
  refine hs.of_settles (C := C) (fun a ha ↦ ?_) (fun a ha ↦ ?_) hsettles
  · rw [Store.next?, Store.next?, h.same a ha]
  · exact Store.next?_eq_some_iff.2 ⟨h.new a ha, hu a⟩

theorem Bound.all (h : Bound store store' id t) (hv : store.All P) (hid : P (.unknown id))
    (ht : P t) : store'.All P := by
  intro k v hkv
  rcases h.values k v hkv with hkv | rfl | rfl
  · exact hv k v hkv
  · exact ht
  · exact hid

theorem Anew.all {C : String → Prop} (h : Anew store store' C u) (hv : store.All P) (hu : P u) :
    store'.All P := by
  intro k v hkv
  by_cases hk : C k
  · exact Option.some.inj ((h.new k hk).symm.trans hkv) ▸ hu
  · exact hv k v ((h.same k hk).symm.trans hkv)

/-- The store after a unification of types with `P`. -/
structure Preserved (P : Ty → Prop) (store store' : Store) : Prop
    extends SameUnknowns store store' where
  acyclic : store'.Acyclic
  all : store'.All P

theorem Preserved.trans {store'' : Store} (h : Preserved P store store')
    (h' : Preserved P store' store'') : Preserved P store store'' :=
  ⟨h.toSameUnknowns.trans h'.toSameUnknowns, h'.acyclic, h'.all⟩

/-- Why a unification of types with `P` fails. -/
inductive Reason (P : Ty → Prop) (store : Store) : Failure → Prop
  | diagnosed {f : Failure} (h : f.diagnostic?.isSome) : Reason P store f
  | endless {f : Failure} (h : f.Endless) : Reason P store f
  | missing {k k' : String} (hk' : P (.unknown k')) (h : store.contains k' = false) :
    Reason P store (.missingUnknown k)
  | uninstantiated {r : Ty} (hr : P r) (hne : ∀ id, r ≠ .unknown id) (htag : r.tag? = none) :
    Reason P store (.uninstantiated r)

/-- The store after a unification of types with `P` that has failed with `f`. -/
structure Failed (P : Ty → Prop) (store : Store) (f : Failure) (store' : Store) : Prop
    extends SameUnknowns store store' where
  acyclic_iff : store'.Acyclic ↔ f ≠ .unbounded
  all : store'.All P
  reason : Reason P store f

theorem Preserved.failed {store'' : Store} {f : Failure} (h : Preserved P store store')
    (h' : Failed P store' f store'') : Failed P store f store'' := by
  refine ⟨h.toSameUnknowns.trans h'.toSameUnknowns, h'.acyclic_iff, h'.all, ?_⟩
  cases h'.reason with
  | diagnosed h => exact .diagnosed h
  | endless h => exact .endless h
  | missing hk' hmem => exact .missing hk' ((h.contains_eq _).symm.trans hmem)
  | uninstantiated hr hne htag => exact .uninstantiated hr hne htag

theorem ensures_bind_hereditary (hP : Hereditary P) (hwf : s.store.WF) (hs : s.store.Acyclic)
    (hv : s.store.All P) (hid : s.store.resolve t₁ = .unknown id) (h₁ : P t₁) (h₂ : P t₂) :
    Ensures (bind e₁ e₂ id (s.store.resolve t₂)) s (fun w s' ↦ Preserved P s.store s'.store ∧ P w)
      (fun f s' ↦ Failed P s.store f s'.store) := by
  have hunknown : P (.unknown id) := hid ▸ hv.resolve h₁
  refine (ensures_bind_bound hwf hs (Store.next?_resolve hs hid)
    fun _ ↦ Store.next?_resolve hs).mono ?_ ?_
  · rintro w s' ⟨rfl, -, h⟩
    exact ⟨⟨h.toSameUnknowns, h.acyclic, h.all hv hunknown (hv.resolve h₂)⟩,
      hv.apply hP (hv.resolve h₂)⟩
  · rintro f s' ⟨hrefused, -, h⟩
    refine ⟨h.toSameUnknowns, ⟨fun _ ↦ hrefused.ne_unbounded, fun _ ↦ hs.congr h.values⟩,
      fun k t ht ↦ hv k t ((h.values k).symm.trans ht), ?_⟩
    cases hrefused with
    | occurs => exact .diagnosed rfl
    | missing hk' hmem =>
      refine .missing ?_ hmem
      rcases hk' with rfl | hk'
      · exact hunknown
      · exact hk' ▸ hv.resolve h₂

theorem ensures_conclude_hereditary (hP : Hereditary P) (hwf : s.store.WF) (hs : s.store.Acyclic)
    (hv : s.store.All P) (hu : ∀ id, u ≠ .unknown id) (hPu : P u)
    (ht₁ : ∀ id, t₁ = .unknown id → s.store.contains id = true)
    (ht₂ : ∀ id, t₂ = .unknown id → s.store.contains id = true) :
    Ensures (conclude t₁ t₂ u) s (fun w s' ↦ Preserved P s.store s'.store ∧ P w)
      (fun f s' ↦ Failed P s.store f s'.store) := by
  refine (ensures_conclude hwf ht₁ ht₂).mono ?_ ?_
  · rintro w s' ⟨-, rfl, hsettles, h⟩
    have hv' := h.all hv hPu
    exact ⟨⟨h.toSameUnknowns, h.acyclic hs hu hsettles, hv'⟩, hv'.apply hP hPu⟩
  · rintro f s' ⟨-, rfl, hsettles, h⟩
    exact ⟨h.toSameUnknowns, ⟨fun hs' ↦ absurd (hs'.settles u) hsettles, fun h ↦ absurd rfl h⟩,
      h.all hv hPu, .endless (.inl rfl)⟩

/-- A promotion is between `integer` and `number`. -/
theorem isPromotion_cases (h : isPromotion t₁ t₂ = true) :
    t₁ = integer ∧ t₂ = number ∨ t₁ = number ∧ t₂ = integer := by
  simpa [isPromotion] using h

theorem length_params_of_sameShape {r₁ r₂ : Ty} (h : sameShape r₁ r₂ = true) :
    r₁.params.length = r₂.params.length := by
  cases r₁ <;> cases r₂ <;> simp_all [sameShape, params]

/-- `unifyWithin` keeps the unknowns of the store and a `Hereditary` property of its values.  It
makes a cycle only if it then fails because replacing unknowns does not end. -/
theorem ensures_unifyWithin_hereditary (hP : Hereditary P) (depth : Nat) (hwf : s.store.WF)
    (hs : s.store.Acyclic) (hv : s.store.All P) (h₁ : P t₁) (h₂ : P t₂) :
    Ensures (unifyWithin e₁ e₂ depth t₁ t₂) s (fun w s' ↦ Preserved P s.store s'.store ∧ P w)
      (fun f s' ↦ Failed P s.store f s'.store) := by
  induction depth generalizing s t₁ t₂ with
  | zero => exact ⟨.refl hwf, by simpa using hs, hv, .endless (.inr rfl)⟩
  | succ depth ih =>
    have hrefl : Preserved P s.store s.store := ⟨.refl hwf, hs, hv⟩
    refine ensures_unifyWithin_succ hs ?equal ?left ?right ?bare ?fitsLeft ?fitsRight ?promotion
      ?params ?clash
    case equal => exact fun _ ↦ ⟨hrefl, hv.apply hP h₁⟩
    case left => exact fun _ id hid ↦ ensures_bind_hereditary hP hwf hs hv hid h₁ h₂
    case right => exact fun _ id hid ↦ ensures_bind_hereditary hP hwf hs hv hid h₂ h₁
    case fitsLeft => exact fun _ ↦ ⟨hrefl, hv.apply hP (hv.resolve h₂)⟩
    case fitsRight => exact fun _ ↦ ⟨hrefl, hv.apply hP (hv.resolve h₁)⟩
    case clash => exact fun _ _ _ _ _ ↦ ⟨.refl hwf, by simpa using hs, hv, .diagnosed rfl⟩
    case bare =>
      intro r hr hne htag
      refine ⟨.refl hwf, by simpa using hs, hv, .uninstantiated ?_ hne htag⟩
      rcases hr with rfl | rfl
      · exact hv.resolve h₁
      · exact hv.resolve h₂
    case promotion =>
      intro hr₁ hr₂ h
      refine ensures_conclude_hereditary hP hwf hs hv (by simp [integer]) ?_
        (contains_of_resolve hr₁) (contains_of_resolve hr₂)
      exact (isPromotion_cases h).elim (fun h ↦ h.1 ▸ hv.resolve h₁) fun h ↦ h.2 ▸ hv.resolve h₂
    case params =>
      intro hr₁ hr₂ hshape
      refine (ensures_mapM (I := fun s₁ ↦ Preserved P s.store s₁.store) (Q := fun _ w _ ↦ P w)
        (fun q hq s₁ hs₁ ↦ ?_) hrefl).mono (fun ps s₁ h ↦ ?_) fun _ _ ↦ id
      · have hq₁ := hP.params (hv.resolve h₁) _ (List.of_mem_zip hq).1
        have hq₂ := hP.params (hv.resolve h₂) _ (List.of_mem_zip hq).2
        exact (ih hs₁.wf hs₁.acyclic hs₁.all hq₁ hq₂).mono
          (fun w s₂ h ↦ ⟨hs₁.trans h.1, h.2, fun _ _ ↦ id⟩) fun _ _ ↦ hs₁.failed
      · obtain ⟨hs₁, hps, -⟩ := h
        have hlen : ps.length = (s.store.resolve t₁).params.length := by
          rw [← hps.length_eq, List.length_zip, ← length_params_of_sameShape hshape, Nat.min_self]
        refine (ensures_conclude_hereditary hP hs₁.wf hs₁.acyclic hs₁.all
          (withParams_ne_unknown ps hr₁) (hP.withParams (hv.resolve h₁) hlen fun w hw ↦ ?_)
          (fun id h ↦ ?_) fun id h ↦ ?_).mono
          (fun _ _ h ↦ ⟨hs₁.trans h.1, h.2⟩) fun _ _ ↦ hs₁.failed
        · obtain ⟨q, -, hw⟩ := exists_mem_of_forall₂ hps.flip hw
          exact hw
        · exact (hs₁.contains_eq id).trans (contains_of_resolve hr₁ id h)
        · exact (hs₁.contains_eq id).trans (contains_of_resolve hr₂ id h)

theorem ensures_unify_hereditary (hP : Hereditary P) (e₁ e₂ : Option Mention) (hwf : s.store.WF)
    (hs : s.store.Acyclic) (hv : s.store.All P) (h₁ : P t₁) (h₂ : P t₂) :
    Ensures (unify t₁ t₂ e₁ e₂) s (fun w s' ↦ Preserved P s.store s'.store ∧ P w)
      (fun f s' ↦ Failed P s.store f s'.store) :=
  ensures_unify_of_acyclic hs (ensures_unifyWithin_hereditary hP _ hwf hs hv h₁ h₂)

/-- `unifyWithin` preserves acyclicity, or fails because it has made a cycle. -/
theorem ensures_unifyWithin_acyclic (depth : Nat) (hwf : s.store.WF) (hs : s.store.Acyclic) :
    Ensures (unifyWithin e₁ e₂ depth t₁ t₂) s
      (fun _ s' ↦ SameUnknowns s.store s'.store ∧ s'.store.Acyclic)
      (fun f s' ↦ SameUnknowns s.store s'.store ∧ (s'.store.Acyclic ↔ f ≠ .unbounded)) :=
  (ensures_unifyWithin_hereditary hereditary_true depth hwf hs (fun _ _ _ ↦ trivial) trivial
    trivial).mono (fun _ _ h ↦ ⟨h.1.toSameUnknowns, h.1.acyclic⟩)
    fun _ _ h ↦ ⟨h.toSameUnknowns, h.acyclic_iff⟩

/-- `unify` preserves acyclicity, or fails because it has made a cycle. -/
theorem ensures_unify_acyclic (t₁ t₂ : Ty) (e₁ e₂ : Option Mention) (hwf : s.store.WF)
    (hs : s.store.Acyclic) :
    Ensures (unify t₁ t₂ e₁ e₂) s
      (fun _ s' ↦ SameUnknowns s.store s'.store ∧ s'.store.Acyclic)
      (fun f s' ↦ SameUnknowns s.store s'.store ∧ (s'.store.Acyclic ↔ f ≠ .unbounded)) := by
  exact ensures_unify_of_acyclic hs (ensures_unifyWithin_acyclic _ hwf hs)

/-! ## Types without `any` and the gradual type -/

section solves

variable {p : Node → Prop} (hp : ∀ tag arity, p (.con tag arity) → tag ≠ "Any" ∧ tag ≠ "?")

/-- What unification preserves in a fragment, whether it succeeds or not. -/
structure Advances (p : Node → Prop) (s s' : InferenceState) : Prop where
  counter : s'.counter = s.counter
  unknowns : SameUnknowns s.store s'.store
  acyclic : s'.store.Acyclic
  built : s'.store.Built p
  solves : ∀ θ, s'.store.Solves θ → s.store.Solves θ

theorem Advances.trans {s'' : InferenceState} (h : Advances p s s') (h' : Advances p s' s'') :
    Advances p s s'' :=
  ⟨h'.counter.trans h.counter, h.unknowns.trans h'.unknowns, h'.acyclic, h'.built,
    fun θ hθ ↦ h.solves θ (h'.solves θ hθ)⟩

theorem Unchanged.advances (h : Unchanged s.store s'.store) (hc : s'.counter = s.counter)
    (hs : s.store.Acyclic) (hv : s.store.Built p) : Advances p s s' :=
  ⟨hc, h.toSameUnknowns, hs.congr h.values, fun k t ht ↦ hv k t ((h.values k).symm.trans ht),
    fun _ hθ k t ht ↦ hθ k t ((h.values k).trans ht)⟩

/-- All solutions of the store make `t₁` and `t₂` equal to `w`. -/
def Agree (store : Store) (t₁ t₂ w : Ty) : Prop :=
  ∀ θ, store.Solves θ → t₁.core.fill θ = t₂.core.fill θ ∧ w.core.fill θ = t₁.core.fill θ

theorem ensures_bind_solves (hwf : s.store.WF) (hs : s.store.Acyclic) (hv : s.store.Built p)
    (hid : s.store.resolve t₁ = .unknown id) (h₁ : t₁.Built p) (h₂ : t₂.Built p) :
    Ensures (bind e₁ e₂ id (s.store.resolve t₂)) s
      (fun w s' ↦ Advances p s s' ∧ w.Built p ∧ Agree s'.store t₁ t₂ w)
      (fun f s' ↦ f ≠ .unbounded ∧ Advances p s s') := by
  refine (ensures_bind_bound hwf hs (Store.next?_resolve hs hid)
    fun _ ↦ Store.next?_resolve hs).mono ?_ fun f s' h ↦
      ⟨h.1.ne_unbounded, h.2.2.advances h.2.1 hs hv⟩
  rintro w s' ⟨rfl, hc, h⟩
  refine ⟨⟨hc, h.toSameUnknowns, h.acyclic, h.all hv (hid ▸ hv.resolve h₁) (hv.resolve h₂),
    fun θ hθ ↦ ((h.solves θ).1 hθ).1⟩, hv.apply (hv.resolve h₂), fun θ hθ ↦ ?_⟩
  obtain ⟨hθ, heq⟩ := (h.solves θ).1 hθ
  have ht₁ : t₁.core.fill θ = θ id := by rw [← hθ.fill_resolve t₁, hid]; rfl
  rw [hθ.fill_resolve] at heq
  exact ⟨ht₁.trans heq, by rw [hθ.fill_apply, hθ.fill_resolve, ht₁, heq]⟩

theorem ensures_conclude_solves (hwf : s.store.WF) (hs : s.store.Acyclic) (hv : s.store.Built p)
    (hu : ∀ id, u ≠ .unknown id) (hub : u.Built p)
    (ht₁ : ∀ id, t₁ = .unknown id → s.store.contains id = true)
    (ht₂ : ∀ id, t₂ = .unknown id → s.store.contains id = true) (hagree : Agree s.store t₁ t₂ u) :
    Ensures (conclude t₁ t₂ u) s (fun w s' ↦ Advances p s s' ∧ w.Built p ∧ Agree s'.store t₁ t₂ w)
      (fun _ _ ↦ False) := by
  -- The most general solution already agrees with the new one on the classes that are changed.
  have hclass : ∀ t a, t.core.fill s.store.solution = u.core.fill s.store.solution →
      ClassOf s.store t a → s.store.solution a = u.core.fill s.store.solution := by
    rintro t a ht ⟨id, rfl, hsame⟩
    obtain ⟨v, hv⟩ := hwf.value?_isSome hsame.1
    have hsol := Store.solves_solution hs
    rw [hsol a v (hsame.value?_eq.symm.trans hv), ← ht, ← hsol id v hv]
    rfl
  obtain ⟨h₁₂, h₁⟩ := hagree _ (Store.solves_solution hs)
  have hsol : ∀ a, ClassOf s.store t₁ a ∨ ClassOf s.store t₂ a →
      s.store.solution a = u.core.fill s.store.solution := fun a ha ↦
    ha.elim (hclass t₁ a h₁.symm) (hclass t₂ a (h₁₂.symm.trans h₁.symm))
  refine (ensures_conclude hwf ht₁ ht₂).mono ?_ ?_
  · rintro w s' ⟨hc, rfl, -, h⟩
    have hsolves : ∀ θ, s'.store.Solves θ → s.store.Solves θ := fun θ hθ ↦
      Store.solves_of_solveAnew h.same h.new hu hsol hs hθ
    have hbuilt : s'.store.Built p := h.all hv hub
    refine ⟨⟨hc, h.toSameUnknowns, Store.acyclic_solveAnew h.same h.new hu hsol hs, hbuilt,
      hsolves⟩,
      hbuilt.apply hub, fun θ hθ ↦ ?_⟩
    obtain ⟨h₁₂, h₁⟩ := hagree θ (hsolves θ hθ)
    exact ⟨h₁₂, by rw [hθ.fill_apply, h₁]⟩
  · rintro f s' ⟨-, -, hsettles, h⟩
    exact hsettles ((Store.acyclic_solveAnew h.same h.new hu hsol hs).settles u)

theorem agree_promotion (h : isPromotion (store.resolve t₁) (store.resolve t₂) = true) :
    Agree store t₁ t₂ integer := by
  intro θ hθ
  rw [← hθ.fill_resolve t₁, ← hθ.fill_resolve t₂]
  rcases isPromotion_cases h with ⟨h₁, h₂⟩ | ⟨h₁, h₂⟩ <;> rw [h₁, h₂] <;> exact ⟨rfl, rfl⟩

theorem agree_params {qs rs ps : List Ty} (hlen : qs.length = rs.length)
    (h : List.Forall₂ (fun q w ↦ w.Built p ∧ Agree store q.1 q.2 w) (qs.zip rs) ps) :
    ps.length = qs.length ∧ (∀ w ∈ ps, w.Built p) ∧ ∀ θ, store.Solves θ →
      qs.map (fun t ↦ t.core.fill θ) = rs.map (fun t ↦ t.core.fill θ) ∧
        ps.map (fun t ↦ t.core.fill θ) = qs.map (fun t ↦ t.core.fill θ) := by
  induction qs generalizing rs ps with
  | nil =>
    obtain rfl := List.length_eq_zero_iff.1 hlen.symm
    cases h
    simp
  | cons q qs ih =>
    cases rs with
    | nil => simp at hlen
    | cons r rs =>
      rw [List.zip_cons_cons] at h
      obtain ⟨w, ws, ⟨hw, hagree⟩, hws, rfl⟩ := List.forall₂_cons_left_iff.1 h
      obtain ⟨hl, hb, heq⟩ := ih (by simpa using hlen) hws
      refine ⟨by simp [hl], by simpa using ⟨hw, hb⟩, fun θ hθ ↦ ?_⟩
      simp only [List.map_cons, (heq θ hθ).1, (heq θ hθ).2, (hagree θ hθ).1, (hagree θ hθ).2,
        and_self]

/-- If the parameters agree, so do types of one shape with these parameters. -/
theorem agree_withParams {r₁ r₂ : Ty} {ps : List Ty} (hshape : sameShape r₁ r₂ = true)
    (hr : r₁.Built p)
    (hps : List.Forall₂ (fun q w ↦ w.Built p ∧ Agree store q.1 q.2 w)
      (r₁.params.zip r₂.params) ps) :
    (withParams ps r₁).Built p ∧ Agree store r₁ r₂ (withParams ps r₁) := by
  cases r₁ <;> cases r₂ <;> simp only [sameShape, Bool.false_eq_true, Bool.and_eq_true,
    decide_eq_true_eq] at hshape
  case con.con tag qs tag' rs =>
    obtain ⟨rfl, hlen⟩ := hshape
    obtain ⟨hl, hb, heq⟩ := agree_params hlen hps
    refine ⟨built_con.2 ⟨hl ▸ (built_con.1 hr).1, hb⟩, fun θ hθ ↦ ?_⟩
    simp only [withParams, core_con, fill_con, List.map_map, hl, hlen]
    exact ⟨congrArg _ (heq θ hθ).1, congrArg _ (heq θ hθ).2⟩
  case variadic.variadic min max qs min' max' rs =>
    obtain ⟨hl, hb, heq⟩ := agree_params hshape hps
    refine ⟨built_variadic.2 ⟨hl ▸ (built_variadic.1 hr).1, hb⟩, fun θ hθ ↦ ?_⟩
    simp only [withParams, core_variadic, fill_variadic, List.map_map]
    exact ⟨congrArg _ (heq θ hθ).1, congrArg _ (heq θ hθ).2⟩

include hp

theorem not_fitsAll (h : t.Built p) : ¬ fitsAll t = true := by
  cases t with
  | con tag ps =>
    have := hp tag _ (built_con.1 h).1
    simp [fitsAll, hasTag, tag?, this]
  | _ => simp [fitsAll, hasTag, tag?]

theorem ensures_unifyWithin_solves (depth : Nat) (hwf : s.store.WF) (hs : s.store.Acyclic)
    (hv : s.store.Built p) (h₁ : t₁.Built p) (h₂ : t₂.Built p) :
    Ensures (unifyWithin e₁ e₂ depth t₁ t₂) s
      (fun w s' ↦ Advances p s s' ∧ w.Built p ∧ Agree s'.store t₁ t₂ w)
      (fun f s' ↦ f ≠ .unbounded ∧ Advances p s s') := by
  have hrefl : ∀ {s : InferenceState}, s.store.WF → s.store.Acyclic → s.store.Built p →
      ∀ error, Advances p s { s with error } :=
    fun hwf hs hv _ ↦ ⟨rfl, .refl hwf, hs, hv, fun _ h ↦ h⟩
  induction depth generalizing s t₁ t₂ with
  | zero => exact ⟨by simp, hrefl hwf hs hv _⟩
  | succ depth ih =>
    refine ensures_unifyWithin_succ hs ?equal ?left ?right ?bare ?fitsLeft ?fitsRight ?promotion
      ?params ?clash
    case equal =>
      intro heq
      refine ⟨hrefl hwf hs hv _, hv.apply h₁, fun θ hθ ↦ ⟨?_, hθ.fill_apply t₁⟩⟩
      rw [← hθ.fill_apply t₁, heq, hθ.fill_apply]
    case left => exact fun _ id hid ↦ ensures_bind_solves hwf hs hv hid h₁ h₂
    case right =>
      refine fun _ u hid ↦ (ensures_bind_solves hwf hs hv hid h₂ h₁).mono (fun w s' h ↦ ?_)
        fun _ _ ↦ id
      exact ⟨h.1, h.2.1, fun θ hθ ↦ ⟨(h.2.2 θ hθ).1.symm, (h.2.2 θ hθ).2.trans (h.2.2 θ hθ).1⟩⟩
    case bare => exact fun t _ _ _ ↦ ⟨by simp, hrefl hwf hs hv _⟩
    case clash => exact fun _ _ _ _ error ↦ ⟨by simp, hrefl hwf hs hv error⟩
    case fitsLeft => exact fun h ↦ absurd h (not_fitsAll hp (hv.resolve h₁))
    case fitsRight => exact fun h ↦ absurd h (not_fitsAll hp (hv.resolve h₂))
    case promotion =>
      intro hr₁ hr₂ h
      have hint : integer.Built p :=
        (isPromotion_cases h).elim (fun h ↦ h.1 ▸ hv.resolve h₁) fun h ↦ h.2 ▸ hv.resolve h₂
      exact (ensures_conclude_solves hwf hs hv (by simp [integer]) hint (contains_of_resolve hr₁)
        (contains_of_resolve hr₂) (agree_promotion h)).mono (fun _ _ ↦ id) fun _ _ ↦ False.elim
    case params =>
      intro hr₁ hr₂ hshape
      refine (ensures_mapM (I := Advances p s)
        (Q := fun q w s₁ ↦ w.Built p ∧ Agree s₁.store q.1 q.2 w)
        (fun q hq s₁ hs₁ ↦ ?_) (hrefl hwf hs hv _)).mono (fun ps s₁ h ↦ ?_) fun _ _ ↦ id
      · have hq₁ := (hv.resolve h₁).of_mem_params (List.of_mem_zip hq).1
        have hq₂ := (hv.resolve h₂).of_mem_params (List.of_mem_zip hq).2
        refine (ih hs₁.unknowns.wf hs₁.acyclic hs₁.built hq₁ hq₂).mono (fun w s₂ h ↦ ?_)
          fun _ _ h ↦ ⟨h.1, hs₁.trans h.2⟩
        exact ⟨hs₁.trans h.1, h.2, fun _ _ h' ↦ ⟨h'.1, fun θ hθ ↦ h'.2 θ (h.1.solves θ hθ)⟩⟩
      · obtain ⟨hs₁, hps, -⟩ := h
        obtain ⟨hb, hagree⟩ := agree_withParams hshape (hv.resolve h₁) hps
        refine (ensures_conclude_solves hs₁.unknowns.wf hs₁.acyclic hs₁.built
          (withParams_ne_unknown ps hr₁) hb (fun id h ↦ ?_) (fun id h ↦ ?_) fun θ hθ ↦ ?_).mono
          (fun w s' h ↦ ⟨hs₁.trans h.1, h.2⟩) fun _ _ ↦ False.elim
        · exact (hs₁.unknowns.contains_eq id).trans (contains_of_resolve hr₁ id h)
        · exact (hs₁.unknowns.contains_eq id).trans (contains_of_resolve hr₂ id h)
        · have hθ' := hs₁.solves θ hθ
          rw [← hθ'.fill_resolve t₁, ← hθ'.fill_resolve t₂]
          exact hagree θ hθ

/-- Every solution of the store that `unify` leaves makes the types equal, and solves the store
before. -/
theorem ensures_unify_solves (e₁ e₂ : Option Mention) (hwf : s.store.WF) (hs : s.store.Acyclic)
    (hv : s.store.Built p) (h₁ : t₁.Built p) (h₂ : t₂.Built p) :
    Ensures (unify t₁ t₂ e₁ e₂) s (fun w s' ↦ Advances p s s' ∧ w.Built p ∧ Agree s'.store t₁ t₂ w)
      (fun f s' ↦ f ≠ .unbounded ∧ Advances p s s') := by
  exact ensures_unify_of_acyclic hs (ensures_unifyWithin_solves hp _ hwf hs hv h₁ h₂)

end solves

end SchemeTyping.Infer
