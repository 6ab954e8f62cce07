import SchemeTyping.Proofs.Inference.Unify

/-!
# Unification finds the most general solution

Two inductions on the depth, by the cases of one call, and what follows from them.

## What is here

* `ensures_unifyWithin_closed` — for all types: if the store has all unknowns of the types and of
  its own values, it still has them afterwards, and no unknown is found missing.
* `ensures_unifyWithin_complete` — a solution of the store that makes the two types equal solves the
  store that unification leaves, and unification can only fail by going too deep.
* `ensures_unifyWithin_depth` — it does not go too deep if it starts with a depth above that of the
  types.
* `ensures_unify_complete` — the three together: `unify` succeeds whenever the types can be made
  equal, and excludes no solution.

All but the first are for constructors and unknowns, without `any` and the gradual type.
-/

set_option autoImplicit false

namespace SchemeTyping

open Ty

/-! ## Stores that have their unknowns -/

namespace Store

variable {store : Store} {t q : Ty} {id : String} {ps : List Ty}

/-- The store has all unknowns of `t`. -/
def Registered (store : Store) (t : Ty) : Prop := ∀ id ∈ t.unknowns, store.contains id = true

/-- The store has all unknowns of its values. -/
def Closed (store : Store) : Prop := ∀ k t, store.value? k = some t → store.Registered t

theorem registered_unknown : store.Registered (.unknown id) ↔ store.contains id = true := by
  simp [Registered]

theorem registered_con {tag : String} :
    store.Registered (.con tag ps) ↔ ∀ q ∈ ps, store.Registered q := by
  simp only [Registered, unknowns_con, List.mem_flatMap]
  refine ⟨fun h q hq id hid ↦ h id ⟨q, hq, hid⟩, ?_⟩
  rintro h id ⟨q, hq, hid⟩
  exact h q hq id hid

theorem Registered.params (h : store.Registered t) (hq : q ∈ t.params) : store.Registered q := by
  cases t with
  | con tag ps => exact registered_con.1 h q hq
  | variadic min max ps =>
    exact fun id hid ↦ h id (unknowns_variadic ps min max ▸ List.mem_flatMap.2 ⟨q, hq, hid⟩)
  | _ => cases hq

theorem Registered.withParams (ht : store.Registered t) (hps : ∀ q ∈ ps, store.Registered q) :
    store.Registered (Infer.withParams ps t) := by
  cases t with
  | con tag qs => exact registered_con.2 hps
  | variadic min max qs =>
    intro id hid
    rw [Infer.withParams, unknowns_variadic, List.mem_flatMap] at hid
    obtain ⟨q, hq, hid⟩ := hid
    exact hps q hq id hid
  | _ => exact ht

theorem hereditary_registered (store : Store) : Hereditary store.Registered where
  unknown h _ hid := registered_unknown.2 (h _ hid)
  params h _ := h.params
  withParams h _ := h.withParams
  fill h hθ _ ha := by
    obtain ⟨id, hid, ha⟩ := mem_unknowns_fill.1 ha
    exact hθ id hid _ ha

theorem Closed.apply (hc : store.Closed) (ht : store.Registered t) :
    store.Registered (store.apply t) :=
  All.apply (hereditary_registered store) hc ht

theorem Closed.resolve (hc : store.Closed) (ht : store.Registered t) :
    store.Registered (store.resolve t) :=
  All.resolve hc ht

end Store

namespace Infer

variable {s s' : InferenceState} {store store' : Store} {t t₁ t₂ r₁ r₂ u : Ty} {id : String}
  {e₁ e₂ : Option Mention} {θ : String → Ty} {n : Nat}

theorem SameUnknowns.registered (h : SameUnknowns store store') (ht : store.Registered t) :
    store'.Registered t :=
  fun id hid ↦ (h.contains_eq id).trans (ht id hid)

/-- Unification preserves `Closed`, even when it fails, and no unknown is found missing. -/
theorem ensures_unifyWithin_closed (depth : Nat) (hwf : s.store.WF) (hs : s.store.Acyclic)
    (hc : s.store.Closed) (h₁ : s.store.Registered t₁) (h₂ : s.store.Registered t₂) :
    Ensures (unifyWithin e₁ e₂ depth t₁ t₂) s
      (fun w s' ↦ SameUnknowns s.store s'.store ∧ s'.store.Acyclic ∧ s'.store.Closed ∧
        s'.store.Registered w)
      (fun f s' ↦ s'.store.Closed ∧ ∀ k, f ≠ .missingUnknown k) := by
  have hclosed : ∀ {store : Store}, SameUnknowns s.store store → store.All s.store.Registered →
      store.Closed := fun h hall k t ht ↦ h.registered (hall k t ht)
  refine (ensures_unifyWithin_hereditary (Store.hereditary_registered s.store) depth hwf hs hc h₁
    h₂).mono ?_ ?_
  · rintro w s' ⟨h, hw⟩
    exact ⟨h.toSameUnknowns, h.acyclic, hclosed h.toSameUnknowns h.all, h.registered hw⟩
  · intro f s' h
    refine ⟨hclosed h.toSameUnknowns h.all, ?_⟩
    rintro k rfl
    rcases h.reason with h | h | ⟨hk', h⟩
    · cases h
    · rcases h with h | h <;> cases h
    · exact absurd (Store.registered_unknown.1 hk') (by simp [h])

/-! ## Solutions are kept -/

/-- No solution makes an unknown equal to a larger type in which it occurs. -/
theorem Refused.not_solves {f : Failure} (h : Refused s.store e₁ e₂ id (s.store.resolve t₂) f)
    (hs : s.store.Acyclic) (hid : s.store.resolve t₁ = .unknown id)
    (hmem : s.store.contains id = true) (hreg : s.store.Registered (s.store.resolve t₂))
    (hne : s.store.apply t₁ ≠ s.store.apply t₂) (hθ : s.store.Solves θ) :
    t₁.core.fill θ ≠ t₂.core.fill θ := by
  have happly : ∀ t, s.store.apply (s.store.resolve t) = .unknown id →
      s.store.apply t = .unknown id := fun t h ↦ by
    rw [← core_eq_unknown_iff, Store.core_apply, ← (Store.solves_solution hs).fill_resolve,
      ← Store.core_apply, h, core_unknown]
  have hleft : s.store.apply t₁ = .unknown id :=
    happly t₁ (hid ▸ Store.apply_unknown_of_none (Store.next?_resolve hs hid))
  cases h with
  | missing hk' h =>
    rcases hk' with rfl | hk'
    · exact absurd hmem (by simp [h])
    · exact absurd (Store.registered_unknown.1 (hk' ▸ hreg)) (by simp [h])
  | occurs hocc =>
    intro heq
    have hlt : (θ id).size < ((s.store.apply (s.store.resolve t₂)).core.fill θ).size := by
      refine size_lt_size_fill ((unknowns_core _).symm ▸ hocc) fun h ↦ hne ?_
      rw [hleft, happly t₂ (core_eq_unknown_iff.1 h)]
    rw [hθ.fill_apply, hθ.fill_resolve, ← heq, ← hθ.fill_resolve t₁, hid] at hlt
    exact absurd hlt (Nat.lt_irrefl _)

theorem ensures_bind_complete (hwf : s.store.WF) (hs : s.store.Acyclic) (hc : s.store.Closed)
    (hid : s.store.resolve t₁ = .unknown id) (h₁ : s.store.Registered t₁)
    (h₂ : s.store.Registered t₂) (hne : s.store.apply t₁ ≠ s.store.apply t₂)
    (hθ : s.store.Solves θ) (heq : t₁.core.fill θ = t₂.core.fill θ) :
    Ensures (bind e₁ e₂ id (s.store.resolve t₂)) s (fun _ s' ↦ s'.store.Solves θ)
      (fun _ _ ↦ False) := by
  have hmem : s.store.contains id = true := Store.registered_unknown.1 (hid ▸ hc.resolve h₁)
  refine (ensures_bind_bound hwf hs (Store.next?_resolve hs hid) fun _ ↦
    Store.next?_resolve hs).mono
    (fun w s' h ↦ (h.2.2.solves θ).2 ⟨hθ, ?_⟩)
    fun f s' h ↦ h.1.not_solves hs hid hmem (hc.resolve h₂) hne hθ heq
  rw [hθ.fill_resolve, ← heq, ← hθ.fill_resolve t₁, hid]
  rfl

theorem Anew.solves
    (h : Anew s.store s'.store (fun a ↦ ClassOf s.store t₁ a ∨ ClassOf s.store t₂ a) u)
    (hwf : s.store.WF) (hθ : s.store.Solves θ) (h₁ : t₁.core.fill θ = u.core.fill θ)
    (h₂ : t₂.core.fill θ = u.core.fill θ) : s'.store.Solves θ := by
  have hclass : ∀ t a, t.core.fill θ = u.core.fill θ → ClassOf s.store t a →
      θ a = u.core.fill θ := by
    rintro t a ht ⟨id, rfl, hsame⟩
    obtain ⟨v, hv⟩ := hwf.value?_isSome hsame.1
    rw [hθ a v (hsame.value?_eq.symm.trans hv), ← ht, ← hθ id v hv]
    rfl
  exact Store.solves_of_changed h.same h.new
    (fun a ha ↦ ha.elim (hclass t₁ a h₁) (hclass t₂ a h₂)) hθ

theorem ensures_conclude_complete (hwf : s.store.WF)
    (ht₁ : ∀ id, t₁ = .unknown id → s.store.contains id = true)
    (ht₂ : ∀ id, t₂ = .unknown id → s.store.contains id = true) (hθ : s.store.Solves θ)
    (heq : t₁.core.fill θ = t₂.core.fill θ) (hagree : Agree s.store t₁ t₂ u) :
    Ensures (conclude t₁ t₂ u) s (fun _ s' ↦ s'.store.Solves θ) (fun f _ ↦ f = .unbounded) := by
  refine (ensures_conclude hwf ht₁ ht₂).mono (fun w s' h ↦ ?_) fun f s' h ↦ h.2.1
  have hu := (hagree θ hθ).2
  exact h.2.2.2.solves hwf hθ hu.symm (heq.symm.trans hu.symm)

theorem eq_of_mem_zip {α β : Type} {f : α → β} {as bs : List α} (h : as.map f = bs.map f) :
    ∀ q ∈ as.zip bs, f q.1 = f q.2 := by
  induction as generalizing bs with
  | nil => simp
  | cons a as ih =>
    cases bs with
    | nil => cases h
    | cons b bs =>
      obtain ⟨hab, h⟩ := List.cons.inj h
      rw [List.zip_cons_cons, List.forall_mem_cons]
      exact ⟨hab, ih h⟩

/-- Constructors that can be made equal have one shape, up to integers and numbers. -/
theorem isPromotion_or_sameShape (h₁ : ∀ id, r₁ ≠ .unknown id) (h₂ : ∀ id, r₂ ≠ .unknown id)
    (htag₁ : r₁.tag? ≠ none) (heq : r₁.core.fill θ = r₂.core.fill θ) :
    isPromotion r₁ r₂ = true ∨ sameShape r₁ r₂ = true := by
  cases r₁ with
  | unknown id => exact absurd rfl (h₁ id)
  | var | all => exact absurd rfl htag₁
  | con tag ps =>
    cases r₂ with
    | unknown id => exact absurd rfl (h₂ id)
    | var | variadic | all => simp at heq
    | con tag' qs =>
      rw [core_con, fill_con, core_con, fill_con, con.injEq] at heq
      have hlen : ps.length = qs.length := by simpa using congrArg List.length heq.2
      by_cases htag : tag = tag'
      · simp [sameShape, htag, hlen]
      · left
        have hcore := heq.1
        rw [coreTag, coreTag] at hcore
        split at hcore <;> split at hcore
        · exact absurd (by simp_all) htag
        · rename_i h _
          obtain rfl := List.length_eq_zero_iff.1 h.2
          obtain rfl := List.length_eq_zero_iff.1 (hlen ▸ h.2)
          simp [isPromotion, integer, number, h.1, hcore]
        · rename_i h
          obtain rfl := List.length_eq_zero_iff.1 h.2
          obtain rfl := List.length_eq_zero_iff.1 (hlen.trans h.2)
          simp [isPromotion, integer, number, h.1, hcore]
        · exact absurd hcore htag
  | variadic min max ps =>
    cases r₂ with
    | unknown id => exact absurd rfl (h₂ id)
    | var | con | all => simp at heq
    | variadic min' max' qs =>
      rw [core_variadic, fill_variadic, core_variadic, fill_variadic, variadic.injEq] at heq
      exact .inr (by simpa [sameShape] using congrArg List.length heq.2.2)

/-! ## The depth of the recursion -/

theorem ensures_bind_depth (hwf : s.store.WF) (hs : s.store.Acyclic)
    (hid : s.store.resolve t₁ = .unknown id) (h₂ : s.store.depth t₂ ≤ n) :
    Ensures (bind e₁ e₂ id (s.store.resolve t₂)) s (fun _ s' ↦ Store.KeepsDepth n s.store s'.store)
      (fun f _ ↦ f ≠ .tooDeep) := by
  have hnone := Store.next?_resolve hs hid
  refine (ensures_bind_bound hwf hs hnone fun _ ↦ Store.next?_resolve hs).mono
    (fun w s' ⟨_, _, h⟩ ↦ ?_) fun f s' h ↦ by cases h.1 <;> simp
  exact Store.keepsDepth_of_bind hs h.unsolved hnone h.occurs
    (fun θ hθ heq ↦ (h.solves θ).2 ⟨hθ, heq⟩)
    (Store.depth_resolve hs t₂ ▸ h₂)

theorem ensures_conclude_depth (n : Nat) (hwf : s.store.WF) (hs : s.store.Acyclic)
    (hu : ∀ id, u ≠ .unknown id) (ht₁ : ∀ id, t₁ = .unknown id → s.store.contains id = true)
    (ht₂ : ∀ id, t₂ = .unknown id → s.store.contains id = true) (hagree : Agree s.store t₁ t₂ u) :
    Ensures (conclude t₁ t₂ u) s (fun _ s' ↦ Store.KeepsDepth n s.store s'.store)
      (fun f _ ↦ f ≠ .tooDeep) := by
  refine (ensures_conclude hwf ht₁ ht₂).mono (fun w s' ⟨_, _, _, h⟩ ↦ ?_)
    fun f s' h ↦ by simp [h.2.1]
  obtain ⟨h₁₂, h₁⟩ := hagree _ (Store.solves_solution hs)
  refine Store.keepsDepth_of_solves n (fun k hk ↦ ?_)
    (h.solves hwf (Store.solves_solution hs) h₁.symm (h₁₂.symm.trans h₁.symm))
  rw [Store.mem_unsolved] at hk ⊢
  by_cases hC : ClassOf s.store t₁ k ∨ ClassOf s.store t₂ k
  · exact absurd (Option.some.inj ((h.new k hC).symm.trans hk)) (hu k)
  · exact (h.same k hC).symm.trans hk

theorem depth_lt_unifyDepth (store : Store) (t₁ t₂ : Ty) :
    max (store.depth t₁) (store.depth t₂) < unifyDepth store (store.apply t₁) (store.apply t₂) := by
  have h₁ := store.depth_le t₁
  have h₂ := store.depth_le t₂
  have hsize₁ := size_pos (store.apply t₁)
  have hpow : 0 < Nat.pow 2 store.size := Nat.pow_pos (by omega)
  rw [unifyDepth, show Nat.pow 2 (store.size + 1) = Nat.pow 2 store.size * 2 from rfl]
  generalize Nat.pow 2 store.size = a at *
  have hpos : 0 < a * (store.apply t₁).size := Nat.mul_pos hpow hsize₁
  rw [Nat.mul_add, Nat.mul_right_comm, Nat.mul_right_comm a 2]
  omega

/-! ## All calls -/

section complete

variable {p : Node → Prop} (hp : ∀ tag arity, p (.con tag arity) → tag ≠ "Any" ∧ tag ≠ "?")
  (hbare : ¬ p .var ∧ ¬ p .all)

include hp

/-- Unifying the parameters one by one makes them equal and preserves an invariant of the calls. -/
theorem ensures_params {I : InferenceState → Prop} {E : Failure → InferenceState → Prop}
    {depth : Nat} (hwf : s.store.WF) (hs : s.store.Acyclic) (hv : s.store.Built p) (h₁ : t₁.Built p)
    (h₂ : t₂.Built p) (hshape : sameShape (s.store.resolve t₁) (s.store.resolve t₂) = true)
    (hstep : ∀ q ∈ (s.store.resolve t₁).params.zip (s.store.resolve t₂).params,
      ∀ s₁, Advances p s s₁ →
      I s₁ → Ensures (unifyWithin e₁ e₂ depth q.1 q.2) s₁ (fun _ ↦ I) E) (hI : I s) :
    Ensures (((s.store.resolve t₁).params.zip (s.store.resolve t₂).params).mapM
      fun q ↦ unifyWithin e₁ e₂ depth q.1 q.2) s
      (fun ps s₁ ↦ Advances p s s₁ ∧ I s₁ ∧ (withParams ps (s.store.resolve t₁)).Built p ∧
        Agree s₁.store t₁ t₂ (withParams ps (s.store.resolve t₁))) E := by
  refine (ensures_mapM (I := fun s₁ ↦ Advances p s s₁ ∧ I s₁)
    (Q := fun q w s₁ ↦ w.Built p ∧ Agree s₁.store q.1 q.2 w) (fun q hq s₁ ⟨hs₁, hI₁⟩ ↦ ?_)
    ⟨⟨rfl, .refl hwf, hs, hv, fun _ ↦ id⟩, hI⟩).mono (fun ps s₁ h ↦ ?_) fun _ _ ↦ id
  · have hq₁ := (hv.resolve h₁).of_mem_params (List.of_mem_zip hq).1
    have hq₂ := (hv.resolve h₂).of_mem_params (List.of_mem_zip hq).2
    refine ((ensures_unifyWithin_solves hp depth hs₁.unknowns.wf hs₁.acyclic hs₁.built hq₁ hq₂).and
      (hstep q hq s₁ hs₁ hI₁)).mono (fun w s₂ ⟨h, hI₂⟩ ↦ ?_) fun _ _ ↦ And.right
    exact ⟨⟨hs₁.trans h.1, hI₂⟩, h.2, fun _ _ h' ↦ ⟨h'.1, fun θ hθ ↦ h'.2 θ (h.1.solves θ hθ)⟩⟩
  · obtain ⟨⟨hs₁, hI₁⟩, hps, -⟩ := h
    obtain ⟨hb, hagree⟩ := agree_withParams hshape (hv.resolve h₁) hps
    refine ⟨hs₁, hI₁, hb, fun θ hθ ↦ ?_⟩
    have hθ' := hs₁.solves θ hθ
    rw [← hθ'.fill_resolve t₁, ← hθ'.fill_resolve t₂]
    exact hagree θ hθ

include hbare

/-- A solution that makes the types equal solves the store that unification leaves. -/
theorem ensures_unifyWithin_complete (depth : Nat) (hwf : s.store.WF) (hs : s.store.Acyclic)
    (hc : s.store.Closed) (hv : s.store.Built p) (h₁ : t₁.Built p) (h₂ : t₂.Built p)
    (hr₁ : s.store.Registered t₁) (hr₂ : s.store.Registered t₂) (hθ : s.store.Solves θ)
    (heq : t₁.core.fill θ = t₂.core.fill θ) :
    Ensures (unifyWithin e₁ e₂ depth t₁ t₂) s (fun _ s' ↦ s'.store.Solves θ)
      (fun f _ ↦ f = .tooDeep ∨ f = .unbounded) := by
  induction depth generalizing s t₁ t₂ with
  | zero => exact .inl rfl
  | succ depth ih =>
    have htag : ∀ t : Ty, t.Built p → (∀ id, t ≠ .unknown id) → t.tag? ≠ none := by
      intro t ht hne
      cases t with
      | unknown id => exact absurd rfl (hne id)
      | var => exact absurd (built_var.1 ht) hbare.1
      | all => exact absurd (built_all.1 ht).1 hbare.2
      | con | variadic => simp [tag?]
    have hresolved : (s.store.resolve t₁).core.fill θ = (s.store.resolve t₂).core.fill θ := by
      rw [hθ.fill_resolve, hθ.fill_resolve, heq]
    refine ensures_unifyWithin_succ hs ?equal ?left ?right ?bare ?fitsLeft ?fitsRight ?promotion
      ?params ?clash
    case equal => exact fun _ ↦ hθ
    case left =>
      exact fun hne u hid ↦ (ensures_bind_complete hwf hs hc hid hr₁ hr₂ hne hθ heq).mono
        (fun _ _ ↦ id) fun _ _ ↦ False.elim
    case right =>
      exact fun hne u hid ↦ (ensures_bind_complete hwf hs hc hid hr₂ hr₁ hne.symm hθ heq.symm).mono
        (fun _ _ ↦ id) fun _ _ ↦ False.elim
    case bare =>
      rintro t (rfl | rfl) hne h
      · exact absurd h (htag _ (hv.resolve h₁) hne)
      · exact absurd h (htag _ (hv.resolve h₂) hne)
    case fitsLeft => exact fun h ↦ absurd h (not_fitsAll hp (hv.resolve h₁))
    case fitsRight => exact fun h ↦ absurd h (not_fitsAll hp (hv.resolve h₂))
    case promotion =>
      exact fun hne₁ hne₂ h ↦ (ensures_conclude_complete hwf (contains_of_resolve hne₁)
        (contains_of_resolve hne₂) hθ heq (agree_promotion h)).mono (fun _ _ ↦ id) fun _ _ ↦ .inr
    case params =>
      intro hne₁ hne₂ hshape
      have hparams : ∀ q ∈ (s.store.resolve t₁).params.zip (s.store.resolve t₂).params,
          q.1.core.fill θ = q.2.core.fill θ := by
        refine eq_of_mem_zip (f := fun t : Ty ↦ t.core.fill θ) ?_
        rw [← params_core_fill hne₁, ← params_core_fill hne₂, hresolved]
      refine (ensures_params hp hwf hs hv h₁ h₂ hshape
        (I := fun s₁ ↦ s₁.store.Closed ∧ s₁.store.Solves θ) ?_ ⟨hc, hθ⟩).mono ?_ fun _ _ ↦ id
      · rintro q hq s₁ hs₁ ⟨hc₁, hθ₁⟩
        obtain ⟨hq₁, hq₂⟩ := List.of_mem_zip hq
        have hreg₁ := hs₁.unknowns.registered ((hc.resolve hr₁).params hq₁)
        have hreg₂ := hs₁.unknowns.registered ((hc.resolve hr₂).params hq₂)
        refine ((ensures_unifyWithin_closed depth hs₁.unknowns.wf hs₁.acyclic hc₁ hreg₁ hreg₂).and
          (ih hs₁.unknowns.wf hs₁.acyclic hc₁ hs₁.built ((hv.resolve h₁).of_mem_params hq₁)
            ((hv.resolve h₂).of_mem_params hq₂) hreg₁ hreg₂ hθ₁ (hparams q hq))).mono
          (fun w s₂ h ↦ ⟨h.1.2.2.1, h.2⟩) fun _ _ ↦ And.right
      · rintro ps s₁ ⟨hs₁, ⟨-, hθ₁⟩, -, hagree⟩
        refine (ensures_conclude_complete hs₁.unknowns.wf (fun id h ↦ ?_) (fun id h ↦ ?_) hθ₁ heq
          hagree).mono (fun _ _ ↦ id) fun _ _ ↦ .inr
        · exact (hs₁.unknowns.contains_eq id).trans (contains_of_resolve hne₁ id h)
        · exact (hs₁.unknowns.contains_eq id).trans (contains_of_resolve hne₂ id h)
    case clash =>
      intro hne₁ hne₂ hnp hns
      exact absurd (isPromotion_or_sameShape hne₁ hne₂ (htag _ (hv.resolve h₁) hne₁) hresolved)
        (not_or.2 ⟨hnp, hns⟩)

omit hbare

/-- Unification does not go too deep. -/
theorem ensures_unifyWithin_depth (depth : Nat) (hwf : s.store.WF) (hs : s.store.Acyclic)
    (hv : s.store.Built p) (h₁ : t₁.Built p) (h₂ : t₂.Built p) (hd₁ : s.store.depth t₁ ≤ n)
    (hd₂ : s.store.depth t₂ ≤ n) (hn : n < depth) :
    Ensures (unifyWithin e₁ e₂ depth t₁ t₂) s (fun _ s' ↦ Store.KeepsDepth n s.store s'.store)
      (fun f _ ↦ f ≠ .tooDeep) := by
  induction depth generalizing s t₁ t₂ n with
  | zero => omega
  | succ depth ih =>
    refine ensures_unifyWithin_succ hs ?equal ?left ?right ?bare ?fitsLeft ?fitsRight ?promotion
      ?params ?clash
    case equal | fitsLeft | fitsRight => exact fun _ ↦ .refl n s.store
    case left => exact fun _ id hid ↦ ensures_bind_depth hwf hs hid hd₂
    case right => exact fun _ id hid ↦ ensures_bind_depth hwf hs hid hd₁
    case bare | clash => intros; simp
    case promotion =>
      exact fun hne₁ hne₂ h ↦ ensures_conclude_depth n hwf hs (by simp [integer])
        (contains_of_resolve hne₁) (contains_of_resolve hne₂) (agree_promotion h)
    case params =>
      intro hne₁ hne₂ hshape
      -- The parameters are less deep, and stay so while the ones before them are unified.
      refine (ensures_params hp hwf hs hv h₁ h₂ hshape
        (I := fun s₁ ↦ Store.KeepsDepth (n - 1) s.store s₁.store) (fun q hq s₁ hs₁ hkeep ↦ ?_)
        (.refl _ _)).mono ?_ fun _ _ ↦ id
      · obtain ⟨hq₁, hq₂⟩ := List.of_mem_zip hq
        have hlt₁ := s.store.depth_lt_of_mem_params hq₁
        have hlt₂ := s.store.depth_lt_of_mem_params hq₂
        rw [Store.depth_resolve hs] at hlt₁ hlt₂
        refine (ih hs₁.unknowns.wf hs₁.acyclic hs₁.built ((hv.resolve h₁).of_mem_params hq₁)
          ((hv.resolve h₂).of_mem_params hq₂) (hkeep _ (Nat.le_refl _) _ (by omega))
          (hkeep _ (Nat.le_refl _) _ (by omega)) (by omega)).mono (fun _ _ h ↦ hkeep.trans h)
          fun _ _ ↦ id
      · rintro ps s₁ ⟨hs₁, hkeep, -, hagree⟩
        refine (ensures_conclude_depth n hs₁.unknowns.wf hs₁.acyclic (withParams_ne_unknown ps hne₁)
          (fun id h ↦ ?_) (fun id h ↦ ?_) hagree).mono
          (fun _ _ h ↦ (hkeep.mono (Nat.sub_le n 1)).trans h) fun _ _ ↦ id
        · exact (hs₁.unknowns.contains_eq id).trans (contains_of_resolve hne₁ id h)
        · exact (hs₁.unknowns.contains_eq id).trans (contains_of_resolve hne₂ id h)

include hbare

/-- **Unification is complete.**  If a solution of the store makes two types equal, `unify`
succeeds, and the solution solves the store that it leaves. -/
theorem ensures_unify_complete (e₁ e₂ : Option Mention) (hwf : s.store.WF) (hs : s.store.Acyclic)
    (hc : s.store.Closed) (hv : s.store.Built p) (h₁ : t₁.Built p) (h₂ : t₂.Built p)
    (hr₁ : s.store.Registered t₁) (hr₂ : s.store.Registered t₂) (hθ : s.store.Solves θ)
    (heq : t₁.core.fill θ = t₂.core.fill θ) :
    Ensures (unify t₁ t₂ e₁ e₂) s
      (fun w s' ↦ s'.store.Closed ∧ s'.store.Registered w ∧ s'.store.Solves θ)
        (fun _ _ ↦ False) := by
  refine ensures_unify_of_acyclic hs ?_
  have hlt := depth_lt_unifyDepth s.store t₁ t₂
  refine (((ensures_unifyWithin_solves hp _ hwf hs hv h₁ h₂).and
    (ensures_unifyWithin_closed _ hwf hs hc hr₁ hr₂)).and
    ((ensures_unifyWithin_complete hp hbare _ hwf hs hc hv h₁ h₂ hr₁ hr₂ hθ heq).and
      (ensures_unifyWithin_depth hp _ hwf hs hv h₁ h₂ (Nat.le_max_left _ _) (Nat.le_max_right _ _)
        hlt))).mono (fun w s' h ↦ ⟨h.1.2.2.2.1, h.1.2.2.2.2, h.2.1⟩) fun f s' h ↦ ?_
  exact h.2.1.elim h.2.2 h.1.1.1

end complete

end Infer

end SchemeTyping
