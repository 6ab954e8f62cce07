import Mathlib.Algebra.Group.End
import Mathlib.Order.CompleteBooleanAlgebra
import Mathlib.Order.CompletePartialOrder
import SchemeTyping.Proofs.Inference.Parallel

/-!
# Renaming the ids of unknowns

Inference does not depend on the ids of unknowns, only on which of them are equal.  `Twin ρ f g`
says of two stores that `g` is `f` with its unknowns renamed by a permutation `ρ` of the ids.
`apply`, `resolve` and `unify` commute with the renaming (`relates_unify`).
-/

set_option autoImplicit false

namespace SchemeTyping

open Ty

/-! ## Stores -/

namespace Store

variable {ρ ρ' : Equiv.Perm String} {f g : Store}

/-- `g` is `f` with its unknowns renamed by `ρ`. -/
structure Twin (ρ : Equiv.Perm String) (f g : Store) : Prop where
  size : g.size = f.size
  same : ∀ a b, g.Same (ρ a) (ρ b) ↔ f.Same a b
  value : ∀ a, g.value? (ρ a) = (f.value? a).map (mapUnknowns ρ)

theorem Twin.refl (f : Store) : Twin 1 f f := by
  refine ⟨rfl, fun _ _ ↦ .rfl, fun a ↦ ?_⟩
  have hself : mapUnknowns (1 : Equiv.Perm String) = id := funext fill_self
  rw [hself, Option.map_id, Equiv.Perm.one_apply, id]

theorem Twin.contains (h : Twin ρ f g) (a : String) : g.contains (ρ a) = f.contains a := by
  rw [Bool.eq_iff_iff]
  exact ⟨fun ha ↦ ((h.same a a).1 (.refl ha)).1, fun ha ↦ ((h.same a a).2 (.refl ha)).1⟩

theorem Twin.next? (h : Twin ρ f g) (a : String) :
    g.next? (ρ a) = (f.next? a).map (mapUnknowns ρ) := by
  rw [Store.next?, Store.next?, h.value a]
  cases f.value? a with
  | none => rfl
  | some v =>
    have hv : v.mapUnknowns ρ = .unknown (ρ a) ↔ v = .unknown a :=
      (mapUnknowns_injective ρ).eq_iff (b := .unknown a)
    simp only [Option.map_some, hv]
    split <;> rfl

theorem Twin.applyWithin (h : Twin ρ f g) (depth : Nat) (t : Ty) :
    g.applyWithin depth (t.mapUnknowns ρ) = (f.applyWithin depth t).mapUnknowns ρ := by
  induction depth generalizing t with
  | zero => rfl
  | succ depth ih =>
    rw [Store.applyWithin, Store.applyWithin, mapUnknowns, mapUnknowns, fill_fill, fill_fill]
    refine fill_congr fun k _ ↦ ?_
    rw [fill_unknown, h.next? k]
    cases f.next? k with
    | none => rfl
    | some v => exact ih v

theorem Twin.apply (h : Twin ρ f g) (t : Ty) :
    g.apply (t.mapUnknowns ρ) = (f.apply t).mapUnknowns ρ := by
  rw [Store.apply, Store.apply, h.size, h.applyWithin]

theorem Twin.settlesWithin (h : Twin ρ f g) (depth : Nat) (t : Ty) :
    g.settlesWithin depth (t.mapUnknowns ρ) = f.settlesWithin depth t := by
  induction depth generalizing t with
  | zero => rfl
  | succ depth ih =>
    rw [Store.settlesWithin, Store.settlesWithin, unknowns_mapUnknowns, List.all_map]
    congr 1
    funext k
    rw [Function.comp_apply, h.next? k]
    cases f.next? k with
    | none => rfl
    | some v => exact ih v

theorem Twin.settles (h : Twin ρ f g) (t : Ty) : g.settles (t.mapUnknowns ρ) = f.settles t := by
  rw [Store.settles, Store.settles, h.size, h.settlesWithin]

theorem Twin.resolveWithin (h : Twin ρ f g) (steps : Nat) (t : Ty) :
    g.resolveWithin steps (t.mapUnknowns ρ) = (f.resolveWithin steps t).mapUnknowns ρ := by
  induction steps generalizing t with
  | zero => rfl
  | succ steps ih =>
    cases t with
    | unknown id =>
      rw [mapUnknowns_unknown, Store.resolveWithin, Store.resolveWithin, h.next? id]
      cases f.next? id with
      | none => rfl
      | some v => exact ih v
    | _ => rfl

theorem Twin.resolve (h : Twin ρ f g) (t : Ty) :
    g.resolve (t.mapUnknowns ρ) = (f.resolve t).mapUnknowns ρ := by
  rw [Store.resolve, Store.resolve, h.size, h.resolveWithin]

/-- The unknowns of types that differ by a relabelling correspond. -/
theorem Twin.mem_unknowns_apply_relabel (h : Twin ρ f g) {V : String → String}
    {k : String} {S : Ty} :
    ρ k ∈ (g.apply (S.relabel V ρ)).unknowns ↔ k ∈ (f.apply S).unknowns := by
  have hid : ∀ a, ρ k ∈ (g.apply (.unknown (ρ a))).unknowns ↔ k ∈ (f.apply (.unknown a)).unknowns :=
    fun a ↦ by
    rw [← mapUnknowns_unknown, h.apply, unknowns_mapUnknowns, List.mem_map_of_injective ρ.injective]
  rw [Store.apply_eq_fill, Store.apply_eq_fill, mem_unknowns_fill, mem_unknowns_fill,
    unknowns_relabel]
  simp only [List.mem_map, exists_exists_and_eq_and, hid]

theorem contains_of_same {a b : String} (h : f.Same a b) :
    f.contains a = true ∧ f.contains b = true := by
  obtain ⟨r, ha, hb⟩ := Forest.same_iff.1 h
  exact ⟨Forest.contains_of_rep? ha, Forest.contains_of_rep? hb⟩

/-- `Twin` depends on `ρ` only at the unknowns of the store. -/
theorem Twin.congr (h : Twin ρ f g) (hf : f.Closed) (hρ : ∀ k, f.contains k = true → ρ' k = ρ k) :
    Twin ρ' f g := by
  have hcontains : ∀ a, g.contains (ρ' a) = f.contains a := by
    intro a
    refine Bool.eq_iff_iff.2 ⟨fun ha ↦ ?_, fun ha ↦ by rwa [hρ a ha, h.contains]⟩
    have hmem : f.contains (ρ.symm (ρ' a)) = true := by rwa [← h.contains, ρ.apply_symm_apply]
    have heq := hρ _ hmem
    rw [ρ.apply_symm_apply] at heq
    rwa [ρ'.injective heq] at hmem
  refine ⟨h.size, fun a b ↦ ?_, fun a ↦ ?_⟩
  · by_cases hab : f.contains a = true ∧ f.contains b = true
    · rw [hρ a hab.1, hρ b hab.2, h.same]
    · refine iff_of_false (fun h' ↦ hab ?_) fun h' ↦ hab (contains_of_same h')
      rw [← hcontains, ← hcontains]
      exact contains_of_same h'
  · cases ha : f.value? a with
    | none =>
      refine Option.eq_none_iff_forall_ne_some.2 fun v hv ↦ ?_
      have hmem := (hcontains a).symm.trans (Forest.contains_of_value? hv)
      rw [hρ a hmem, h.value, ha] at hv
      cases hv
    | some v =>
      rw [hρ a (Forest.contains_of_value? ha), h.value, ha, Option.map_some, Option.map_some]
      exact congrArg some (mapUnknowns_congr fun k hk ↦ (hρ k (hf a v ha k hk)).symm)

theorem size_add {k : String} (h : f.contains k = false) (v : Ty) :
    (f.add k v).size = f.size + 1 := by
  have hk : k ∉ f.index.keys := fun hk ↦ by
    rw [← OrdMap.isSome_get?_iff] at hk
    rw [Forest.contains, OrdMap.contains, hk] at h
    cases h
  rw [Forest.size, Forest.size, Forest.add, OrdMap.size, OrdMap.insert, OrdMap.put_of_notMem hk,
    List.length_append]
  rfl

/-- `Twin` after an unknown is added to both stores. -/
theorem Twin.add (h : Twin ρ f g) (hf : f.WF) (hg : g.WF) {k : String} (hk : f.contains k = false) :
    Twin ρ (f.add k (.unknown k)) (g.add (ρ k) (.unknown (ρ k))) := by
  refine ⟨?_, fun a b ↦ ?_, fun a ↦ ?_⟩
  · rw [size_add hk, size_add ((h.contains k).trans hk), h.size]
  · rw [Forest.same_add hf, Forest.same_add hg, h.same]
    simp only [ne_eq, ρ.injective.eq_iff]
  · rw [(Forest.value?_add hf k _).2, (Forest.value?_add hg (ρ k) _).2, h.value]
    simp only [ρ.injective.eq_iff]
    split <;> rfl

end Store

/-! ## Steps -/

namespace Infer

variable {ρ : Equiv.Perm String} {α β α' β' : Type} {S : α → β → Prop} {S' : α' → β' → Prop}
  {s t : InferenceState} {a b : Ty} {e₁ e₂ e₁' e₂' : Option Mention}

/-- The state `t` is `s` with its unknowns renamed, as far as the rules look at it. -/
structure Twins (ρ : Equiv.Perm String) (s t : InferenceState) : Prop where
  wf_left : s.store.WF
  wf_right : t.store.WF
  stores : Store.Twin ρ s.store t.store
  counter : t.counter = s.counter
  numbered_left : Numbered s
  numbered_right : Numbered t

theorem Twins.congr {s' t' : InferenceState} (h : Twins ρ s t)
    (hs : s'.store = s.store ∧ s'.counter = s.counter)
    (ht : t'.store = t.store ∧ t'.counter = t.counter) : Twins ρ s' t' := by
  obtain ⟨hwl, hwr, hstores, hcounter, hnl, hnr⟩ := h
  refine ⟨hs.1 ▸ hwl, ht.1 ▸ hwr, hs.1 ▸ ht.1 ▸ hstores, by rw [ht.2, hs.2, hcounter],
    ⟨?_, ?_⟩, ⟨?_, ?_⟩⟩
  · rw [hs.1, hs.2]
    exact hnl.given
  · rw [hs.1]
    exact hnl.nodup
  · rw [ht.1, ht.2]
    exact hnr.given
  · rw [ht.1]
    exact hnr.nodup

/-- From states that are `Twins`, the two steps match, with results related by `S`. -/
def Relates (ρ : Equiv.Perm String) (S : α → β → Prop) (x : Infer α) (y : Infer β) : Prop :=
  ∀ s t, Twins ρ s t → Matches (fun _ : Unit ↦ Twins ρ) (fun _ ↦ S) () x y s t

/-- `b` is `a` with its unknowns renamed. -/
def Relabels (ρ : String → String) (a b : Ty) : Prop := b = a.mapUnknowns ρ

theorem relates_pure {a : α} {b : β} (h : S a b) : Relates ρ S (pure a) (pure b) :=
  fun _ _ hst ↦ matches_pure hst h

theorem relates_throw {f g : Failure} (h : f.SameKind g) :
    Relates ρ S (throw f : Infer α) (throw g : Infer β) :=
  fun _ _ _ ↦ matches_throw h

theorem relates_fail_bind {f g : Failure} {next : α → Infer α'} {next' : β → Infer β'}
    (h : f.SameKind g) : Relates ρ S' (fail f >>= next) (fail g >>= next') :=
  fun _ _ _ ↦ (matches_fail (S := fun _ _ _ ↦ False) h).bind fun _ _ _ _ _ _ _ ↦ False.elim

theorem relates_throw_bind {f g : Failure} {next : α → Infer α'} {next' : β → Infer β'}
    (h : f.SameKind g) :
    Relates ρ S' (throw f >>= next) (throw g >>= next') := fun _ _ _ ↦ h

theorem Relates.bind {x : Infer α} {y : Infer β} {f : α → Infer α'} {g : β → Infer β'}
    (hxy : Relates ρ S x y) (hfg : ∀ a b, S a b → Relates ρ S' (f a) (g b)) :
    Relates ρ S' (x >>= f) (y >>= g) :=
  fun s t hst ↦ (hxy s t hst).bind fun _ s' t' a b _ hst' hab ↦ hfg a b hab s' t' hst'

theorem relates_ite {c c' : Prop} [Decidable c] [Decidable c'] {x x' : Infer α} {y y' : Infer β}
    (hc : c ↔ c') (hx : c → Relates ρ S x y) (hy : ¬ c → Relates ρ S x' y') :
    Relates ρ S (if c then x else x') (if c' then y else y') :=
  fun s t hst ↦ matches_ite hc (fun h ↦ hx h s t hst) fun h ↦ hy h s t hst

theorem relates_get {f g : InferenceState → Infer α} {S : α → α → Prop}
    (h : ∀ s t, Twins ρ s t → Matches (fun _ : Unit ↦ Twins ρ) (fun _ ↦ S) () (f s) (g t) s t) :
    Relates ρ S (get >>= f) (get >>= g) := h

theorem relates_mapM {γ δ : Type} {P : γ → δ → Prop} {f : γ → Infer α} {g : δ → Infer β}
    {l : List γ} {l' : List δ} (hl : List.Forall₂ P l l')
    (h : ∀ c d, P c d → Relates ρ S (f c) (g d)) :
    Relates ρ (List.Forall₂ S) (l.mapM f) (l'.mapM g) := by
  induction hl with
  | nil => exact relates_pure .nil
  | cons hcd _ ih =>
    rw [List.mapM_cons, List.mapM_cons]
    exact (h _ _ hcd).bind fun a b hab ↦ ih.bind fun as bs hs ↦ relates_pure (.cons hab hs)

theorem relates_tell (event event' : Event) :
    Relates ρ (fun _ _ ↦ True) (tell event) (tell event') :=
  fun _ _ hst ↦ ⟨(), le_rfl, hst.congr ⟨rfl, rfl⟩ ⟨rfl, rfl⟩, trivial⟩

theorem relates_applied (hab : Relabels ρ a b) :
    Relates ρ (Relabels ρ) (applied a) (applied b) := by
  cases hab
  intro s t hst
  rw [applied, applied]
  refine relates_get (fun s t hst ↦ ?_) s t hst
  exact matches_ite (by rw [hst.stores.settles]) (fun _ ↦ matches_pure hst (hst.stores.apply a))
    fun _ ↦ matches_throw rfl

/-- The operations on stores match on stores that are twins. -/
def OpRelates (ρ : Equiv.Perm String) (op op' : Forest.Op String Ty Unit) : Prop :=
  ∀ {f g : Store}, f.WF → g.WF → Store.Twin ρ f g →
    (∃ f' g', op.run f = (.ok (), f') ∧ op'.run g = (.ok (), g') ∧ f'.WF ∧ g'.WF ∧
      f'.index = f.index ∧ g'.index = g.index ∧ Store.Twin ρ f' g') ∨
    ∃ id id' f' g', op.run f = (.error id, f') ∧ op'.run g = (.error id', g')

theorem Numbered.of_index (h : Numbered s) {store : Store} (hindex : store.index = s.store.index) :
    Numbered { s with store } :=
  ⟨fun k hk ↦ h.given k (by rwa [Forest.contains, ← hindex]), hindex ▸ h.nodup⟩

theorem run_onStore_ok {op : Forest.Op String Ty α} {a : α} {f : Store}
    (h : op.run s.store = (.ok a, f)) : (onStore op).run s = (.ok a, { s with store := f }) := by
  rw [onStore, run_get_bind, h]
  rfl

theorem run_onStore_error {op : Forest.Op String Ty α} {id : String} {f : Store}
    (h : op.run s.store = (.error id, f)) :
    (onStore op).run s = (.error (.missingUnknown id), { s with store := f }) := by
  rw [onStore, run_get_bind, h]
  rfl

theorem relates_onStore {op op' : Forest.Op String Ty Unit} (hop : OpRelates ρ op op') :
    Relates ρ (fun _ _ ↦ True) (onStore op) (onStore op') := by
  intro s t hst
  rcases hop hst.wf_left hst.wf_right hst.stores with
    ⟨f, g, hf, hg, hwf, hwg, hif, hig, htwin⟩ | ⟨id, id', f, g, hf, hg⟩
  · rw [Matches, run_onStore_ok hf, run_onStore_ok hg]
    exact ⟨(), le_rfl, ⟨hwf, hwg, htwin, hst.counter, hst.numbered_left.of_index hif,
      hst.numbered_right.of_index hig⟩, trivial⟩
  · rw [Matches, run_onStore_error hf, run_onStore_error hg]
    rfl

/-- Two operations that succeed on the same stores and whose effects correspond. -/
theorem opRelates_of_ensures {op op' : Forest.Op String Ty Unit} {Q Q' : Store → Store → Prop}
    {E E' : Store → Prop}
    (hop : ∀ f : Store, f.WF → Ensures op f (fun _ f' ↦ Q f f') (fun _ _ ↦ E f))
    (hop' : ∀ g : Store, g.WF → Ensures op' g (fun _ g' ↦ Q' g g') (fun _ _ ↦ E' g))
    (hok : ∀ f g f' g', Store.Twin ρ f g → Q f f' → Q' g g' → f'.WF ∧ g'.WF ∧
      f'.index = f.index ∧ g'.index = g.index ∧ Store.Twin ρ f' g')
    (hleft : ∀ f g f', Store.Twin ρ f g → Q f f' → ¬ E' g)
    (hright : ∀ f g g', Store.Twin ρ f g → Q' g g' → ¬ E f) : OpRelates ρ op op' := by
  intro f g hf hg h
  have hf := hop f hf
  have hg := hop' g hg
  rw [Ensures] at hf hg
  revert hf hg
  rcases op.run f with ⟨k | u, f'⟩ <;> rcases op'.run g with ⟨k' | u', g'⟩
  · exact fun _ _ ↦ .inr ⟨k, k', f', g', rfl, rfl⟩
  · exact fun hE hQ ↦ absurd hE (hright f g g' h hQ)
  · exact fun hQ hE ↦ absurd hE (hleft f g f' h hQ)
  · exact fun hQ hQ' ↦ .inl ⟨f', g', rfl, rfl, hok f g f' g' h hQ hQ'⟩

theorem size_eq_of_index {f g f' g' : Store} (h : Store.Twin ρ f g) (hf : f'.index = f.index)
    (hg : g'.index = g.index) : g'.size = f'.size := by
  rw [Forest.size, Forest.size, hf, hg]
  exact h.size

theorem opRelates_setValue (k : String) (v : Ty) :
    OpRelates ρ (Forest.setValue k v) (Forest.setValue (ρ k) (v.mapUnknowns ρ)) := by
  refine opRelates_of_ensures
    (fun f hf ↦ (Forest.ensures_setValue hf k v).mono (fun _ _ ↦ id) fun _ _ ↦ And.left)
    (fun g hg ↦ (Forest.ensures_setValue hg (ρ k) (v.mapUnknowns ρ)).mono (fun _ _ ↦ id)
      fun _ _ ↦ And.left)
    ?_ ?_ ?_
  · rintro f g f' g' h ⟨hwf, hindex, -, hsame, hval⟩ ⟨hwf', hindex', -, hsame', hval'⟩
    refine ⟨hwf, hwf', hindex, hindex', size_eq_of_index h hindex hindex', fun a b ↦ ?_, fun a ↦ ?_⟩
    · rw [hsame, hsame', h.same]
    · rw [hval, hval']
      simp only [h.same, h.value]
      split <;> rfl
  · rintro f g f' h ⟨-, -, hmem, -⟩ hE
    simp [h.contains k, hmem] at hE
  · rintro f g g' h ⟨-, -, hmem, -⟩ hE
    simp [h.contains k, hE] at hmem

theorem preferSolved_mapUnknowns (v v' : Ty) :
    Store.preferSolved (v.mapUnknowns ρ) (v'.mapUnknowns ρ) =
      (Store.preferSolved v v').mapUnknowns ρ := by
  cases v <;> cases v' <;> rfl

theorem opRelates_union (k k' : String) :
    OpRelates ρ (Forest.union Store.preferSolved k k')
      (Forest.union Store.preferSolved (ρ k) (ρ k')) := by
  refine opRelates_of_ensures
    (fun f hf ↦ (Forest.ensures_union hf Store.preferSolved k k').mono (fun _ _ ↦ id) fun _ _ h ↦
      show f.contains k = false ∨ f.contains k' = false from h.1.imp And.left fun h ↦ h.2.1)
    (fun g hg ↦ (Forest.ensures_union hg Store.preferSolved (ρ k) (ρ k')).mono (fun _ _ ↦ id)
      fun _ _ h ↦
      show g.contains (ρ k) = false ∨ g.contains (ρ k') = false from h.1.imp And.left fun h ↦ h.2.1)
    ?_ ?_ ?_
  · rintro f g f' g' h ⟨hwf, hindex, hsame, v, v', hv, hv', hval⟩
      ⟨hwf', hindex', hsame', u, u', hu, hu', hval'⟩
    rw [h.value, hv, Option.map_some, Option.some.injEq] at hu
    rw [h.value, hv', Option.map_some, Option.some.injEq] at hu'
    subst hu hu'
    refine ⟨hwf, hwf', hindex, hindex', size_eq_of_index h hindex hindex', fun a b ↦ ?_, fun a ↦ ?_⟩
    · rw [hsame, hsame', h.same, h.same, h.same, h.same, h.same]
    · rw [hval, hval', preferSolved_mapUnknowns]
      simp only [h.same, h.value]
      split <;> rfl
  · rintro f g f' h ⟨-, -, -, v, v', hv, hv', -⟩ hE
    simp [h.contains, Forest.contains_of_value? hv, Forest.contains_of_value? hv'] at hE
  · rintro f g g' h ⟨-, -, -, v, v', hv, hv', -⟩ hE
    rw [← h.contains, ← h.contains] at hE
    simp [Forest.contains_of_value? hv, Forest.contains_of_value? hv'] at hE

theorem relates_bind (k : String) (a : Ty) :
    Relates ρ (Relabels ρ) (Infer.bind e₁ e₂ k a) (Infer.bind e₁' e₂' (ρ k) (a.mapUnknowns ρ)) := by
  rw [Infer.bind, Infer.bind]
  refine (relates_applied rfl).bind ?_
  rintro c _ rfl
  have hcontains : c.unknowns.contains k = true ↔
      (c.mapUnknowns ρ).unknowns.contains (ρ k) = true := by
    simp [unknowns_mapUnknowns]
  refine relates_ite hcontains (fun _ ↦ relates_fail_bind rfl) fun _ ↦ ?_
  have hrest : Relates ρ (Relabels ρ)
      (do tell (.unified (.unknown k) c); return c)
      (do tell (.unified (.unknown (ρ k)) (c.mapUnknowns ρ)); return c.mapUnknowns ρ) :=
    (relates_tell _ _).bind fun _ _ _ ↦ relates_pure rfl
  cases a with
  | unknown k' => exact (relates_onStore (opRelates_union k k')).bind fun _ _ _ ↦ hrest
  | _ => exact (relates_onStore (opRelates_setValue k _)).bind fun _ _ _ ↦ hrest

theorem relates_solveAnew (a u : Ty) :
    Relates ρ (fun _ _ ↦ True) (solveAnew a u) (solveAnew (a.mapUnknowns ρ) (u.mapUnknowns ρ)) := by
  cases a with
  | unknown k =>
    rw [mapUnknowns_unknown, solveAnew, solveAnew]
    exact relates_onStore (opRelates_setValue k u)
  | _ => exact relates_pure trivial

theorem relates_conclude (a b u : Ty) :
    Relates ρ (Relabels ρ) (conclude a b u)
      (conclude (a.mapUnknowns ρ) (b.mapUnknowns ρ) (u.mapUnknowns ρ)) := by
  rw [conclude, conclude]
  exact (relates_solveAnew a u).bind fun _ _ _ ↦
    (relates_solveAnew b u).bind fun _ _ _ ↦ relates_applied rfl

/-! ## Unification -/

/-- The last branch of `unifyWithin`: the types differ, and neither is an unknown. -/
def meet (e₁ e₂ : Option Mention) (depth : Nat) (t₁ t₂ a₁ a₂ r₁ r₂ : Ty) : Infer Ty := do
  if r₁.tag?.isNone then throw (.uninstantiated r₁)
  if r₂.tag?.isNone then throw (.uninstantiated r₂)
  if fitsAll r₁ then return ← applied r₂
  if fitsAll r₂ then return ← applied r₁
  let unified ←
    if isPromotion r₁ r₂ then pure integer
    else if sameShape r₁ r₂ then do
      let params ← (r₁.params.zip r₂.params).mapM fun p ↦ unifyWithin e₁ e₂ depth p.1 p.2
      pure (withParams params r₁)
    else fail (.mismatch e₁ e₂ a₁ a₂)
  conclude t₁ t₂ unified

theorem unifyWithin_succ (e₁ e₂ : Option Mention) (depth : Nat) (t₁ t₂ : Ty) :
    unifyWithin e₁ e₂ (depth + 1) t₁ t₂ = (do
      let a₁ ← applied t₁
      let a₂ ← applied t₂
      if a₁ = a₂ then return a₁
      let store := (← get).store
      match store.resolve t₁, store.resolve t₂ with
      | .unknown id, r₂ => Infer.bind e₁ e₂ id r₂
      | r₁, .unknown id => Infer.bind e₁ e₂ id r₁
      | r₁, r₂ => meet e₁ e₂ depth t₁ t₂ a₁ a₂ r₁ r₂) := by
  rw [unifyWithin]
  rfl

theorem fitsAll_mapUnknowns (a : Ty) : fitsAll (a.mapUnknowns ρ) = fitsAll a := by
  rw [fitsAll, fitsAll, hasTag_mapUnknowns, hasTag_mapUnknowns]

theorem isPromotion_mapUnknowns (a b : Ty) :
    isPromotion (a.mapUnknowns ρ) (b.mapUnknowns ρ) = isPromotion a b := by
  have hinteger : ∀ t : Ty, t.mapUnknowns ρ = integer ↔ t = integer := fun t ↦
    (mapUnknowns_injective ρ).eq_iff (b := integer)
  have hnumber : ∀ t : Ty, t.mapUnknowns ρ = number ↔ t = number := fun t ↦
    (mapUnknowns_injective ρ).eq_iff (b := number)
  simp only [isPromotion, hinteger, hnumber]

theorem sameShape_mapUnknowns (a b : Ty) :
    sameShape (a.mapUnknowns ρ) (b.mapUnknowns ρ) = sameShape a b := by
  cases a <;> cases b <;> simp [sameShape, mapUnknowns]

theorem withParams_mapUnknowns {ps qs : List Ty} (h : List.Forall₂ (Relabels ρ) ps qs) (a : Ty) :
    withParams qs (a.mapUnknowns ρ) = (withParams ps a).mapUnknowns ρ := by
  have hqs : qs = ps.map (mapUnknowns ρ) := by
    induction h with
    | nil => rfl
    | cons h _ ih => rw [List.map_cons, ← ih, h]
  subst hqs
  cases a with
  | con | variadic => simp [withParams]
  | _ => rfl

theorem relates_unifyWithin (depth : Nat) (a b : Ty) :
    Relates ρ (Relabels ρ) (unifyWithin e₁ e₂ depth a b)
      (unifyWithin e₁' e₂' depth (a.mapUnknowns ρ) (b.mapUnknowns ρ)) := by
  induction depth generalizing a b with
  | zero => exact relates_throw rfl
  | succ depth ih =>
    -- What is done with two types that are not unknown.
    have hmeet : ∀ c d r r', Relates ρ (Relabels ρ) (meet e₁ e₂ depth a b c d r r')
        (meet e₁' e₂' depth (a.mapUnknowns ρ) (b.mapUnknowns ρ) (c.mapUnknowns ρ) (d.mapUnknowns ρ)
          (r.mapUnknowns ρ) (r'.mapUnknowns ρ)) := by
      intro c d r r'
      rw [meet, meet, tag?_mapUnknowns, tag?_mapUnknowns, fitsAll_mapUnknowns, fitsAll_mapUnknowns,
        isPromotion_mapUnknowns, sameShape_mapUnknowns]
      refine relates_ite .rfl (fun _ ↦ relates_throw_bind rfl) fun _ ↦ ?_
      refine relates_ite .rfl (fun _ ↦ relates_throw_bind rfl) fun _ ↦ ?_
      refine relates_ite .rfl (fun _ ↦ relates_applied rfl) fun _ ↦ ?_
      refine relates_ite .rfl (fun _ ↦ relates_applied rfl) fun _ ↦ ?_
      have hconclude : ∀ u v, Relabels ρ u v → Relates ρ (Relabels ρ) (conclude a b u)
          (conclude (a.mapUnknowns ρ) (b.mapUnknowns ρ) v) := by
        rintro u _ rfl
        exact relates_conclude a b u
      refine relates_ite .rfl (fun _ ↦ hconclude integer integer rfl) fun _ ↦ ?_
      refine relates_ite .rfl (fun _ ↦ ?_) fun _ ↦ relates_fail_bind rfl
      have hzip : List.Forall₂ (fun p q ↦ q = (p.1.mapUnknowns ρ, p.2.mapUnknowns ρ))
        (r.params.zip r'.params)
          ((r.mapUnknowns ρ).params.zip (r'.mapUnknowns ρ).params) := by
        rw [params_mapUnknowns, params_mapUnknowns, List.zip_map, List.forall₂_map_right_iff,
          List.forall₂_same]
        exact fun _ _ ↦ rfl
      refine (relates_mapM (S := Relabels ρ) hzip ?_).bind fun ps qs hps ↦
        hconclude _ _ (withParams_mapUnknowns hps r)
      rintro p _ rfl
      exact ih p.1 p.2
    rw [unifyWithin_succ, unifyWithin_succ]
    refine (relates_applied rfl).bind ?_
    rintro c _ rfl
    refine (relates_applied rfl).bind ?_
    rintro d _ rfl
    refine relates_ite (mapUnknowns_injective ρ).eq_iff.symm (fun _ ↦ relates_pure rfl) fun _ ↦ ?_
    refine relates_get fun s t hst ↦ ?_
    dsimp only
    rw [hst.stores.resolve, hst.stores.resolve]
    generalize s.store.resolve a = r, s.store.resolve b = r'
    cases r with
    | unknown k => exact relates_bind k r' s t hst
    | _ =>
      cases r' with
      | unknown k => exact relates_bind k _ s t hst
      | _ => exact hmeet c d _ _ s t hst

theorem relates_unify (a b : Ty) :
    Relates ρ (Relabels ρ) (unify a b e₁ e₂)
      (unify (a.mapUnknowns ρ) (b.mapUnknowns ρ) e₁' e₂') := by
  rw [unify, unify]
  refine (relates_applied rfl).bind ?_
  rintro c _ rfl
  refine (relates_applied rfl).bind ?_
  rintro d _ rfl
  refine relates_get fun s t hst ↦ ?_
  have hdepth :
      unifyDepth t.store (c.mapUnknowns ρ) (d.mapUnknowns ρ) = unifyDepth s.store c d := by
    rw [unifyDepth, unifyDepth, hst.stores.size, size_mapUnknowns, size_mapUnknowns]
  rw [hdepth]
  exact relates_unifyWithin _ a b s t hst

end Infer

end SchemeTyping
