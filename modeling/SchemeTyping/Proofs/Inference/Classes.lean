import SchemeTyping.Proofs.Inference.Lockstep
import SchemeTyping.Proofs.Inference.Unify.Equality
import SchemeTyping.Proofs.Inference.Unify.MostGeneral

/-!
# Unknowns that were made equal

`unify` puts two unknowns in one class if neither has a solution.  If one of them has, the other
gets a copy of it, and if both have solutions that are equal already, nothing happens.  Classes are
never split (`Merges`), so unknowns of one class keep having the same solution.  Copies can come
apart: where an integer is unified with a number, it replaces the number in one class, and the copy
in the other class stays.

## What is here

* `Later`, `Tracked.after` — later calls only add equations and merge classes.  So unknowns that
  were unified stay equal up to integers and numbers, whether they share a class or not.
* `apply_eq_of_unified` — they stay equal if they had no solutions when they were unified, or if
  integers and numbers do not both occur.
-/

set_option autoImplicit false

namespace SchemeTyping

open Ty

/-- `retag g` does not change a type if `g` changes none of its tags. -/
theorem Ty.retag_eq_self {g : String → Nat → String} {p : Node → Prop} {t : Ty} (ht : t.Built p)
    (hg : ∀ tag n, p (.con tag n) → g tag n = tag) : t.retag g = t := by
  induction t with
  | var | unknown => rfl
  | con tag ps ih =>
    obtain ⟨hn, hps⟩ := built_con.1 ht
    rw [retag_con, hg tag _ hn, List.map_congr_left fun q hq ↦ ih q hq (hps q hq), List.map_id']
  | variadic min max ps ih =>
    rw [retag_variadic, List.map_congr_left fun q hq ↦ ih q hq ((built_variadic.1 ht).2 q hq),
      List.map_id']
  | all bound body ih => exact congrArg (all bound) (ih (built_all.1 ht).2)

namespace Store

variable {store store' : Store} {x y r : String}

theorem same_symm (h : store.Same x y) : store.Same y x := by
  obtain ⟨i, hx, hy⟩ := Forest.same_iff.1 h
  exact Forest.same_iff.2 ⟨i, hy, hx⟩

theorem same_trans {z : String} (h : store.Same x y) (h' : store.Same y z) : store.Same x z :=
  ⟨h.1, h.2.trans h'.2⟩

/-- Unknowns of one class have the same type. -/
theorem apply_eq_of_same (hwf : store.WF) (hs : store.Acyclic) (h : store.Same x y) :
    store.apply (.unknown x) = store.apply (.unknown y) := by
  obtain ⟨v, hv⟩ := hwf.value?_isSome h.1
  -- An unknown is replaced by the value of its class, unless it is that value.
  have hvalue : ∀ k, store.value? k = some v → store.apply (.unknown k) = store.apply v := by
    intro k hk
    by_cases hkv : v = .unknown k
    · rw [hkv]
    · exact apply_unknown hs (next?_eq_some_iff.2 ⟨hk, hkv⟩)
  rw [hvalue x hv, hvalue y (h.value?_eq.symm.trans hv)]

/-- The value of a class without a solution is one of its own unknowns. -/
def Led (store : Store) : Prop := ∀ k r, store.value? k = some (.unknown r) → store.Same k r

/-- An unknown `x` whose type is an unknown `r` is in one class with it. -/
theorem Led.same_of_apply (h : store.Led) (hs : store.Acyclic)
    (hx : store.contains x = true) (hr : store.apply (.unknown x) = .unknown r) :
    store.Same x r ∧ store.resolve (.unknown x) = .unknown r := by
  cases hnext : store.next? x with
  | none =>
    obtain rfl : x = r := unknown.inj ((apply_unknown_of_none hnext).symm.trans hr)
    exact ⟨.refl hx, by rw [resolve, resolveWithin, hnext]⟩
  | some v =>
    rw [apply_unknown hs hnext] at hr
    -- The value of the class is an unknown, and then the one that the class has as its value.
    obtain ⟨r', rfl⟩ : ∃ r', v = .unknown r' := by
      cases v with
      | unknown r' => exact ⟨r', rfl⟩
      | var | all => cases hr
      | con | variadic =>
        rw [apply_eq_fill] at hr
        simp at hr
    have hval := (next?_eq_some_iff.1 hnext).1
    have hsame := h x r' hval
    have hlast : store.next? r' = none :=
      next?_eq_none_iff.2 (.inr (hsame.value?_eq.symm.trans hval))
    obtain rfl : r' = r := unknown.inj ((apply_unknown_of_none hlast).symm.trans hr)
    refine ⟨hsame, ?_⟩
    rw [resolve, resolveWithin, hnext]
    cases store.size with
    | zero => rfl
    | succ n => simp only [resolveWithin, hlast]

end Store

namespace Infer

variable {s s' s'' : InferenceState} {store store' : Store} {t t₁ t₂ u w : Ty} {x y id : String}
  {e₁ e₂ : Option Mention} {c : Call} {calls : List Call}

/-! ## Classes are merged -/

/-- Classes are merged, and a class without a solution still has one of its own unknowns for a
value. -/
structure Merges (store store' : Store) : Prop extends SameUnknowns store store' where
  classes : ∀ a b, store.Same a b → store'.Same a b
  led : store'.Led

theorem Merges.trans {store'' : Store} (h : Merges store store') (h' : Merges store' store'') :
    Merges store store'' :=
  ⟨h.toSameUnknowns.trans h'.toSameUnknowns,
    fun a b hab ↦ h'.classes a b (h.classes a b hab), h'.led⟩

theorem Merges.refl (hwf : store.WF) (hled : store.Led) : Merges store store :=
  ⟨.refl hwf, fun _ _ ↦ id, hled⟩

theorem Anew.merges {C : String → Prop} (h : Anew store store' C u) (hled : store.Led)
    (hu : ∀ id, u ≠ .unknown id) : Merges store store' := by
  refine ⟨h.toSameUnknowns, fun a b ↦ (h.classes a b).2, fun k r hk ↦ (h.classes k r).2 ?_⟩
  by_cases hC : C k
  · exact absurd (Option.some.inj ((h.new k hC).symm.trans hk)) (hu r)
  · exact hled k r ((h.same k hC).symm.trans hk)

theorem ensures_setValue_merges (hwf : store.WF) (hled : store.Led) (ht : ∀ id', t ≠ .unknown id') :
    Ensures (Forest.setValue id t) store (fun _ store' ↦ Merges store store')
      (fun _ store' ↦ Merges store store') := by
  refine (Forest.ensures_setValue hwf id t).mono ?_ ?_
  · rintro _ f ⟨hwf', hindex, -, hclasses, hval⟩
    refine ⟨⟨hwf', hindex⟩, fun a b ↦ (hclasses a b).2, fun k r hk ↦ (hclasses k r).2 ?_⟩
    rw [hval k] at hk
    split at hk
    · exact absurd (Option.some.inj hk) (ht r)
    · exact hled k r hk
  · rintro _ _ ⟨-, rfl, -⟩
    exact .refl hwf hled

theorem ensures_union_merges {id' : String} (hwf : store.WF) (hled : store.Led) :
    Ensures (Forest.union Store.preferSolved id id') store
      (fun _ store' ↦ Merges store store' ∧ store'.Same id id')
        (fun _ store' ↦ Merges store store') := by
  refine (Forest.ensures_union hwf Store.preferSolved id id').mono ?_ ?_
  · rintro _ f ⟨hwf', hindex, hclasses, v, v', hv, hv', hval⟩
    have hid : store.Same id id := .refl (Forest.contains_of_value? hv)
    have hid' : store.Same id' id' := .refl (Forest.contains_of_value? hv')
    refine ⟨⟨⟨hwf', hindex⟩, fun a b h ↦ (hclasses a b).2 (.inl h), fun k r hk ↦ ?_⟩,
      (hclasses id id').2 (.inr ⟨.inl hid, .inr hid'⟩)⟩
    rw [hval k] at hk
    split at hk
    · rename_i h
      -- The new value is an unknown only if both values are, and then it is the first one.
      have hvr : v = .unknown r := by
        cases v <;> cases v' <;> simp_all [Store.preferSolved]
      exact (hclasses k r).2 (.inr ⟨h.2, .inl (hled id r (hvr ▸ hv))⟩)
    · exact (hclasses k r).2 (.inl (hled k r hk))
  · rintro _ f ⟨-, h⟩
    refine ⟨⟨h.wf, h.index⟩, fun _ _ ↦ h.same_iff.2, fun k r hk ↦ h.same_iff.2 (hled k r ?_)⟩
    exact (h.value k).symm.trans hk

theorem ensures_bind_merges (hwf : s.store.WF) (hs : s.store.Acyclic) (hled : s.store.Led) :
    Ensures (bind e₁ e₂ id t) s
      (fun _ s' ↦ Merges s.store s'.store ∧ ∀ id', t = .unknown id' → s'.store.Same id id')
      (fun _ s' ↦ Merges s.store s'.store) := by
  rw [bind]
  simp only [ensures_bind, ensures_applied, ensures_ite]
  refine ⟨fun _ ↦ ⟨fun _ ↦ ensures_fail fun _ ↦ .refl hwf hled, fun _ ↦ ?_⟩,
    fun h ↦ absurd (hs.settles t) h⟩
  split
  · rename_i id'
    rw [ensures_bind, ensures_onStore]
    refine (ensures_union_merges hwf hled).mono (fun _ _ h ↦ ⟨h.1, ?_⟩) fun _ _ h ↦ h
    rintro _ ⟨⟩
    exact h.2
  · rename_i hne
    rw [ensures_bind, ensures_onStore]
    exact (ensures_setValue_merges hwf hled hne).mono
      (fun _ _ h ↦ ⟨h, fun id' h' ↦ absurd h' (hne id')⟩)
      fun _ _ h ↦ h

theorem ensures_conclude_merges (hwf : s.store.WF) (hled : s.store.Led) (hu : ∀ id, u ≠ .unknown id)
    (ht₁ : ∀ id, t₁ = .unknown id → s.store.contains id = true)
    (ht₂ : ∀ id, t₂ = .unknown id → s.store.contains id = true) :
    Ensures (conclude t₁ t₂ u) s (fun _ s' ↦ Merges s.store s'.store)
      (fun _ s' ↦ Merges s.store s'.store) :=
  (ensures_conclude hwf ht₁ ht₂).mono (fun _ _ h ↦ h.2.2.2.merges hled hu)
    fun _ _ h ↦ h.2.2.2.merges hled hu

/-- Unification does not split classes. -/
theorem ensures_unifyWithin_merges (depth : Nat) (hwf : s.store.WF) (hs : s.store.Acyclic)
    (hled : s.store.Led) :
    Ensures (unifyWithin e₁ e₂ depth t₁ t₂) s (fun _ s' ↦ Merges s.store s'.store)
      (fun _ s' ↦ Merges s.store s'.store) := by
  induction depth generalizing s t₁ t₂ with
  | zero => exact .refl hwf hled
  | succ depth ih =>
    refine ensures_unifyWithin_succ hs ?equal ?left ?right ?bare ?fitsLeft ?fitsRight ?promotion
      ?params ?clash
    case equal | fitsLeft | fitsRight => exact fun _ ↦ .refl hwf hled
    case left | right =>
      exact fun _ _ _ ↦ (ensures_bind_merges hwf hs hled).mono (fun _ _ h ↦ h.1) fun _ _ ↦ id
    case bare => exact fun _ _ _ _ ↦ .refl hwf hled
    case clash => exact fun _ _ _ _ _ ↦ .refl hwf hled
    case promotion =>
      exact fun hr₁ hr₂ _ ↦
        ensures_conclude_merges hwf hled (by simp [integer]) (contains_of_resolve hr₁)
        (contains_of_resolve hr₂)
    case params =>
      intro hr₁ hr₂ _
      refine (ensures_mapM (I := fun s₁ ↦ Merges s.store s₁.store ∧ s₁.store.Acyclic)
        (Q := fun _ _ _ ↦ True) (fun q _ s₁ hs₁ ↦ ?_) ⟨.refl hwf hled, hs⟩).mono (fun ps s₁ h ↦ ?_)
        fun _ _ ↦ id
      · refine ((ih hs₁.1.wf hs₁.2 hs₁.1.led).and
          (ensures_unifyWithin_acyclic depth hs₁.1.wf hs₁.2)).mono
          (fun w s₂ h ↦ ?_) fun _ _ h ↦ hs₁.1.trans h.1
        exact ⟨⟨hs₁.1.trans h.1, h.2.2⟩, trivial, fun _ _ ↦ id⟩
      · obtain ⟨⟨hmerges, -⟩, -⟩ := h
        refine (ensures_conclude_merges hmerges.wf hmerges.led (withParams_ne_unknown ps hr₁)
          (fun id h ↦ ?_) fun id h ↦ ?_).mono (fun _ _ ↦ hmerges.trans) fun _ _ ↦ hmerges.trans
        · exact (hmerges.contains_eq id).trans (contains_of_resolve hr₁ id h)
        · exact (hmerges.contains_eq id).trans (contains_of_resolve hr₂ id h)

/-- The type of `x` is an unknown. -/
def Open (store : Store) (x : String) : Prop := ∃ r, store.apply (.unknown x) = .unknown r

/-- Unification puts two open unknowns in one class. -/
theorem ensures_unify_open (hwf : s.store.WF) (hs : s.store.Acyclic) (hled : s.store.Led)
    (hcx : s.store.contains x = true) (hcy : s.store.contains y = true) (hx : Open s.store x)
    (hy : Open s.store y) :
    Ensures (unify (.unknown x) (.unknown y) e₁ e₂) s (fun _ s' ↦ s'.store.Same x y)
      (fun _ _ ↦ True) := by
  obtain ⟨r, hx⟩ := hx
  obtain ⟨r', hy⟩ := hy
  obtain ⟨hxr, hrx⟩ := hled.same_of_apply hs hcx hx
  obtain ⟨hyr, hry⟩ := hled.same_of_apply hs hcy hy
  refine ensures_unify_of_acyclic hs ?_
  cases unifyDepth s.store (s.store.apply (.unknown x)) (s.store.apply (.unknown y)) with
  | zero => trivial
  | succ depth =>
    refine ensures_unifyWithin_succ hs ?equal ?left ?right ?bare ?fitsLeft ?fitsRight ?promotion
      ?params ?clash
    case equal =>
      intro h
      obtain rfl : r = r' := unknown.inj (hx.symm.trans (h.trans hy))
      exact Store.same_trans hxr (Store.same_symm hyr)
    case left =>
      intro _ id hid
      obtain rfl : id = r := unknown.inj (hid.symm.trans hrx)
      refine (ensures_bind_merges hwf hs hled).mono (fun _ s' h ↦ ?_) fun _ _ _ ↦ trivial
      exact Store.same_trans (h.1.classes _ _ hxr)
        (Store.same_trans (h.2 r' hry) (Store.same_symm (h.1.classes _ _ hyr)))
    case right =>
      intro _ id hid
      obtain rfl : id = r' := unknown.inj (hid.symm.trans hry)
      refine (ensures_bind_merges hwf hs hled).mono (fun _ s' h ↦ ?_) fun _ _ _ ↦ trivial
      exact Store.same_trans (h.1.classes _ _ hxr)
        (Store.same_symm (Store.same_trans (h.1.classes _ _ hyr) (h.2 r hrx)))
    case fitsLeft => exact fun h ↦ absurd h (by simp [hrx, fitsAll, hasTag, tag?])
    case fitsRight => exact fun h ↦ absurd h (by simp [hry, fitsAll, hasTag, tag?])
    case promotion | params => exact fun h ↦ absurd hrx (h r)
    case bare | clash => intros; trivial

/-! ## Later calls -/

/-- The invariant of calls on concrete types, with what is known of classes and of numbers. -/
structure Tracked (s : InferenceState) : Prop extends ConcreteState s where
  numbered : Numbered s
  led : s.store.Led

/-- What calls do to the store: they add equations and merge classes. -/
structure Later (s s' : InferenceState) : Prop where
  solves : ∀ θ, s'.store.Solves θ → s.store.Solves θ
  classes : ∀ a b, s.store.Same a b → s'.store.Same a b

theorem Later.trans (h : Later s s') (h' : Later s' s'') : Later s s'' :=
  ⟨fun θ hθ ↦ h.solves θ (h'.solves θ hθ), fun a b hab ↦ h'.classes a b (h.classes a b hab)⟩

theorem tracked_initial : Tracked .initial :=
  ⟨concreteState_initial, ⟨fun _ hk ↦ absurd hk nofun, List.nodup_nil⟩,
    fun k _ hk ↦ absurd ((value?_initial k).symm.trans hk) nofun⟩

/-- A new unknown is in a class of its own. -/
theorem Tracked.newUnknown (hs : Tracked s) (stem : String) :
    Tracked ((newUnknown stem).run s).2 ∧ Later s ((newUnknown stem).run s).2 := by
  have hnew := hs.numbered.contains_new stem
  have hconcrete := hs.toConcreteState.newUnknown stem
  have hnumbered := hs.numbered.newUnknown stem (.unknown (stem ++ "#" ++ toString (s.counter + 1)))
  rw [run_newUnknown] at hconcrete ⊢
  generalize stem ++ "#" ++ toString (s.counter + 1) = id at hnew hconcrete hnumbered ⊢
  have hsame := Forest.same_add hs.wf id (.unknown id)
  have hval := (Forest.value?_add hs.wf id (.unknown id)).2
  have hne : ∀ {k}, s.store.contains k = true → id ≠ k := by
    rintro k hk rfl
    rw [hnew] at hk
    cases hk
  have hclasses : ∀ a b, s.store.Same a b → (s.store.add id (.unknown id)).Same a b := fun a b h ↦
    (hsame a b).2 (.inr ⟨hne h.1, hne (Store.same_symm h).1, h⟩)
  refine ⟨⟨hconcrete, hnumbered, fun k r hk ↦ ?_⟩, fun θ hθ k t ht ↦ hθ k t ?_, hclasses⟩
  · rw [hval k] at hk
    split at hk
    · obtain rfl := unknown.inj (Option.some.inj hk)
      exact (hsame k id).2 (.inl ⟨‹id = k›, rfl⟩)
    · exact hclasses k r (hs.led k r hk)
  · rw [hval k, if_neg (hne (Forest.contains_of_value? ht)), ht]

theorem Tracked.unify (hs : Tracked s) (e₁ e₂ : Option Mention) (h₁ : Over s.store t₁)
    (h₂ : Over s.store t₂) :
    Tracked ((unify t₁ t₂ e₁ e₂).run s).2 ∧ Later s ((unify t₁ t₂ e₁ e₂).run s).2 := by
  have hconcrete : ConcreteState ((Call.unify t₁ t₂ e₁ e₂).perform.run s).2 :=
    hs.toConcreteState.perform (by simpa [Call.types] using ⟨h₁, h₂⟩)
  have hmerges : Ensures (Infer.unify t₁ t₂ e₁ e₂) s (fun _ s' ↦ Merges s.store s'.store)
      (fun _ s' ↦ Merges s.store s'.store) :=
    ensures_unify_of_acyclic hs.acyclic (ensures_unifyWithin_merges _ hs.wf hs.acyclic hs.led)
  have hstep :=
    (ensures_unify_solves concrete_tags e₁ e₂ hs.wf hs.acyclic hs.built h₁.1 h₂.1).and hmerges
  -- Whether it succeeds or fails, it keeps the unknowns and adds equations and larger classes.
  have htracked : ∀ {s'}, ConcreteState s' → Advances Node.Concrete s s' → Merges s.store s'.store →
      Tracked s' ∧ Later s s' := by
    intro s' hs' hadv hm
    refine ⟨⟨hs', ⟨fun k hk ↦ ?_, hadv.unknowns.index ▸ hs.numbered.nodup⟩, hm.led⟩, hadv.solves,
      hm.classes⟩
    rw [hadv.unknowns.contains_eq] at hk
    rw [hadv.counter]
    exact hs.numbered.given k hk
  rw [Call.perform] at hconcrete
  rcases hrun : (Infer.unify t₁ t₂ e₁ e₂).run s with ⟨f | w, s'⟩ <;> rw [hrun] at hconcrete
  · obtain ⟨⟨-, hadv⟩, hm⟩ := (ensures_error hrun).1 hstep
    exact htracked hconcrete hadv hm
  · obtain ⟨⟨hadv, -⟩, hm⟩ := (ensures_ok hrun).1 hstep
    exact htracked hconcrete hadv hm

theorem Tracked.perform (hs : Tracked s) (hc : ∀ t ∈ c.types, Over s.store t) :
    Tracked (c.perform.run s).2 ∧ Later s (c.perform.run s).2 := by
  cases c with
  | newUnknown stem => exact hs.newUnknown stem
  | unify t₁ t₂ e₁ e₂ =>
    exact hs.unify e₁ e₂ (hc t₁ (by simp [Call.types])) (hc t₂ (by simp [Call.types]))

/-- Calls only add equations and merge classes. -/
theorem Tracked.after (hs : Tracked s) (hc : ConcreteCalls s calls) :
    Tracked (after s calls) ∧ Later s (after s calls) := by
  induction calls generalizing s with
  | nil => exact ⟨hs, fun _ ↦ id, fun _ _ ↦ id⟩
  | cons c calls ih =>
    obtain ⟨hs₁, hlater⟩ := hs.perform hc.1
    exact (ih hs₁ hc.2).imp_right hlater.trans

theorem concreteCalls_append {later : List Call} :
    ConcreteCalls s (calls ++ later) ↔
    ConcreteCalls s calls ∧ ConcreteCalls (after s calls) later := by
  induction calls generalizing s with
  | nil => simp [ConcreteCalls, after]
  | cons c calls ih =>
    rw [List.cons_append, ConcreteCalls, ih, ConcreteCalls, and_assoc]
    rfl

theorem ConcreteState.all_after {P : Ty → Prop} (hP : Hereditary P) (hnew : ∀ id, P (.unknown id))
    (hs : ConcreteState s) (hv : s.store.All P) (hc : ConcreteCalls s calls)
    (hcP : ∀ c ∈ calls, ∀ t ∈ c.types, P t) : (Infer.after s calls).store.All P := by
  induction calls generalizing s with
  | nil => exact hv
  | cons c calls ih =>
    rw [List.forall_mem_cons] at hcP
    exact ih (hs.perform hc.1) (all_perform hP hnew hs.wf hs.acyclic hv hcP.1) hc.2 hcP.2

/-- If integers do not occur, or numbers do not, `widen` is injective. -/
theorem eq_of_widen_eq {tag : String} (htag : tag = "Integer" ∨ tag = "Number")
    (h₁ : t₁.Built (· ≠ .con tag 0)) (h₂ : t₂.Built (· ≠ .con tag 0)) (h : t₁.widen = t₂.widen) :
    t₁ = t₂ := by
  rcases htag with rfl | rfl
  · have hself : ∀ t : Ty, t.Built (· ≠ .con "Integer" 0) → t.widen = t := fun t ht ↦
      retag_eq_self ht fun tag n hn ↦ if_neg fun h ↦ hn (by rw [h.1, h.2])
    rwa [hself t₁ h₁, hself t₂ h₂] at h
  · have hself : ∀ t : Ty, t.Built (· ≠ .con "Number" 0) → t.narrow = t := fun t ht ↦
      retag_eq_self ht fun tag n hn ↦ if_neg fun h ↦ hn (by rw [h.1, h.2])
    rwa [widen_eq_iff, hself t₁ h₁, hself t₂ h₂] at h

/-- **Unknowns that were made equal.**  Let one of some calls on concrete types have unified the
unknowns `x` and `y`.  After any later calls, whether they succeed or fail, replacing unknowns ends,
and the types of `x` and `y` are equal up to integers and numbers.  They are equal if `x` and `y`
were in one class or had no solutions when they were unified, or if no type of the calls has
integers, or none has numbers. -/
theorem apply_eq_of_unified {before later : List Call} {s₁ : InferenceState}
    (hcalls : ConcreteCalls .initial (before ++ .unify (.unknown x) (.unknown y) e₁ e₂ :: later))
    (hrun : (unify (.unknown x) (.unknown y) e₁ e₂).run (after .initial before) = (.ok w, s₁)) :
    (∀ t, (after s₁ later).store.settles t = true) ∧
    ((after s₁ later).store.apply (.unknown x)).widen =
      ((after s₁ later).store.apply (.unknown y)).widen ∧
    ((after .initial before).store.Same x y ∨
        Open (after .initial before).store x ∧ Open (after .initial before).store y ∨
        (∃ tag, (tag = "Integer" ∨ tag = "Number") ∧
          ∀ c ∈ before ++ later, ∀ t ∈ c.types, t.Built (· ≠ .con tag 0)) →
      (after s₁ later).store.apply (.unknown x) = (after s₁ later).store.apply (.unknown y)) := by
  obtain ⟨hbefore, htypes, hlater⟩ := concreteCalls_append.1 hcalls
  have hx := htypes (.unknown x) (by simp [Call.types])
  have hy := htypes (.unknown y) (by simp [Call.types])
  obtain ⟨hs₀, -⟩ := tracked_initial.after hbefore
  obtain ⟨hs₁, hstep⟩ := hs₀.unify e₁ e₂ hx hy
  rw [Call.perform, hrun] at hlater
  rw [hrun] at hs₁ hstep
  obtain ⟨hs, hlater'⟩ := hs₁.after hlater
  obtain ⟨-, -, hagree, -⟩ :=
    (ensures_ok hrun).1 (ensures_unify_concrete e₁ e₂ hs₀.toConcreteState hx hy)
  have hwiden : ((after s₁ later).store.apply (.unknown x)).widen =
      ((after s₁ later).store.apply (.unknown y)).widen := by
    rw [widen_eq_iff, narrow_eq_core (hs.built.apply hx.1), narrow_eq_core (hs.built.apply hy.1),
      Store.core_apply, Store.core_apply]
    exact (hagree _ (hlater'.solves _ (Store.solves_solution hs.acyclic))).1
  refine ⟨hs.acyclic.settles, hwiden, ?_⟩
  rintro (hsame | ⟨hox, hoy⟩ | ⟨tag, htag, hfree⟩)
  · exact Store.apply_eq_of_same hs.wf hs.acyclic (hlater'.classes _ _ (hstep.classes _ _ hsame))
  · have hsame := (ensures_ok hrun).1 (ensures_unify_open hs₀.wf hs₀.acyclic hs₀.led
      (Store.registered_unknown.1 hx.2) (Store.registered_unknown.1 hy.2) hox hoy)
    exact Store.apply_eq_of_same hs.wf hs.acyclic (hlater'.classes _ _ hsame)
  · have hP : Hereditary (Ty.Built (· ≠ .con tag 0)) := hereditary_built _
    have hunknown : ∀ id, (unknown id).Built (· ≠ .con tag 0) := fun _ ↦ built_unknown.2 (by simp)
    rw [List.forall_mem_append] at hfree
    have hv₀ := concreteState_initial.all_after hP hunknown
      (fun k t ht ↦ absurd ((value?_initial k).symm.trans ht) (by simp)) hbefore hfree.1
    have hv₁ := ((ensures_ok hrun).1 (ensures_unify_hereditary hP _ _ hs₀.wf hs₀.acyclic hv₀
      (hunknown x) (hunknown y))).1.all
    have hv := hs₁.toConcreteState.all_after hP hunknown hv₁ hlater hfree.2
    exact eq_of_widen_eq htag (hv.apply hP (hunknown x)) (hv.apply hP (hunknown y)) hwiden

/-- Two unknowns are unified, and then solved by a number and by an integer. -/
theorem apply_eq_of_unified_open :
    let later : List Call :=
      [.unify (.unknown "a#1") number none none, .unify (.unknown "b#2") integer none none]
    ∃ w s₁, (unify (.unknown "a#1") (.unknown "b#2") none none).run
        (after .initial [.newUnknown "a", .newUnknown "b"]) = (.ok w, s₁) ∧
      (after s₁ later).store.apply (.unknown "a#1") = integer ∧
      (after s₁ later).store.apply (.unknown "a#1") =
        (after s₁ later).store.apply (.unknown "b#2") := by
  have hrun : (unify (.unknown "a#1") (.unknown "b#2") none none).run
      (after .initial [.newUnknown "a", .newUnknown "b"]) = (.ok (.unknown "b#2"), _) :=
    Prod.ext (by decide +kernel) rfl
  refine ⟨_, _, hrun, by decide +kernel, (apply_eq_of_unified (by decide +kernel) hrun).2.2 ?_⟩
  exact .inr (.inl ⟨⟨"a#1", by decide +kernel⟩, ⟨"b#2", by decide +kernel⟩⟩)

/-- Two unknowns with the type of numbers are unified, and one of them is then unified with that of
integers. -/
theorem unified_come_apart :
    let before : List Call :=
      [.newUnknown "a", .newUnknown "b", .unify (.unknown "a#1") number none none,
      .unify (.unknown "b#2") number none none]
    let later : List Call := [.unify (.unknown "a#1") integer none none]
    ∃ s₁, (unify (.unknown "a#1") (.unknown "b#2") none none).run (after .initial before) =
      (.ok number, s₁) ∧
      ConcreteCalls .initial
        (before ++ .unify (.unknown "a#1") (.unknown "b#2") none none :: later) ∧
      (after s₁ later).store.apply (.unknown "a#1") = integer ∧
      (after s₁ later).store.apply (.unknown "b#2") = number :=
  ⟨_, Prod.ext (by decide +kernel) rfl, by decide +kernel, by decide +kernel, by decide +kernel⟩

end Infer

end SchemeTyping
