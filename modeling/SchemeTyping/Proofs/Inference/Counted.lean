import SchemeTyping.Proofs.Forest.Session
import SchemeTyping.Proofs.Inference.Calls
import SchemeTyping.Proofs.Inference.Frame
import SchemeTyping.Proofs.Inference.Lockstep

/-!
# Unknowns are counted

Whatever calls are made, whether they succeed or fail, and also after one of them has made a cycle:
every cell of the store belongs to an unknown, and every unknown has a number that was given out
(`Counted`). So a new unknown is really new, and the values of the store are those of its classes.

Unification makes no unknowns and leaves those there are in their cells.  `Steady x` says this of a
step, and all constructs of unification preserve it.
-/

set_option autoImplicit false

namespace SchemeTyping.Infer

open Ty

variable {α β : Type} {s s' s'' : InferenceState}

/-! ## Steps that make no unknowns -/

/-- `s'` has the unknowns of `s` in the same cells. -/
structure Unmoved (s s' : InferenceState) : Prop where
  wf : s'.store.WF
  frame : Forest.Frame s.store s'.store
  counter : s'.counter = s.counter

theorem Unmoved.refl (hwf : s.store.WF) : Unmoved s s := ⟨hwf, .refl _, rfl⟩

theorem Unmoved.trans (h : Unmoved s s') (h' : Unmoved s' s'') : Unmoved s s'' :=
  ⟨h'.wf, h.frame.trans h'.frame, h'.counter.trans h.counter⟩

/-- The step leaves the unknowns where they are, whether it fails or not. -/
structure Steady (x : Infer α) : Prop where
  unmoved : ∀ s, s.store.WF → Ensures x s (fun _ s' ↦ Unmoved s s') fun _ s' ↦ Unmoved s s'

theorem steady_pure (a : α) : Steady (pure a) := ⟨fun _ hwf ↦ .refl hwf⟩

theorem steady_throw (f : Failure) : Steady (throw f : Infer α) := ⟨fun _ hwf ↦ .refl hwf⟩

theorem steady_fail (f : Failure) : Steady (fail f : Infer α) :=
  ⟨fun _ hwf ↦ ensures_fail fun _ ↦ ⟨hwf, .refl _, rfl⟩⟩

theorem steady_tell (event : Event) : Steady (tell event) := ⟨fun _ hwf ↦ ⟨hwf, .refl _, rfl⟩⟩

theorem Steady.bind {x : Infer α} {f : α → Infer β} (hx : Steady x) (hf : ∀ a, Steady (f a)) :
    Steady (x >>= f) := by
  refine ⟨fun s hwf ↦ ?_⟩
  rw [ensures_bind]
  refine (hx.unmoved s hwf).mono (fun a s₁ h₁ ↦ ?_) fun _ _ ↦ id
  exact ((hf a).unmoved s₁ h₁.wf).mono (fun _ _ ↦ h₁.trans) fun _ _ ↦ h₁.trans

theorem steady_get {f : InferenceState → Infer α} (hf : ∀ s, Steady (f s)) : Steady (get >>= f) :=
  ⟨fun s hwf ↦ (ensures_bind ..).2 ((hf s).unmoved s hwf)⟩

theorem steady_setValue (id : String) (t : Ty) : Steady (onStore (Forest.setValue id t)) := by
  refine ⟨fun s hwf ↦ ?_⟩
  rw [ensures_onStore]
  refine ((Forest.ensures_setValue hwf id t).and (Forest.framed_setValue id t s.store)).mono ?_ ?_
  · exact fun _ _ h ↦ ⟨h.1.1, h.2, rfl⟩
  · rintro _ _ ⟨⟨-, rfl, -⟩, hframe⟩
    exact ⟨hwf, hframe, rfl⟩

theorem steady_union (id id' : String) :
    Steady (onStore (Forest.union Store.preferSolved id id')) := by
  refine ⟨fun s hwf ↦ ?_⟩
  rw [ensures_onStore]
  refine ((Forest.ensures_union hwf Store.preferSolved id id').and
    (Forest.framed_union Store.preferSolved id id' s.store)).mono ?_ ?_
  · exact fun _ _ h ↦ ⟨h.1.1, h.2, rfl⟩
  · exact fun _ _ h ↦ ⟨h.1.2.wf, h.2, rfl⟩

theorem steady_laws : UnifyLaws Steady where
  pure := steady_pure
  throw _ := steady_throw _
  fail := steady_fail
  tell := steady_tell
  get _ := steady_get
  bind := Steady.bind
  setValue := steady_setValue
  union := steady_union

/-! ## All calls -/

/-- Every cell belongs to an unknown, and every unknown has a number that was given out. -/
structure Counted (s : InferenceState) : Prop where
  wf : s.store.WF
  dense : s.store.index.values = List.range s.store.cells.size
  numbered : Numbered s

theorem counted_initial : Counted .initial := ⟨wf_initial, rfl, nofun, .nil⟩

theorem Counted.congr (h : Counted s) (hstore : s'.store = s.store)
    (hcounter : s'.counter = s.counter) : Counted s' := by
  obtain ⟨hwf, hdense, hgiven, hnodup⟩ := h
  exact ⟨hstore ▸ hwf, hstore ▸ hdense, hstore ▸ hcounter ▸ hgiven, hstore ▸ hnodup⟩

theorem Counted.unmoved (h : Counted s) (hs : Unmoved s s') : Counted s' where
  wf := hs.wf
  dense := by rw [hs.frame.index, hs.frame.size, h.dense]
  numbered := by
    obtain ⟨hgiven, hnodup⟩ := h.numbered.of_index hs.frame.index
    exact ⟨hs.counter ▸ hgiven, hnodup⟩

theorem Counted.newUnknown (h : Counted s) (stem : String) : Counted ((newUnknown stem).run s).2 :=
  ⟨h.wf.add _ _, Forest.dense_add h.dense (h.numbered.contains_new stem) _,
    h.numbered.newUnknown stem _⟩

/-- One call preserves `Counted`. -/
theorem Counted.perform (h : Counted s) (c : Call) : Counted (c.perform.run s).2 := by
  cases c with
  | newUnknown stem => exact h.newUnknown stem
  | unify t₁ t₂ e₁ e₂ =>
    have hsteady := (steady_laws.unify t₁ t₂ e₁ e₂).unmoved s h.wf
    rw [Call.perform]
    rcases hrun : (unify t₁ t₂ e₁ e₂).run s with ⟨f | w, s'⟩
    · exact h.unmoved ((ensures_error hrun).1 hsteady)
    · exact h.unmoved ((ensures_ok hrun).1 hsteady)

/-- A sequence of calls preserves `Counted`. -/
theorem Counted.after (h : Counted s) (calls : List Call) : Counted (after s calls) := by
  induction calls generalizing s with
  | nil => exact h
  | cons c calls ih => exact ih (h.perform c)

end SchemeTyping.Infer
