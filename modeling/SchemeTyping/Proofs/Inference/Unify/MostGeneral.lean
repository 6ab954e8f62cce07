import SchemeTyping.Proofs.Inference.Calls
import SchemeTyping.Proofs.Inference.Live

/-!
# Most general unifiers up to integers and numbers

The equations of a store are between cores, in which `Number` is replaced by `Integer` and a
variadic function has lost its bounds.  For types made of unknowns and constructors only the first
matters, and then it does not matter either which of the two replaces the other: `widen` puts
numbers for integers, `narrow` integers for numbers, and both identify the same types
(`widen_eq_iff`).  So the assignments that solve a store up to `widen` are those whose narrowed
types solve it (`solvedBy_iff`).

`unify_mostGeneral` is about the states that calls on such types lead to, also with calls that fail
among them: `unify` succeeds exactly if the types can be made equal, and then leaves the solutions
that make them so.
-/

set_option autoImplicit false

namespace SchemeTyping

namespace Ty

/-! ## Other tags -/

mutual

/-- Changes the tags of all constructors by `g`, which may depend on the number of parameters. -/
def retag (g : String → Nat → String) : Ty → Ty
  | .var name => .var name
  | .unknown id => .unknown id
  | .con tag ps => .con (g tag ps.length) (retagList g ps)
  | .variadic min max ps => .variadic min max (retagList g ps)
  | .all bound body => .all bound (body.retag g)

/-- As `retag`, for the types of a list. -/
def retagList (g : String → Nat → String) : List Ty → List Ty
  | [] => []
  | t :: ts => t.retag g :: retagList g ts

end

variable {g h : String → Nat → String} {tag : String} {ps : List Ty}
  {min max : Option Int} {s t : Ty}
  {θ : String → Ty}

theorem retagList_eq_map (g : String → Nat → String) (ps : List Ty) :
    retagList g ps = ps.map (retag g) := by
  induction ps with
  | nil => rfl
  | cons t ps ih => rw [retagList, ih, List.map_cons]

@[simp] theorem retag_con : (con tag ps).retag g = con (g tag ps.length) (ps.map (retag g)) := by
  rw [retag, retagList_eq_map]

@[simp] theorem retag_variadic :
    (variadic min max ps).retag g = variadic min max (ps.map (retag g)) := by
  rw [retag, retagList_eq_map]

/-- Two changes of tags are one. -/
theorem retag_retag (g h : String → Nat → String) (t : Ty) :
    (t.retag g).retag h = t.retag fun tag n ↦ h (g tag n) n := by
  induction t with
  | var | unknown => rfl
  | con tag ps ih =>
    simp only [retag_con, List.length_map, List.map_map]
    congr 1
    exact List.map_congr_left ih
  | variadic min max ps ih =>
    simp only [retag_variadic, List.map_map]
    congr 1
    exact List.map_congr_left ih
  | all bound body ih => exact congrArg (all bound) ih

/-- `retag` commutes with `fill`. -/
theorem retag_fill (g : String → Nat → String) (θ : String → Ty) (t : Ty) :
    (t.fill θ).retag g = (t.retag g).fill fun id ↦ (θ id).retag g := by
  induction t with
  | var | unknown => rfl
  | con tag ps ih =>
    simp only [fill_con, retag_con, List.length_map, List.map_map]
    congr 1
    exact List.map_congr_left ih
  | variadic min max ps ih =>
    simp only [fill_variadic, retag_variadic, List.map_map]
    congr 1
    exact List.map_congr_left ih
  | all bound body ih => exact congrArg (all bound) ih

/-! ## Integers and numbers -/

/-- The tag of a constructor, with `Number` for `Integer`. -/
def wideTag (tag : String) (arity : Nat) : String :=
  if tag = "Integer" ∧ arity = 0 then "Number" else tag

/-- The type with numbers for integers. -/
def widen (t : Ty) : Ty := t.retag wideTag

/-- The type with integers for numbers. -/
def narrow (t : Ty) : Ty := t.retag coreTag

theorem narrow_widen (t : Ty) : t.widen.narrow = t.narrow := by
  rw [widen, narrow, narrow, retag_retag]
  congr 1
  funext tag n
  simp only [wideTag, coreTag]
  grind

theorem widen_narrow (t : Ty) : t.narrow.widen = t.widen := by
  rw [widen, narrow, widen, retag_retag]
  congr 1
  funext tag n
  simp only [wideTag, coreTag]
  grind

/-- `widen` and `narrow` identify the same types. -/
theorem widen_eq_iff : s.widen = t.widen ↔ s.narrow = t.narrow := by
  refine ⟨fun h ↦ ?_, fun h ↦ ?_⟩
  · rw [← narrow_widen s, h, narrow_widen]
  · rw [← widen_narrow s, h, widen_narrow]

/-- A node that is an unknown or a constructor other than `any` and the gradual type. -/
def Node.Concrete : Node → Prop
  | .unknown => True
  | .con tag _ => tag ≠ "Any" ∧ tag ≠ "?"
  | _ => False

instance : DecidablePred Node.Concrete
  | .con _ _ => inferInstanceAs (Decidable (_ ∧ _))
  | .unknown => inferInstanceAs (Decidable True)
  | .var | .variadic _ | .all => inferInstanceAs (Decidable False)

/-- For concrete types `narrow` is `core`. -/
theorem narrow_eq_core (ht : t.Built Node.Concrete) : t.narrow = t.core := by
  induction t with
  | var | variadic | all => simp [Node.Concrete] at ht
  | unknown => rfl
  | con tag ps ih =>
    rw [narrow, retag_con, core_con]
    congr 1
    exact List.map_congr_left fun p hp ↦ ih p hp ((built_con.1 ht).2 p hp)

theorem narrow_core (ht : t.Built Node.Concrete) : t.core.narrow = t.core := by
  rw [← narrow_eq_core ht, narrow, narrow, retag_retag]
  congr 1
  funext tag n
  simp only [coreTag]
  grind

theorem Built.core (ht : t.Built Node.Concrete) : t.core.Built Node.Concrete := by
  induction t with
  | var | variadic | all => simp [Node.Concrete] at ht
  | unknown => exact ht
  | con tag ps ih =>
    rw [built_con] at ht
    rw [core_con, built_con, List.forall_mem_map]
    refine ⟨?_, fun p hp ↦ ih p hp (ht.2 p hp)⟩
    have htag := ht.1
    simp only [Node.Concrete, coreTag] at htag ⊢
    grind

/-- `θ` makes `s` and `t` equal up to integers and numbers. -/
def Equates (θ : String → Ty) (s t : Ty) : Prop := (s.fill θ).widen = (t.fill θ).widen

theorem narrow_fill (ht : t.Built Node.Concrete) (θ : String → Ty) :
    (t.fill θ).narrow = t.core.fill fun id ↦ (θ id).narrow := by
  rw [← narrow_eq_core ht]
  exact retag_fill coreTag θ t

theorem equates_iff (hs : s.Built Node.Concrete) (ht : t.Built Node.Concrete) :
    Equates θ s t ↔ (s.core.fill fun id ↦ (θ id).narrow) = t.core.fill fun id ↦ (θ id).narrow := by
  rw [Equates, widen_eq_iff, narrow_fill hs, narrow_fill ht]

end Ty

open Ty

namespace Store

variable {store : Store} {θ : String → Ty}

/-- `θ` satisfies the equations of all classes up to integers and numbers. -/
def SolvedBy (store : Store) (θ : String → Ty) : Prop :=
  ∀ k t, store.value? k = some t → Equates θ (.unknown k) t

theorem solvedBy_iff (hv : store.Built Node.Concrete) :
    store.SolvedBy θ ↔ store.Solves fun id ↦ (θ id).narrow :=
  forall_congr' fun k ↦ forall_congr' fun t ↦ forall_congr' fun ht ↦
    equates_iff (built_unknown.2 trivial) (hv k t ht)

/-- A solution is one up to integers and numbers. -/
theorem Solves.solvedBy (h : store.Solves θ) (hv : store.Built Node.Concrete) :
    store.SolvedBy θ := by
  rw [solvedBy_iff hv]
  intro k t ht
  have hk := congrArg narrow (h k t ht)
  rw [narrow, narrow, retag_fill] at hk
  exact hk.trans (congrArg (Ty.fill _) (narrow_core (hv k t ht)))

end Store

namespace Infer

variable {s s' : InferenceState} {t₁ t₂ : Ty} {e₁ e₂ : Option Mention} {θ : String → Ty} {c : Call}
  {calls : List Call}

/-! ## Calls on concrete types -/

/-- A concrete type whose unknowns the store has. -/
def Over (store : Store) (t : Ty) : Prop := t.Built Node.Concrete ∧ store.Registered t

instance (store : Store) : DecidablePred (Over store) := fun t ↦
  inferInstanceAs (Decidable (t.Built Node.Concrete ∧ ∀ id ∈ t.unknowns, store.contains id = true))

/-- Every call is made on concrete types whose unknowns were made before it. -/
def ConcreteCalls (s : InferenceState) : List Call → Prop
  | [] => True
  | c :: calls => (∀ t ∈ c.types, Over s.store t) ∧ ConcreteCalls (c.perform.run s).2 calls

instance decidableConcreteCalls : ∀ s, DecidablePred (ConcreteCalls s)
  | _, [] => inferInstanceAs (Decidable True)
  | s, c :: calls =>
    have := decidableConcreteCalls (c.perform.run s).2 calls
    inferInstanceAs (Decidable ((∀ t ∈ c.types, Over s.store t) ∧ ConcreteCalls _ calls))

/-- A state that calls on concrete types lead to, some of which may fail. -/
def Reached (s : InferenceState) : Prop :=
  ∃ calls, ConcreteCalls .initial calls ∧ s = after .initial calls

/-- The invariant of calls on concrete types. -/
structure ConcreteState (s : InferenceState) : Prop where
  wf : s.store.WF
  acyclic : s.store.Acyclic
  closed : s.store.Closed
  built : s.store.Built Node.Concrete

theorem concrete_tags (tag : String) (arity : Nat) (h : Node.Concrete (.con tag arity)) :
    tag ≠ "Any" ∧ tag ≠ "?" := h

/-- `unify` on concrete types succeeds or fails with a diagnostic, and preserves `ConcreteState`. -/
theorem ensures_unify_concrete (e₁ e₂ : Option Mention) (hs : ConcreteState s)
    (h₁ : Over s.store t₁) (h₂ : Over s.store t₂) :
    Ensures (unify t₁ t₂ e₁ e₂) s
      (fun w s' ↦ ConcreteState s' ∧ w.Built Node.Concrete ∧ Agree s'.store t₁ t₂ w ∧
        ∀ θ, s'.store.Solves θ → s.store.Solves θ)
      (fun f s' ↦ ConcreteState s' ∧ f.diagnostic?.isSome) := by
  refine ensures_unify_of_acyclic hs.acyclic ?_
  refine (((ensures_unifyWithin_solves concrete_tags _ hs.wf hs.acyclic hs.built h₁.1 h₂.1).and
    (ensures_unifyWithin_hereditary (hereditary_held Node.Concrete s.store) _ hs.wf hs.acyclic
      (fun k t ht ↦ ⟨hs.built k t ht, hs.closed k t ht⟩) ⟨h₁.1, h₁.2⟩ ⟨h₂.1, h₂.2⟩)).and
    (ensures_unifyWithin_depth concrete_tags _ hs.wf hs.acyclic hs.built h₁.1 h₂.1
      (Nat.le_max_left ..) (Nat.le_max_right ..) (depth_lt_unifyDepth ..))).mono ?_ ?_
  · rintro w s' ⟨⟨⟨hadv, hw, hagree⟩, h, -⟩, -⟩
    have hclosed : s'.store.Closed := fun k t ht ↦ h.registered (h.all k t ht).registered
    exact ⟨⟨h.wf, h.acyclic, hclosed, hadv.built⟩, hw, hagree, hadv.solves⟩
  · rintro f s' ⟨⟨⟨hbounded, hadv⟩, h⟩, hdeep⟩
    have hclosed : s'.store.Closed := fun k t ht ↦ h.registered (h.all k t ht).registered
    refine ⟨⟨h.wf, hadv.acyclic, hclosed, hadv.built⟩, (h.reason.of_held ⟨id, id⟩).resolve_right ?_⟩
    rintro (hf | hf)
    · exact hbounded hf
    · exact hdeep hf

theorem concreteState_initial : ConcreteState .initial :=
  ⟨wf_initial, acyclic_initial, fun k t ht ↦ absurd ((value?_initial k).symm.trans ht) (by simp),
    fun k t ht ↦ absurd ((value?_initial k).symm.trans ht) (by simp)⟩

theorem ConcreteState.newUnknown (hs : ConcreteState s) (stem : String) :
    ConcreteState ((newUnknown stem).run s).2 := by
  set id := stem ++ "#" ++ toString (s.counter + 1)
  obtain ⟨hwf, hval⟩ := Forest.value?_add hs.wf id (Ty.unknown id)
  have hcases : ∀ k t, (s.store.add id (.unknown id)).value? k = some t →
      t = .unknown id ∨ s.store.value? k = some t := by
    intro k t ht
    rw [hval k] at ht
    split at ht
    · exact .inl (Option.some.inj ht).symm
    · exact .inr ht
  have hcontains : ∀ k, s.store.contains k = true →
      (s.store.add id (.unknown id)).contains k = true := by
    intro k hk
    obtain ⟨v, hv⟩ := hs.wf.value?_isSome hk
    refine Forest.contains_of_value? (v := if id = k then .unknown id else v) ?_
    rw [hval k]
    split <;> simp_all
  refine ⟨hwf, acyclic_add hs.wf hs.acyclic id, fun k t ht ↦ ?_, fun k t ht ↦ ?_⟩
  · rcases hcases k t ht with rfl | ht
    · refine Store.registered_unknown.2 (Forest.contains_of_value? (v := .unknown id) ?_)
      exact (hval id).trans (if_pos rfl)
    · exact fun k' hk' ↦ hcontains k' (hs.closed k t ht k' hk')
  · rcases hcases k t ht with rfl | ht
    · exact built_unknown.2 trivial
    · exact hs.built k t ht

theorem ConcreteState.perform (hs : ConcreteState s) (hc : ∀ t ∈ c.types, Over s.store t) :
    ConcreteState (c.perform.run s).2 := by
  cases c with
  | newUnknown stem => exact hs.newUnknown stem
  | unify t₁ t₂ e₁ e₂ =>
    have h :=
      ensures_unify_concrete e₁ e₂ hs (hc t₁ (by simp [Call.types])) (hc t₂ (by simp [Call.types]))
    rw [Call.perform]
    rcases hrun : (unify t₁ t₂ e₁ e₂).run s with ⟨f | w, s'⟩
    · exact ((ensures_error hrun).1 h).1
    · exact ((ensures_ok hrun).1 h).1

theorem ConcreteState.after (hs : ConcreteState s) (hc : ConcreteCalls s calls) :
    ConcreteState (after s calls) := by
  induction calls generalizing s with
  | nil => exact hs
  | cons c calls ih => exact ih (hs.perform hc.1) hc.2

theorem Reached.concreteState (h : Reached s) : ConcreteState s := by
  obtain ⟨calls, hcalls, rfl⟩ := h
  exact concreteState_initial.after hcalls

/-! ## Most general unifiers -/

/-- If `θ` makes the types equal, `unify` succeeds, and the narrowed `θ` solves the store that it
leaves. -/
theorem ensures_unify_of_equates (e₁ e₂ : Option Mention) (hs : ConcreteState s)
    (h₁ : Over s.store t₁) (h₂ : Over s.store t₂) (hθ : s.store.SolvedBy θ)
    (heq : Equates θ t₁ t₂) :
    Ensures (unify t₁ t₂ e₁ e₂) s (fun _ s' ↦ s'.store.Solves fun id ↦ (θ id).narrow)
      (fun _ _ ↦ False) :=
  (ensures_unify_complete concrete_tags ⟨id, id⟩ e₁ e₂ hs.wf hs.acyclic hs.closed hs.built h₁.1 h₂.1
    h₁.2 h₂.2 ((Store.solvedBy_iff hs.built).1 hθ) ((equates_iff h₁.1 h₂.1).1 heq)).mono
    (fun _ _ h ↦ h.2.2) fun _ _ ↦ id

/-- **Most general unifiers up to integers and numbers.**  After calls on concrete types, `unify` of
two more succeeds or fails with a diagnostic.  It succeeds exactly if some solution of the store
makes the types equal, and then one made of concrete types does.  The solutions of the new store are
the solutions of the old one that make the types equal, and each makes the result equal to the two
types. -/
theorem unify_mostGeneral (hs : Reached s) (h₁ : Over s.store t₁) (h₂ : Over s.store t₂)
    (e₁ e₂ : Option Mention) :
    ((∃ w s', (unify t₁ t₂ e₁ e₂).run s = (.ok w, s')) ↔
      ∃ θ, s.store.SolvedBy θ ∧ Equates θ t₁ t₂) ∧
    (∀ f s', (unify t₁ t₂ e₁ e₂).run s = (.error f, s') → f.diagnostic?.isSome) ∧
    ((∃ θ, s.store.SolvedBy θ ∧ Equates θ t₁ t₂) →
      ∃ θ, (∀ id, (θ id).Built Node.Concrete) ∧ s.store.SolvedBy θ ∧ Equates θ t₁ t₂) ∧
    ∀ w s', (unify t₁ t₂ e₁ e₂).run s = (.ok w, s') → ∀ θ,
      (s'.store.SolvedBy θ ↔ s.store.SolvedBy θ ∧ Equates θ t₁ t₂) ∧
      (s'.store.SolvedBy θ → Equates θ w t₁ ∧ Equates θ w t₂) := by
  replace hs := hs.concreteState
  have hunify := ensures_unify_concrete e₁ e₂ hs h₁ h₂
  have hnew : ∀ w s', (unify t₁ t₂ e₁ e₂).run s = (.ok w, s') → ∀ θ,
      (s'.store.SolvedBy θ ↔ s.store.SolvedBy θ ∧ Equates θ t₁ t₂) ∧
      (s'.store.SolvedBy θ → Equates θ w t₁ ∧ Equates θ w t₂) := by
    intro w s' hrun θ
    obtain ⟨hs', hw, hagree, hsolves⟩ := (ensures_ok hrun).1 hunify
    rw [Store.solvedBy_iff hs'.built, equates_iff hw h₁.1, equates_iff hw h₂.1]
    refine ⟨⟨fun hθ ↦ ⟨(Store.solvedBy_iff hs.built).2 (hsolves _ hθ),
      (equates_iff h₁.1 h₂.1).2 (hagree _ hθ).1⟩, fun hθ ↦ ?_⟩, fun hθ ↦ ?_⟩
    · exact (ensures_ok hrun).1 (ensures_unify_of_equates e₁ e₂ hs h₁ h₂ hθ.1 hθ.2)
    · exact ⟨(hagree _ hθ).2, (hagree _ hθ).2.trans (hagree _ hθ).1⟩
  have hsome : (∃ w s', (unify t₁ t₂ e₁ e₂).run s = (.ok w, s')) →
      ∃ θ, (∀ id, (θ id).Built Node.Concrete) ∧ s.store.SolvedBy θ ∧ Equates θ t₁ t₂ := by
    rintro ⟨w, s', hrun⟩
    -- The new store is acyclic, so it has a most general solution.
    have hs' := ((ensures_ok hrun).1 hunify).1
    exact ⟨s'.store.solution, fun id ↦ Built.core (hs'.built.apply (built_unknown.2 trivial)),
      (hnew w s' hrun _).1.1 ((Store.solves_solution hs'.acyclic).solvedBy hs'.built)⟩
  have hall : (∃ θ, s.store.SolvedBy θ ∧ Equates θ t₁ t₂) →
      ∃ w s', (unify t₁ t₂ e₁ e₂).run s = (.ok w, s') := by
    rintro ⟨θ, hθ, heq⟩
    rcases hrun : (unify t₁ t₂ e₁ e₂).run s with ⟨f | w, s'⟩
    · exact ((ensures_error hrun).1 (ensures_unify_of_equates e₁ e₂ hs h₁ h₂ hθ heq)).elim
    · exact ⟨w, s', rfl⟩
  refine ⟨⟨fun h ↦ ?_, hall⟩, fun f s' hrun ↦ ((ensures_error hrun).1 hunify).2, hsome ∘ hall, hnew⟩
  obtain ⟨θ, -, hθ⟩ := hsome h
  exact ⟨θ, hθ⟩

/-- Calls after which the first unknown is solved by a list of numbers. -/
def numberList : List Call :=
  [.newUnknown "a", .newUnknown "b", .unify (.unknown "a#1") (list number) none none]

/-- A list of integers is unified with one of numbers and keeps all solutions; no solution makes it
a string. -/
theorem unify_mostGeneral_numberList :
    (∃ s', (unify (.unknown "a#1") (list integer) none none).run (after .initial numberList)
        = (.ok (list integer), s') ∧
      ∀ θ, s'.store.SolvedBy θ ↔
        (after .initial numberList).store.SolvedBy θ ∧ Equates θ (.unknown "a#1") (list integer)) ∧
    ¬ ∃ θ, (after .initial numberList).store.SolvedBy θ ∧ Equates θ (.unknown "a#1") string := by
  have hs : Reached (after .initial numberList) := ⟨numberList, by decide +kernel, rfl⟩
  constructor
  · have hrun : (unify (.unknown "a#1") (list integer) none none).run (after .initial numberList)
        = (.ok (list integer), _) := Prod.ext (by decide +kernel) rfl
    exact ⟨_, hrun,
      fun θ ↦ ((unify_mostGeneral hs (by decide +kernel) (by decide +kernel) none none).2.2.2
      _ _ hrun θ).1⟩
  · rw [← (unify_mostGeneral hs (by decide +kernel) (by decide +kernel) none none).1]
    rintro ⟨w, s', hrun⟩
    have hfail :
      ¬ ((unify (.unknown "a#1") string none none).run (after .initial numberList)).1.isOk
        = true := by decide +kernel
    exact hfail (by rw [hrun]; rfl)

end Infer

end SchemeTyping
