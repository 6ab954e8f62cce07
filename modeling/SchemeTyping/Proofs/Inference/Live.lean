import SchemeTyping.Proofs.Inference.Frame
import SchemeTyping.Proofs.Inference.Generalize
import SchemeTyping.Proofs.Inference.Unify.Complete

/-!
# The types that inference works on

The types in the store and in the cache, and those that are unified, are `Live`: they have no
variables and no quantifiers, and the store has all their unknowns.  An environment has such types
and generalised ones; of both the store has all the unknowns (`Known`).

`Orderly` says this of a state, and `Moves` of a step that keeps the unknowns there are.  `Proceeds`
says of a step that it moves and has a result with a given property, or fails with a diagnostic.
Two failures have none, those that are `Failure.Endless`: for replacements and for unifications that
do not end.  They need a node that is not `Node.Definite`.  The proposition `D` says whether all
nodes are definite, and everything here holds with and without it.
-/

set_option autoImplicit false

namespace SchemeTyping

/-- A node other than `any` and the gradual type, where functions have a result type. -/
def Ty.Node.Definite : Ty.Node → Prop
  | .con tag arity => tag ≠ "Any" ∧ tag ≠ "?" ∧ (tag = "Function" → 0 < arity)
  | .variadic arity => 0 < arity
  | _ => True

instance : DecidablePred Ty.Node.Definite
  | .con _ _ => inferInstanceAs (Decidable (_ ∧ _ ∧ _))
  | .variadic _ => inferInstanceAs (Decidable (_ < _))
  | .var | .unknown | .all => inferInstanceAs (Decidable True)

/-- A node of a live type. -/
def Ty.Node.Live (D : Prop) (n : Ty.Node) : Prop := n ≠ .var ∧ n ≠ .all ∧ (D → n.Definite)

/-- A failure with a diagnostic, or one that is `Endless`, if types need not be definite. -/
def Failure.Excused (D : Prop) (f : Failure) : Prop := f.diagnostic?.isSome ∨ f.Endless ∧ ¬ D

namespace Infer

open Ty

variable {α β : Type} {s s' s'' : InferenceState} {t t₁ t₂ u : Ty} {id : String}
  {e₁ e₂ : Option Mention}

/-! ## Live types -/

variable {D : Prop} {store store' : Store} {ps : List Ty} {tag : String} {min max : Option Int}

/-- A type built from `p` whose unknowns the store has. -/
structure Held (p : Node → Prop) (store : Store) (t : Ty) : Prop where
  built : t.Built p
  registered : store.Registered t

/-- A type without variables and quantifiers whose unknowns the store has. -/
abbrev Live (D : Prop) : Store → Ty → Prop := Held (Node.Live D)

/-- A type of an environment, whose unknowns the store has. -/
abbrev Known (D : Prop) : Store → Ty → Prop := Held fun n ↦ D → n.Definite

section held

variable {p : Node → Prop}

theorem Held.mono (h : Held p store t)
    (hkeeps : ∀ id, store.contains id = true → store'.contains id = true) : Held p store' t :=
  ⟨h.built, fun id hid ↦ hkeeps id (h.registered id hid)⟩

theorem held_con :
    Held p store (.con tag ps) ↔ p (.con tag ps.length) ∧ ∀ q ∈ ps, Held p store q := by
  refine ⟨fun h ↦ ?_, fun h ↦ ?_⟩
  · obtain ⟨hn, hps⟩ := built_con.1 h.built
    exact ⟨hn, fun q hq ↦ ⟨hps q hq, Store.registered_con.1 h.registered q hq⟩⟩
  · exact ⟨built_con.2 ⟨h.1, fun q hq ↦ (h.2 q hq).built⟩,
      Store.registered_con.2 fun q hq ↦ (h.2 q hq).registered⟩

theorem held_variadic :
    Held p store (.variadic min max ps) ↔ p (.variadic ps.length) ∧ ∀ q ∈ ps, Held p store q := by
  refine ⟨fun h ↦ ?_, fun h ↦ ?_⟩
  · obtain ⟨hn, hps⟩ := built_variadic.1 h.built
    exact ⟨hn, fun q hq ↦ ⟨hps q hq, h.registered.params hq⟩⟩
  · refine ⟨built_variadic.2 ⟨h.1, fun q hq ↦ (h.2 q hq).built⟩, fun id hid ↦ ?_⟩
    obtain ⟨q, hq, hid⟩ := List.mem_flatMap.1 (unknowns_variadic ps min max ▸ hid)
    exact (h.2 q hq).registered id hid

theorem hereditary_held (p : Node → Prop) (store : Store) : Hereditary (Held p store) where
  unknown h id hid := ⟨h.built.unknown hid, Store.registered_unknown.2 (h.registered id hid)⟩
  params h _ hq := ⟨h.built.of_mem_params hq, h.registered.params hq⟩
  withParams h hlen hps := ⟨
    (hereditary_built p).withParams h.built hlen fun q hq ↦ (hps q hq).built,
    h.registered.withParams fun q hq ↦ (hps q hq).registered⟩
  fill h hθ := ⟨(hereditary_built p).fill h.built fun id hid ↦ (hθ id hid).built,
    (store.hereditary_registered).fill h.registered fun id hid ↦ (hθ id hid).registered⟩

/-- Unification of types without variables and quantifiers, in a store that has all unknowns, only
fails with a diagnostic or without an end. -/
theorem Reason.of_held {f : Failure} (hp : ¬ p .var ∧ ¬ p .all)
    (h : Reason (Held p store) store f) : f.diagnostic?.isSome ∨ f.Endless := by
  cases h with
  | diagnosed h => exact .inl h
  | endless h => exact .inr h
  | missing hk' h => exact absurd (Store.registered_unknown.1 hk'.registered) (by simp [h])
  | @uninstantiated r hr hne htag =>
    cases r with
    | var name => exact absurd (built_var.1 hr.built) hp.1
    | unknown id => exact absurd rfl (hne id)
    | all bound body => exact absurd (built_all.1 hr.built).1 hp.2
    | con | variadic => cases htag

end held

theorem Held.known (h : Live D store t) : Known D store t :=
  ⟨Built.mono h.built fun _ hn ↦ hn.2.2, h.registered⟩

theorem live_unknown (h : store.contains id = true) : Live D store (.unknown id) :=
  ⟨built_unknown.2 ⟨nofun, nofun, fun _ ↦ trivial⟩, Store.registered_unknown.2 h⟩

theorem live_con : Live D store (.con tag ps) ↔
    (D → (Node.con tag ps.length).Definite) ∧ ∀ q ∈ ps, Live D store q := by
  simp [held_con, Node.Live]

theorem live_variadic : Live D store (.variadic min max ps) ↔
    (D → 0 < ps.length) ∧ ∀ q ∈ ps, Live D store q := by
  simp [held_variadic, Node.Live, Node.Definite]

/-- A constructor without parameters other than `any`, `?` and `Function` is live. -/
theorem live_atom (htag : tag ≠ "Any" ∧ tag ≠ "?" ∧ tag ≠ "Function") :
    Live D store (.con tag []) :=
  live_con.2 ⟨fun _ ↦ ⟨htag.1, htag.2.1, fun h ↦ absurd h htag.2.2⟩, nofun⟩

theorem live_any (h : ¬ D) : Live D store any := live_con.2 ⟨fun h' ↦ absurd h' h, nofun⟩

theorem live_list (h : Live D store t) : Live D store (list t) :=
  live_con.2 ⟨fun _ ↦ by simp [Node.Definite], by simpa using h⟩

theorem live_procedure : Live D store (procedure t) ↔ Live D store t := by
  rw [procedure, live_con]
  simp [Node.Definite]

theorem live_function : Live D store (function [t, u]) ↔ Live D store t ∧ Live D store u := by
  rw [function, live_con]
  simp [Node.Definite]

theorem live_chain {args : List Ty} (hargs : ∀ a ∈ args, Live D store a) (ht : Live D store t) :
    Live D store (chain args t) := by
  induction args with
  | nil => exact ht
  | cons a args ih =>
    rw [List.forall_mem_cons] at hargs
    exact live_function.2 ⟨hargs.1, ih hargs.2⟩

/-- The result type of a function with live parameters is live. -/
theorem live_result (hps : ∀ q ∈ ps, Live D store q) (hne : D → 0 < ps.length) :
    Live D store (result ps) := by
  rcases List.eq_nil_or_concat ps with rfl | ⟨args, r, rfl⟩
  · exact live_any fun h ↦ absurd (hne h) (by simp)
  · rw [result, List.concat_eq_append, List.getLastD_concat]
    exact hps r (by simp)

theorem live_curried (h : Live D store (.con tag ps)) : Live D store (con tag ps).curried := by
  obtain ⟨hn, hps⟩ := live_con.1 h
  rw [curried]
  split
  · rename_i htag
    have hresult := live_result hps fun hD ↦ (hn hD).2.2 htag
    split
    · exact live_procedure.2 hresult
    · exact h
    · exact live_chain (fun a ha ↦ hps a (List.mem_of_mem_dropLast ha)) hresult
  · exact h

theorem live_spread (hps : ∀ q ∈ ps, Live D store q) (count : Nat) :
    ∀ a ∈ spread ps count, Live D store a := by
  have hargs : ∀ a ∈ arguments ps, Live D store a := fun a ha ↦ hps a (List.mem_of_mem_dropLast ha)
  intro a ha
  rw [spread] at ha
  split at ha
  · cases ha
  · rename_i b bs heq
    rw [heq] at hargs
    obtain ⟨i, -, rfl⟩ := List.mem_map.1 ha
    cases hi : (b :: bs)[i]? with
    | none => exact hargs _ (List.getLast_mem _)
    | some c => exact hargs c (List.mem_of_getElem? hi)

/-! ## States -/

/-- The invariant of inference on live types. -/
structure Orderly (D : Prop) (s : InferenceState) : Prop where
  wf : s.store.WF
  acyclic : s.store.Acyclic
  solutions : ∀ k t, s.store.value? k = some t → Live D s.store t
  cached : ∀ key t, s.types.get? key = some t → Live D s.store t

/-- `s'` is orderly and has the unknowns of `s`. -/
structure Moves (D : Prop) (s s' : InferenceState) : Prop where
  orderly : Orderly D s'
  keeps : ∀ id, s.store.contains id = true → s'.store.contains id = true

theorem Moves.refl (hs : Orderly D s) : Moves D s s := ⟨hs, fun _ ↦ id⟩

theorem Moves.trans (h : Moves D s s') (h' : Moves D s' s'') : Moves D s s'' :=
  ⟨h'.orderly, fun id hid ↦ h'.keeps id (h.keeps id hid)⟩

theorem Moves.live (h : Moves D s s') (ht : Live D s.store t) : Live D s'.store t := ht.mono h.keeps

/-- A step that writes to the log only moves. -/
theorem Orderly.moves_of_eq (hs : Orderly D s) (hstore : s'.store = s.store)
    (htypes : s'.types = s.types) : Moves D s s' := by
  obtain ⟨hwf, hacyclic, hsolutions, hcached⟩ := hs
  exact ⟨⟨hstore ▸ hwf, hstore ▸ hacyclic, hstore ▸ hsolutions, hstore ▸ htypes ▸ hcached⟩,
    fun _ h ↦ hstore ▸ h⟩

theorem Orderly.built (hs : Orderly D s) : s.store.Built (Node.Live D) := fun k t h ↦
  (hs.solutions k t h).built

theorem Orderly.closed (hs : Orderly D s) : s.store.Closed :=
  fun k t h ↦ (hs.solutions k t h).registered

theorem Orderly.live_apply (hs : Orderly D s) (ht : Live D s.store t) :
    Live D s.store (s.store.apply t) :=
  ⟨hs.built.apply ht.built, hs.closed.apply ht.registered⟩

/-- The step moves and its result satisfies `P`, or it fails with a failure that is `Excused`. -/
def Proceeds (D : Prop) (x : Infer α) (s : InferenceState) (P : α → InferenceState → Prop) : Prop :=
  Ensures x s (fun a s' ↦ Moves D s s' ∧ P a s') (fun f _ ↦ f.Excused D)

/-- The step moves and finds a live type. -/
def Produces (D : Prop) (x : Infer Ty) (s : InferenceState) : Prop :=
  Proceeds D x s fun t s' ↦ Live D s'.store t

variable {P : α → InferenceState → Prop} {Q : β → InferenceState → Prop}

theorem proceeds_pure {a : α} (hs : Orderly D s) (h : P a s) : Proceeds D (pure a) s P :=
  ⟨.refl hs, h⟩

theorem proceeds_fail {f : Failure} (hf : f.diagnostic?.isSome) :
    Proceeds D (fail f : Infer α) s P := by
  rw [Proceeds]
  exact ensures_fail fun _ ↦ .inl hf

theorem Proceeds.bind {x : Infer α} {f : α → Infer β} (hx : Proceeds D x s P)
    (hf : ∀ a s₁, Moves D s s₁ → P a s₁ → Proceeds D (f a) s₁ Q) : Proceeds D (x >>= f) s Q := by
  rw [Proceeds, ensures_bind]
  refine Ensures.mono hx (fun a s₁ h ↦ ?_) fun _ _ ↦ id
  exact Ensures.mono (hf a s₁ h.1 h.2) (fun b s₂ h' ↦ ⟨h.1.trans h'.1, h'.2⟩) fun _ _ ↦ id

theorem proceeds_ite {c : Prop} [Decidable c] {x y : Infer α} (hx : c → Proceeds D x s P)
    (hy : ¬ c → Proceeds D y s P) : Proceeds D (if c then x else y) s P := by
  split
  · exact hx ‹_›
  · exact hy ‹_›

/-! ## Steps -/

theorem produces_newUnknown (hs : Orderly D s) (stem : String) :
    Produces D (newUnknown stem) s := by
  rw [Produces, Proceeds, ensures_ok (run_newUnknown stem)]
  generalize stem ++ "#" ++ toString (s.counter + 1) = id
  obtain ⟨hwf, hval⟩ := Forest.value?_add hs.wf id (Ty.unknown id)
  have hnew : (s.store.add id (.unknown id)).contains id = true :=
    Forest.contains_of_value? ((hval id).trans (if_pos rfl))
  have hkeeps : ∀ k, s.store.contains k = true →
      (s.store.add id (.unknown id)).contains k = true := by
    intro k hk
    by_cases h : id = k
    · exact h ▸ hnew
    · obtain ⟨v, hv⟩ := hs.wf.value?_isSome hk
      exact Forest.contains_of_value? ((hval k).trans ((if_neg h).trans hv))
  refine ⟨⟨⟨hwf, acyclic_add hs.wf hs.acyclic id, fun k t ht ↦ ?_,
    fun key t ht ↦ (hs.cached key t ht).mono hkeeps⟩, hkeeps⟩, live_unknown hnew⟩
  rw [hval k] at ht
  split at ht
  · cases ht
    exact live_unknown hnew
  · exact (hs.solutions k t ht).mono hkeeps

theorem proceeds_applied (hs : Orderly D s) (t : Ty) :
    Proceeds D (applied t) s fun w s' ↦ s' = s ∧ w = s.store.apply t := by
  rw [Proceeds, ensures_applied]
  exact ⟨fun _ ↦ ⟨.refl hs, rfl, rfl⟩, fun h ↦ absurd (hs.acyclic.settles t) h⟩

theorem produces_applied (hs : Orderly D s) (ht : Live D s.store t) : Produces D (applied t) s := by
  refine (proceeds_applied hs t).mono ?_ fun _ _ ↦ id
  rintro _ _ ⟨hm, rfl, rfl⟩
  exact ⟨hm, hs.live_apply ht⟩

/-- To record a live type is a step that produces it. -/
theorem produces_recorded (hs : Orderly D s) (site : Site) (ht : Live D s.store t) :
    Produces D (do record site t; return t) s := by
  exact ⟨⟨⟨hs.wf, hs.acyclic, hs.solutions, OrdMap.forall_get?_insert hs.cached ht⟩, fun _ ↦ id⟩,
    ht⟩

/-- Unification of definite types ends. -/
theorem ensures_unify_ends (hD : D) (hs : Orderly D s) (h₁ : Live D s.store t₁)
    (h₂ : Live D s.store t₂) :
    Ensures (unify t₁ t₂ e₁ e₂) s (fun _ _ ↦ True) (fun f _ ↦ ¬ f.Endless) := by
  have hp : ∀ tag arity, Node.Live D (.con tag arity) → tag ≠ "Any" ∧ tag ≠ "?" :=
    fun tag arity h ↦ ⟨(h.2.2 hD).1, (h.2.2 hD).2.1⟩
  have hdepth : Ensures (unify t₁ t₂ e₁ e₂) s (fun _ _ ↦ True) (fun f _ ↦ f ≠ .tooDeep) := by
    refine ensures_unify_of_acyclic hs.acyclic ?_
    exact (ensures_unifyWithin_depth hp _ hs.wf hs.acyclic hs.built h₁.built h₂.built
      (Nat.le_max_left ..) (Nat.le_max_right ..) (depth_lt_unifyDepth ..)).mono
      (fun _ _ _ ↦ trivial) fun _ _ ↦ id
  refine (hdepth.and
    (ensures_unify_solves hp e₁ e₂ hs.wf hs.acyclic hs.built h₁.built h₂.built)).mono
    (fun _ _ _ ↦ trivial) ?_
  rintro f s' ⟨hdeep, hbounded, -⟩ (h | h)
  · exact hbounded h
  · exact hdeep h

/-- Unification produces the common type. -/
theorem produces_unify (hs : Orderly D s) (h₁ : Live D s.store t₁) (h₂ : Live D s.store t₂) :
    Produces D (unify t₁ t₂ e₁ e₂) s := by
  have hp : ¬ Node.Live D .var ∧ ¬ Node.Live D .all := ⟨fun h ↦ h.1 rfl, fun h ↦ h.2.1 rfl⟩
  have hends : Ensures (unify t₁ t₂ e₁ e₂) s (fun _ _ ↦ True) (fun f _ ↦ f.Endless → ¬ D) := by
    by_cases hD : D
    · exact (ensures_unify_ends hD hs h₁ h₂).mono (fun _ _ ↦ id) fun _ _ h h' ↦ absurd h' h
    · exact Ensures.mono ((framed_unify t₁ t₂ e₁ e₂).ensures_cache (K := ∅) s) (fun _ _ _ ↦ trivial)
        fun _ _ _ _ ↦ hD
  have hkept := ensures_unify_hereditary (hereditary_held _ s.store) e₁ e₂ hs.wf hs.acyclic
    hs.solutions h₁ h₂
  refine ((hkept.and hends).and ((framed_unify t₁ t₂ e₁ e₂).ensures_cache (K := ∅) s)).mono ?_ ?_
  · rintro w s' ⟨⟨⟨h, hw⟩, -⟩, hcache⟩
    have hkeeps : ∀ id, s.store.contains id = true → s'.store.contains id = true := fun id hid ↦
      (h.contains_eq id).trans hid
    refine ⟨⟨⟨h.wf, h.acyclic, fun k t ht ↦ (h.all k t ht).mono hkeeps, fun key t ht ↦ ?_⟩, hkeeps⟩,
      hw.mono hkeeps⟩
    rw [hcache key (Set.notMem_empty key)] at ht
    exact (hs.cached key t ht).mono hkeeps
  · rintro f s' ⟨⟨h, hends⟩, -⟩
    exact (h.reason.of_held hp).imp_right fun hf ↦ ⟨hf, hends hf⟩

/-! ## Instantiation and generalisation -/

/-- The instances are live types. -/
def LiveInstances (D : Prop) (store : Store) (instances : Env) : Prop :=
  ∀ name t, instances.get? name = some t → Live D store t

/-- Instantiation of `t` produces a live type. -/
def Instantiable (D : Prop) (t : Ty) : Prop :=
  ∀ {s : InferenceState} {instances : Env}, Orderly D s → LiveInstances D s.store instances →
    Known D s.store t → Proceeds D (instantiateWith instances t) s
      fun r s' ↦ Live D s'.store r.1 ∧ LiveInstances D s'.store r.2

theorem proceeds_instantiateList {ts : List Ty} {instances : Env} (ih : ∀ t ∈ ts, Instantiable D t)
    (hs : Orderly D s) (hi : LiveInstances D s.store instances)
    (hts : ∀ t ∈ ts, Known D s.store t) :
    Proceeds D (instantiateList instances ts) s
      fun r s' ↦ (r.1.length = ts.length ∧ ∀ t ∈ r.1, Live D s'.store t) ∧
        LiveInstances D s'.store r.2 := by
  induction ts generalizing s instances with
  | nil => exact proceeds_pure hs ⟨⟨rfl, nofun⟩, hi⟩
  | cons t ts ih' =>
    rw [List.forall_mem_cons] at ih hts
    rw [instantiateList]
    refine (ih.1 hs hi hts.1).bind fun r s₁ hm₁ hr ↦ ?_
    refine (ih' ih.2 hm₁.orderly hr.2 fun t h ↦ (hts.2 t h).mono hm₁.keeps).bind
      fun rs s₂ hm₂ hrs ↦ ?_
    obtain ⟨⟨hlen, hrs⟩, hi₂⟩ := hrs
    refine proceeds_pure hm₂.orderly ⟨⟨?_, ?_⟩, hi₂⟩
    · rw [List.length_cons, List.length_cons, hlen]
    · exact List.forall_mem_cons.2 ⟨hm₂.live hr.1, hrs⟩

theorem instantiable (D : Prop) (t : Ty) : Instantiable D t := by
  induction t with
  | unknown id =>
    exact fun hs hi ht ↦
      proceeds_pure hs ⟨live_unknown (Store.registered_unknown.1 ht.registered), hi⟩
  | var name =>
    intro s instances hs hi _
    rw [instantiateWith]
    split
    · rename_i t hname
      exact proceeds_pure hs ⟨hi name t hname, hi⟩
    · refine (produces_newUnknown hs name).bind fun t s₁ hm ht ↦ proceeds_pure hm.orderly ⟨ht, ?_⟩
      exact OrdMap.forall_get?_insert (fun name' t' h ↦ hm.live (hi name' t' h)) ht
  | all bound body ih =>
    exact fun hs hi ht ↦ ih hs hi ⟨(built_all.1 ht.built).2, ht.registered⟩
  | con tag ps ih =>
    intro s instances hs hi ht
    obtain ⟨hn, hps⟩ := held_con.1 ht
    rw [instantiateWith]
    refine (proceeds_instantiateList ih hs hi hps).bind fun r s₁ hm hr ↦ ?_
    obtain ⟨⟨hlen, hr⟩, hi₁⟩ := hr
    exact proceeds_pure hm.orderly ⟨live_curried (live_con.2 ⟨hlen ▸ hn, hr⟩), hi₁⟩
  | variadic min max ps ih =>
    intro s instances hs hi ht
    obtain ⟨hn, hps⟩ := held_variadic.1 ht
    rw [instantiateWith]
    refine (proceeds_instantiateList ih hs hi hps).bind fun r s₁ hm hr ↦ ?_
    obtain ⟨⟨hlen, hr⟩, hi₁⟩ := hr
    exact proceeds_pure hm.orderly ⟨live_variadic.2 ⟨hlen ▸ hn, hr⟩, hi₁⟩

theorem produces_instantiate (hs : Orderly D s) (ht : Known D s.store t) :
    Produces D (instantiate t) s :=
  (instantiable D t hs (by simp [LiveInstances]) ht).bind fun _ _ hm h ↦
    proceeds_pure hm.orderly h.1

/-- A live type is `Known` after its unknowns were named. -/
theorem NamedTo.known {fixed : List String} {st : NamingState} {G : Ty} (h : NamedTo fixed st t G)
    (ht : Live D store t) : Known D store G := by
  rw [h.eq]
  refine ⟨Built.fill (Built.mono ht.built fun _ hn ↦ .inr hn.2.2) fun r hr ↦ ?_, fun id hid ↦ ?_⟩
  · rcases h.nameIn_eq hr with ⟨-, hr⟩ | ⟨name, -, hr⟩ <;> rw [hr]
    · exact built_unknown.2 fun _ ↦ trivial
    · exact built_var.2 fun _ ↦ trivial
  · obtain ⟨r, hr, hid⟩ := mem_unknowns_fill.1 hid
    rcases h.nameIn_eq hr with ⟨-, hr'⟩ | ⟨name, -, hr'⟩ <;> rw [hr'] at hid
    · rw [List.mem_singleton.1 hid]
      exact ht.registered r hr
    · cases hid

/-- Every live type can be generalised, and the result is `Known`. -/
theorem ensures_generalize_live (hs : Orderly D s) (env : Env) (ht : Live D s.store t) :
    Ensures (generalize env t) s
      (fun r s' ↦ s' = { s with log := s'.log } ∧ GeneralizedTo s.store env t r.1 ∧
        Known D s.store r.1)
      (fun _ _ ↦ False) := by
  rw [generalize, ensures_bind, ensures_get]
  have hlive := hs.live_apply ht
  refine (ensures_generalizeNamed hs.wf hs.acyclic env t).mono ?_ ?_
  · rintro ⟨G, naming⟩ s' ⟨hs', names, hst, hG⟩
    exact ⟨hs', hG.generalizedTo hst hs.acyclic, hG.known hlive⟩
  · rintro f s' ⟨r, hr, hnone⟩
    obtain ⟨v, hv⟩ := hs.wf.value?_isSome (hlive.registered r hr)
    exact absurd (hnone.symm.trans hv) (by simp)

theorem proceeds_generalize (hs : Orderly D s) (env : Env) (ht : Live D s.store t) :
    Proceeds D (generalize env t) s fun r s' ↦ Known D s'.store r.1 := by
  refine (ensures_generalize_live hs env ht).mono ?_ fun _ _ ↦ False.elim
  rintro r s' ⟨hs', -, hr⟩
  rw [hs']
  exact ⟨hs.moves_of_eq rfl rfl, hr⟩

end Infer

end SchemeTyping
