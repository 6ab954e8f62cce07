import SchemeTyping.Proofs.Inference.Lockstep
import SchemeTyping.Proofs.Inference.Parallel.Rules

/-!
# What an expression can find out

An expression that uses some names of an environment only finds out about the unknowns in the types
of these names.  For definite types the solutions of a store are all that is known of its unknowns,
so this can be stated by solutions.

## What is here

* `Confined base W store` — of the unknowns of an earlier store `base`, the store determines no more
  than by those with `W`: a solution can be changed on the others to any solution of `base`.
* `Determined base W store k` — the type of `k` depends on the unknowns with `W` and on new ones
  only.
* `locality_parallel` — all steps preserve both, which is proved by a comparison of a run with
  itself.
* `anchoring` — so the types that an expression finds are `Anchored` in the names it uses: an
  unknown that is left in such a type and occurs in the environment occurs in the type of one of
  these names, because otherwise it could be changed at the other names.
-/

set_option autoImplicit false

namespace SchemeTyping

theorem Ty.eq_of_fill_eq {f g : String → Ty} {t : Ty} (h : t.fill f = t.fill g) :
    ∀ k ∈ t.unknowns, f k = g k := by
  have hrow : ∀ ps : List Ty, ps.map (fill f) = ps.map (fill g) → ∀ p ∈ ps, p.fill f = p.fill g :=
    fun ps h ↦ List.map_inj_left.1 h
  induction t with
  | var => simp
  | unknown id =>
    rintro k hk
    rw [List.mem_singleton.1 hk]
    exact h
  | con tag ps ih =>
    rw [fill_con, fill_con, con.injEq] at h
    intro k hk
    obtain ⟨p, hp, hk⟩ := List.mem_flatMap.1 (unknowns_con tag ps ▸ hk)
    exact ih p hp (hrow ps h.2 p hp) k hk
  | variadic min max ps ih =>
    rw [fill_variadic, fill_variadic, variadic.injEq] at h
    intro k hk
    obtain ⟨p, hp, hk⟩ := List.mem_flatMap.1 (unknowns_variadic ps min max ▸ hk)
    exact ih p hp (hrow ps h.2.2 p hp) k hk
  | all bound body ih => exact ih (all.inj h).2

/-! ## Solutions -/

namespace Store

variable {base store store' : Store} {W : String → Prop} {θ θ₀ : String → Ty}
  {k : String} {t u : Ty}

/-- `θ₀` on the unknowns of `base`, and `θ` on the others. -/
def mix (base : Store) (θ₀ θ : String → Ty) (k : String) : Ty :=
  if base.contains k then θ₀ k else θ k

/-- A solution of `store` stays one if it is changed on `base` to a solution of `base` that agrees
on the unknowns with `W`. -/
def Confined (base : Store) (W : String → Prop) (store : Store) : Prop :=
  ∀ θ θ₀, store.Solves θ → base.Solves θ₀ → (∀ k, W k → θ₀ k = θ k) → store.Solves (base.mix θ₀ θ)

/-- The type of `k` depends on the unknowns with `W` and on those that are not in `base` only. -/
def Determined (base : Store) (W : String → Prop) (store : Store) (k : String) : Prop :=
  ∀ θ θ', store.Solves θ → store.Solves θ' → (∀ j, W j ∨ base.contains j = false → θ j = θ' j) →
    θ k = θ' k

theorem confined_self (hbase : base.Closed) (W : String → Prop) : Confined base W base := by
  intro θ θ₀ _ hθ₀ _ k t ht
  rw [mix, if_pos (Forest.contains_of_value? ht), hθ₀ k t ht]
  refine Ty.fill_congr fun j hj ↦ ?_
  rw [Ty.unknowns_core] at hj
  rw [mix, if_pos (hbase k t ht j hj)]

theorem determined_of_mem (hk : W k) : Determined base W store k := fun _ _ _ _ h ↦ h k (.inl hk)

theorem determined_of_new (hk : base.contains k = false) : Determined base W store k :=
  fun _ _ _ _ h ↦ h k (.inr hk)

theorem Determined.mono (h : Determined base W store k)
    (hsolves : ∀ θ, store'.Solves θ → store.Solves θ) : Determined base W store' k :=
  fun θ θ' hθ hθ' ↦ h θ θ' (hsolves θ hθ) (hsolves θ' hθ')

/-- A type that all solutions make equal to a determined one is determined. -/
theorem determined_of_fill (h : ∀ k ∈ t.unknowns, Determined base W store k)
    (hu : ∀ θ, store.Solves θ → u.core.fill θ = t.core.fill θ) :
    ∀ k ∈ u.unknowns, Determined base W store k := by
  intro k hk θ θ' hθ hθ' hagree
  have ht : t.core.fill θ = t.core.fill θ' := Ty.fill_congr fun j hj ↦
    h j (Ty.unknowns_core t ▸ hj) θ θ' hθ hθ' hagree
  exact Ty.eq_of_fill_eq ((hu θ hθ).trans (ht.trans (hu θ' hθ').symm)) k
    ((Ty.unknowns_core u).symm ▸ hk)

theorem determined_apply (h : ∀ k ∈ t.unknowns, Determined base W store k) :
    ∀ k ∈ (store.apply t).unknowns, Determined base W store k :=
  determined_of_fill h fun _ hθ ↦ hθ.fill_apply t

/-- `mix` does not change what is determined. -/
theorem Determined.mix_eq (hk : Determined base W store k) (hconfined : Confined base W store)
    (hθ : store.Solves θ) (hθ₀ : base.Solves θ₀) (hagree : ∀ k, W k → θ₀ k = θ k) :
    base.mix θ₀ θ k = θ k := by
  refine hk _ θ (hconfined θ θ₀ hθ hθ₀ hagree) hθ fun j hj ↦ ?_
  rw [mix]
  split
  · exact hagree j (hj.resolve_right fun h ↦ by simp_all)
  · rfl

/-- An equation between determined types keeps a store confined. -/
theorem Confined.equate (hconfined : Confined base W store)
    (ht : ∀ k ∈ t.unknowns, Determined base W store k)
    (hu : ∀ k ∈ u.unknowns, Determined base W store k)
    (hsolves : ∀ θ, store'.Solves θ ↔ store.Solves θ ∧ t.core.fill θ = u.core.fill θ) :
    Confined base W store' := by
  intro θ θ₀ hθ hθ₀ hagree
  obtain ⟨hθ, heq⟩ := (hsolves θ).1 hθ
  have hmix : ∀ v : Ty, (∀ k ∈ v.unknowns, Determined base W store k) →
      v.core.fill (base.mix θ₀ θ) = v.core.fill θ := fun v hv ↦ Ty.fill_congr fun k hk ↦
    (hv k (Ty.unknowns_core v ▸ hk)).mix_eq hconfined hθ hθ₀ hagree
  exact (hsolves _).2 ⟨hconfined θ θ₀ hθ hθ₀ hagree, by rw [hmix t ht, hmix u hu, heq]⟩

/-- An unknown that is left in a determined type and in the type of an unknown of `base` is left in
the type of one with `W`. -/
theorem Confined.exists_mem (hconfined : Confined base W store) (hs : store.Acyclic)
    (hbase : ∀ θ, store.Solves θ → base.Solves θ) (ht : ∀ k ∈ t.unknowns, Determined base W store k)
    {v : String} (hv : v ∈ (store.apply t).unknowns) (hk : base.contains k = true)
    (hvk : v ∈ (store.apply (.unknown k)).unknowns) :
    ∃ j, W j ∧ v ∈ (store.apply (.unknown j)).unknowns := by
  by_contra hnone
  rw [not_exists] at hnone
  -- A solution in which something else stands for the unknown, out of sight.
  let ρ : String → Ty := fun j ↦ if j = v then .con "" [] else .unknown j
  have hσ := solves_solution hs
  have hσ₀ : base.Solves fun j ↦ (store.solution j).fill ρ := hbase _ (hσ.fill ρ)
  have hagree : ∀ j, W j → (store.solution j).fill ρ = store.solution j := by
    intro j hj
    refine (Ty.fill_congr fun i hi ↦ if_neg ?_).trans (Ty.fill_self _)
    rintro rfl
    exact hnone j ⟨hj, Ty.unknowns_core _ ▸ hi⟩
  have hmix := hconfined _ _ hσ hσ₀ hagree
  -- The type is the same in it, so the unknown stands for itself.
  obtain ⟨j, hj, hvj⟩ : ∃ j ∈ t.unknowns, v ∈ (store.solution j).unknowns := by
    rw [apply_eq_fill, Ty.mem_unknowns_fill] at hv
    simpa only [solution, Ty.unknowns_core] using hv
  have hself : base.mix (fun j ↦ (store.solution j).fill ρ) store.solution v = .unknown v := by
    have hj := (ht j hj).mix_eq hconfined hσ hσ₀ hagree
    rw [hmix.eq_fill_solution j] at hj
    exact Ty.eq_of_fill_eq (hj.trans (Ty.fill_self _).symm) v hvj
  -- But it occurs in the type of an unknown out of sight.
  have hother : ρ v = base.mix (fun j ↦ (store.solution j).fill ρ) store.solution v := by
    have hk := hmix.eq_fill_solution k
    rw [mix, if_pos ‹_›] at hk
    exact Ty.eq_of_fill_eq hk v ((Ty.unknowns_core _).symm ▸ hvk)
  rw [hself] at hother
  exact absurd hother (by simp [ρ])

/-- A new unknown adds no equation. -/
theorem solves_add_iff (hs : store.WF) (hk : store.contains k = false) :
    Solves (store.add k (.unknown k)) θ ↔ store.Solves θ := by
  have hval := (Forest.value?_add hs k (Ty.unknown k)).2
  refine ⟨fun h j t ht ↦ h j t ?_, fun h j t ht ↦ ?_⟩
  · rw [hval j, if_neg, ht]
    rintro rfl
    exact Bool.false_ne_true (hk.symm.trans (Forest.contains_of_value? ht))
  · rw [hval j] at ht
    split at ht
    · subst j
      cases ht
      rfl
    · exact h j t ht

end Store

namespace Infer

open Ty Store

/-! ## The comparison -/

/-- The world of a run that is compared with itself. -/
structure Local where
  world : Lockstep

/-- In a later world the store on the left has more equations. -/
instance : Preorder Local where
  le v v' := v.world ≤ v'.world ∧ ∀ θ, v'.world.left.Solves θ → v.world.left.Solves θ
  le_refl _ := ⟨le_rfl, fun _ ↦ id⟩
  le_trans _ _ _ h h' := ⟨h.1.trans h'.1, fun θ hθ ↦ h.2 θ (h'.2 θ hθ)⟩

variable {D : Prop} {base : Store} {W : String → Prop} {v v' : Local}
  {s t : InferenceState} {a b : Ty}
  {Γ : Scope} {env env' : Env}

/-- Runs in lockstep where the store of the first is `Confined`. -/
def locality (D : Prop) (base : Store) (W : String → Prop) : Comparison Local where
  left v := v.world.left
  right v := v.world.right
  states v s t :=
    v.world.States D s t ∧ (∀ k, base.contains k = true → v.world.left.contains k = true) ∧
    Confined base W v.world.left
  types v a b := (lockstep D).types v.world a b ∧ ∀ k ∈ a.unknowns, Determined base W v.world.left k
  entries v a b :=
    (lockstep D).entries v.world a b ∧ ∀ k ∈ a.unknowns, Determined base W v.world.left k
  partners v a b := (lockstep D).partners v.world a b

/-- `s'` has the equations of `s` and is confined, and the type `a` is determined. -/
def Local.Keeps (base : Store) (W : String → Prop) (s : InferenceState) (a : Ty)
    (s' : InferenceState) : Prop :=
  (∀ θ, s'.store.Solves θ → s.store.Solves θ) ∧ Confined base W s'.store ∧
    ∀ k ∈ a.unknowns, Determined base W s'.store k

/-- Steps that match in lockstep match under `locality` if the first one satisfies `Local.Keeps`. -/
theorem matches_locality {x y : Infer Ty}
    (hxy : Matches (lockstep D).states (lockstep D).types v.world x y s t)
    (hst : (locality D base W).states v s t)
    (hx : Ensures x s (Local.Keeps base W s) fun _ _ ↦ True) :
    Matches (locality D base W).states (locality D base W).types v x y s t := by
  refine hxy.transfer hx (ensures_true y t) fun w' s' t' a b hle hst' hab hs' _ ↦ ?_
  obtain ⟨hsolves, hconfined, hdetermined⟩ := hs'
  rw [hst'.left] at hsolves hconfined hdetermined
  rw [hst.1.left] at hsolves
  exact ⟨⟨w'⟩, ⟨hle, hsolves⟩,
    ⟨hst', fun k hk ↦ Lockstep.keeps_left hle k (hst.2.1 k hk), hconfined⟩, hab,
    hdetermined⟩

theorem keeps_newUnknown (hst : (locality D base W).states v s t) (stem : String) :
    Ensures (newUnknown stem) s (Local.Keeps base W s) fun _ _ ↦ True := by
  obtain ⟨hst, hkeys, hconfined⟩ := hst
  rw [← hst.left] at hkeys hconfined
  have hnew := hst.twins.numbered_left.contains_new stem
  have hsolves := fun θ ↦ solves_add_iff (θ := θ) hst.twins.wf_left hnew
  rw [ensures_ok (run_newUnknown stem)]
  refine ⟨fun θ ↦ (hsolves θ).1, fun θ θ₀ hθ hθ₀ hagree ↦
    (hsolves _).2 (hconfined θ θ₀ ((hsolves θ).1 hθ) hθ₀ hagree), fun k hk ↦ determined_of_new ?_⟩
  rw [List.mem_singleton.1 hk]
  exact Bool.eq_false_iff.2 fun h ↦ Bool.false_ne_true (hnew.symm.trans (hkeys _ h))

theorem keeps_applied (hst : (locality D base W).states v s t)
    (ha : (locality D base W).types v a b) :
    Ensures (applied a) s (Local.Keeps base W s) fun _ _ ↦ True := by
  obtain ⟨hst, -, hconfined⟩ := hst
  have hdetermined := ha.2
  rw [← hst.left] at hconfined hdetermined
  rw [ensures_applied]
  exact ⟨fun _ ↦ ⟨fun _ ↦ id, hconfined, determined_apply hdetermined⟩, fun _ ↦ trivial⟩

/-- Unification of definite types adds the equation between them and no more. -/
theorem keeps_unify (hD : D) (hst : (locality D base W).states v s t) {a' b' : Ty}
    (ha : (locality D base W).types v a a') (hb : (locality D base W).types v b b')
    (e₁ e₂ : Option Mention) :
    Ensures (unify a b e₁ e₂) s (Local.Keeps base W s) fun _ _ ↦ True := by
  obtain ⟨hst, -, hconfined⟩ := hst
  obtain ⟨⟨-, ha, -⟩, hda⟩ := ha
  obtain ⟨⟨-, hb, -⟩, hdb⟩ := hb
  rw [← hst.left] at hconfined ha hb hda hdb
  have hs := hst.orderly_left
  have hp : ∀ tag arity, Node.Live D (.con tag arity) → tag ≠ "Any" ∧ tag ≠ "?" :=
    fun tag arity h ↦ ⟨(h.2.2 hD).1, (h.2.2 hD).2.1⟩
  have hbare : ¬ Node.Live D .var ∧ ¬ Node.Live D .all := ⟨fun h ↦ h.1 rfl, fun h ↦ h.2.1 rfl⟩
  have hunify := ensures_unify_solves hp e₁ e₂ hs.wf hs.acyclic hs.built ha.built hb.built
  rcases hrun : (unify a b e₁ e₂).run s with ⟨f | u, s'⟩
  · exact (ensures_error hrun).2 trivial
  obtain ⟨hadvances, -, hagree⟩ := (ensures_ok hrun).1 hunify
  have hsolves : ∀ θ, s'.store.Solves θ ↔ s.store.Solves θ ∧ a.core.fill θ = b.core.fill θ := by
    refine fun θ ↦ ⟨fun hθ ↦ ⟨hadvances.solves θ hθ, (hagree θ hθ).1⟩, fun hθ ↦ ?_⟩
    exact ((ensures_ok hrun).1
      (ensures_unify_complete hp hbare e₁ e₂ hs.wf hs.acyclic hs.closed hs.built
      ha.built hb.built ha.registered hb.registered hθ.1 hθ.2)).2.2
  refine (ensures_ok hrun).2 ⟨hadvances.solves, hconfined.equate hda hdb hsolves, ?_⟩
  exact determined_of_fill (fun k hk ↦ (hda k hk).mono hadvances.solves) fun θ hθ ↦ (hagree θ hθ).2

/-! ## Generalisation -/

/-- The unknowns of a generalised type are left in the type. -/
theorem GeneralizedTo.mem_unknowns {store : Store} {G : Ty} (hG : GeneralizedTo store env a G) :
    ∀ k ∈ G.unknowns, k ∈ (store.apply a).unknowns := by
  obtain ⟨name, -, rfl⟩ := hG
  intro k hk
  obtain ⟨p, hp, hk⟩ := mem_unknowns_fill.1 hk
  split at hk
  · rwa [List.mem_singleton.1 hk]
  · cases hk

theorem locality_generalize (hst : (locality D base W).states v s t)
    (henv : (locality D base W).Environments D True v Γ env env')
    (hab : (locality D base W).types v a b) :
    Matches (locality D base W).states
      (fun v' r r' ↦ v' = v ∧ (locality D base W).entries v r.1 r'.1) v
      (generalize env a) (generalize env' b) s t := by
  obtain ⟨⟨hnames, hleft, hright⟩, hkl, hkr, hal, har⟩ := henv
  have henv : (lockstep D).Environments D True v.world Γ env env' :=
    ⟨⟨fun x y hxy ↦ rel_imp (hnames x y hxy) fun _ _ h ↦ h.1, hleft, hright⟩, hkl, hkr, hal, har⟩
  have hmatches := lockstep_generalize (P := False) (.inl trivial) hst.1 henv hab.1 False.elim
  have hs := ensures_generalize_live hst.1.orderly_left env (hst.1.left ▸ hab.1.2.1)
  refine hmatches.transfer hs (ensures_true _ t) ?_
  rintro w' s' t' r r' hle hst' ⟨rfl, hr⟩ ⟨-, hG, -⟩ -
  rw [hst.1.left] at hG
  refine ⟨v, le_rfl, ⟨hst', hst.2⟩, rfl, hr, fun k hk ↦ ?_⟩
  exact determined_apply hab.2 k (hG.mem_unknowns k hk)

/-! ## All steps -/

theorem locality_alike (hab : (locality D base W).types v a b) :
    Alike ((locality D base W).types v) a b := by
  obtain ⟨hab, hdetermined⟩ := hab
  have halike := lockstep_alike hab
  clear hab
  cases halike with
  | unknown x y => exact .unknown x y
  | con tag h =>
    refine .con tag (forall₂_imp_mem h fun p hp _ _ hpq ↦ ⟨hpq, fun k hk ↦ hdetermined k ?_⟩)
    rw [unknowns_con]
    exact List.mem_flatMap.2 ⟨p, hp, hk⟩
  | variadic min max h =>
    refine .variadic min max
      (forall₂_imp_mem h fun p hp _ _ hpq ↦ ⟨hpq, fun k hk ↦ hdetermined k ?_⟩)
    rw [unknowns_variadic]
    exact List.mem_flatMap.2 ⟨p, hp, hk⟩

theorem locality_row {ps qs : List Ty} (h : List.Forall₂ ((locality D base W).types v) ps qs) :
    List.Forall₂ ((lockstep D).types v.world) ps qs ∧
      ∀ k ∈ ps.flatMap unknowns, Determined base W v.world.left k := by
  induction h with
  | nil => exact ⟨.nil, by simp⟩
  | cons h _ ih => exact ⟨.cons h.1 ih.1, List.forall_mem_append.2 ⟨h.2, ih.2⟩⟩

/-- **All steps preserve locality**, for definite types. -/
theorem locality_parallel (hD : D) (base : Store) (W : String → Prop) :
    (locality D base W).Parallel D True False := by
  have h : (lockstep D).Parallel D True False := lockstep_parallel (.inl trivial)
  exact {
    orderly := fun hst ↦ h.orderly hst.1
    stores := fun hst ↦ h.stores hst.1
    keeps_left := fun hle ↦ h.keeps_left hle.1
    keeps_right := fun hle ↦ h.keeps_right hle.1
    types_mono := fun hle hab ↦ ⟨h.types_mono hle.1 hab.1, fun k hk ↦ (hab.2 k hk).mono hle.2⟩
    entries_mono := fun hle hab ↦ ⟨h.entries_mono hle.1 hab.1, fun k hk ↦ (hab.2 k hk).mono hle.2⟩
    partners_mono := fun hle hab ↦ h.partners_mono hle.1 hab
    entry := fun hab ↦ ⟨h.entry hab.1, hab.2⟩
    partner := fun hab ↦ h.partner hab.1
    known := fun hab ↦ h.known hab.1
    alike := locality_alike
    con :=
      fun hn hps ↦ ⟨h.con hn (locality_row hps).1, by rw [unknowns_con]; exact (locality_row hps).2⟩
    variadic := fun hn hps ↦
      ⟨h.variadic hn (locality_row hps).1, by rw [unknowns_variadic]; exact (locality_row hps).2⟩
    scheme := fun hab ↦ by
      obtain ⟨V, ρ, hV, hb, hunknown⟩ := h.scheme hab.1
      refine ⟨V, ρ, hV, hb, fun k hk ↦ ⟨hunknown k hk, fun j hj ↦ ?_⟩⟩
      rw [List.mem_singleton.1 hj]
      exact hab.2 k hk
    declared := fun hnil ha ↦ ⟨h.declared hnil ha, by simp [hnil]⟩
    newUnknown := fun stem stem' hst ↦
      matches_locality (h.newUnknown stem stem' hst.1) hst (keeps_newUnknown hst stem)
    unify := fun e₁ e₂ e₁' e₂' hst ha hb ↦
      matches_locality (h.unify e₁ e₂ e₁' e₂' hst.1 ha.1 hb.1) hst (keeps_unify hD hst ha hb e₁ e₂)
    applied := fun hst hab ↦ matches_locality (h.applied hst.1 hab.1) hst (keeps_applied hst hab)
    record := fun site site' hst hab ↦ ⟨h.record site site' hst.1 hab.1, hst.2⟩
    generalize := fun hst henv hab _ ↦ locality_generalize hst henv hab }

/-! ## Anchoring -/

/-- The unknowns in the types of names with `N`. -/
def InSight (N : String → Prop) (env : Env) (k : String) : Prop :=
  ∃ z S, N z ∧ env.get? z = some S ∧ k ∈ S.unknowns

/-- The initial world of a run that is compared with itself. -/
def Local.initial (store : Store) : Local := ⟨1, store, store⟩

variable {N : String → Prop}

theorem states_initial (hs : Orderly D s) (hnumbered : Numbered s) (W : String → Prop) :
    (locality D s.store W).states (.initial s.store) s s :=
  ⟨⟨hs, hs, rfl, rfl, hs.wf, hs.wf, .refl _, rfl, hnumbered, hnumbered⟩, fun _ ↦ id,
    confined_self hs.closed W⟩

theorem environments_initial {store : Store} (henv : KnownEnv D store env)
    (happarent : Apparent env) :
    (locality D store (InSight N env)).Environments D True (.initial store) (.only N) env env := by
  have hself : ∀ S : Ty, S.relabel id (1 : Equiv.Perm String) = S := fun S ↦
    (relabel_id _ S).trans (fill_self S)
  have hpartner : ∀ x S, env.get? x = some S → (lockstep D).partners ⟨1, store, store⟩ S S :=
    fun x S hx ↦ ⟨id, (hself S).symm, henv S (OrdMap.mem_values_of_get? hx)⟩
  refine ⟨⟨?_, fun _ x S hx _ ↦ ⟨x, S, rfl, hx, hpartner x S hx⟩,
    fun _ x S hx _ ↦ ⟨x, S, rfl, hx, hpartner x S hx⟩⟩, henv, henv, happarent, happarent⟩
  rintro x _ ⟨rfl, hN⟩
  cases hx : env.get? x with
  | none => exact .none
  | some S =>
    have hS := henv S (OrdMap.mem_values_of_get? hx)
    exact .some ⟨⟨⟨id, Function.injective_id, (hself S).symm⟩, hS, hS⟩,
      fun k hk ↦ determined_of_mem ⟨x, S, hN, hx, hk⟩⟩

/-- Types that are determined by the unknowns `InSight` are anchored. -/
theorem anchored_of_determined {s' t' : InferenceState} (henv : KnownEnv D s.store env)
    (hle : Local.initial s.store ≤ v) (hst : (locality D s.store (InSight N env)).states v s' t')
    (ha : ∀ k ∈ a.unknowns, Determined s.store (InSight N env) v.world.left k) :
    Anchored N env s'.store a := by
  obtain ⟨hst, -, hconfined⟩ := hst
  rw [← hst.left] at hconfined ha
  intro u hu hopen
  obtain ⟨S, hS, huS⟩ := mem_openIn_iff.1 hopen
  rw [Store.apply_eq_fill, mem_unknowns_fill] at huS
  obtain ⟨k, hk, huk⟩ := huS
  obtain ⟨j, ⟨z, T, hN, hz, hj⟩, huj⟩ := hconfined.exists_mem hst.orderly_left.acyclic
    (fun θ hθ ↦ hle.2 θ (hst.left ▸ hθ)) ha hu ((henv S hS).registered k hk) huk
  refine ⟨z, T, hN, hz, ?_⟩
  rw [Store.apply_eq_fill, mem_unknowns_fill]
  exact ⟨j, hj, huj⟩

/-- **The value of a name is anchored in the names that it uses**, for definite types. -/
theorem anchoring (hD : D) : Anchoring D where
  value := by
    intro N env s slot value site index hs hnumbered henv happarent hname hslot hlegible hrenamed
    have h := locality_parallel hD s.store (InSight N env)
    have hself : Renamed True .outside slot slot := by
      cases slot with
      | hole => exact .hole
      | binding => exact .binding rfl _
      | _ => cases hname
    have hvalue : Compared (locality D s.store (InSight N env)) D True (.only N) value value :=
      comparable h False.elim value (Scope.unambiguous_only N) hrenamed hlegible hlegible
    refine (matches_letValue h site site index (states_initial hs hnumbered _) hself hname
      hslot hvalue
      (environments_initial henv happarent)).ensures.mono ?_ fun _ _ ↦ id
    rintro a s' ⟨v, hle, hst, ha⟩
    exact anchored_of_determined henv hle hst ha.2
  recursive := by
    intro N env s bs site hs hnumbered henv happarent hslots hlegible hnames hvalues
    have h := locality_parallel hD s.store (InSight N env)
    have hΔ : ((Scope.only N).enter (bs.map (·.1)) (bs.map (·.1))).Unambiguous :=
      (Scope.unambiguous_only N).bindAll _
    have hvalues := compared_row (fun e _ ↦ comparable h False.elim e) hΔ hvalues
      (List.forall_mem_map.2 fun b hb ↦ (hlegible b hb).2)
        (List.forall_mem_map.2 fun b hb ↦ (hlegible b hb).2)
    refine (matches_recursiveValues h site site (Scope.unambiguous_only N)
      (forall₂_pairs (renamedRow_iff.1 hnames) hvalues) hslots (fun b hb ↦ (hlegible b hb).1)
      (fun _ ↦ (Scope.diagonal_only N).evenAll _) (states_initial hs hnumbered _)
      (environments_initial henv happarent)).ensures.mono ?_ fun _ _ ↦ id
    rintro r s' ⟨v, hle, hst, qs, hqs, -⟩ t ht
    obtain ⟨b, hb, rfl⟩ := List.mem_map.1 ht
    have hdetermined := (hqs.forall_mem fun a b hab ↦ ⟨hab.2, trivial⟩).1
    exact anchored_of_determined henv hle hst (hdetermined b hb)

end Infer

end SchemeTyping
