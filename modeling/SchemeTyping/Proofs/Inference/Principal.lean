import SchemeTyping.Proofs.Inference.Complete

/-!
# Inference finds principal types

If the typing rules derive a type for an expression, inference does not fail on it, and what it
finds becomes the derived type under some solution of its store (`Complete`).  The induction is on
the expression, with inversion of the derivation: every choice of a monotype in the derivation says
what the solution gives to an unknown.

For a whole tree the solution can be read as a substitution of the variables for the unknowns that
are left.  So all types of a tree are instances of the one that inference returns.
-/

set_option autoImplicit false

namespace SchemeTyping

theorem OrdMap.exists_get?_eq {κ α : Type} [DecidableEq κ] (ks : List κ) (f : κ → α) :
    ∃ m : OrdMap κ α, ∀ k ∈ ks, m.get? k = some (f k) := by
  induction ks with
  | nil => exact ⟨∅, nofun⟩
  | cons k ks ih =>
    obtain ⟨m, hm⟩ := ih
    refine ⟨m.insert k (f k), List.forall_mem_cons.2 ⟨OrdMap.get?_insert_self .., fun k' hk' ↦ ?_⟩⟩
    rw [OrdMap.get?_insert]
    split
    · rename_i h
      rw [h]
    · exact hm k' hk'

namespace Infer

open Ty Typing

variable {α : Type} {s s' : InferenceState} {Γ env : Env} {t w : Ty} {θ θ' : String → Ty}

/-- Visiting `e` finds every type that can be derived. -/
def Complete (e : Expr) : Prop :=
  ∀ {s : InferenceState} {Γ env : Env} {θ : String → Ty} {t : Ty} (site : Site), Fits Γ env s θ →
    e.All Admissible → HasType Γ e t → Finds (visit env site e) s θ t

/-! ## Sequences of steps -/

theorem Finds.bind {x : Infer Ty} {f : Ty → Infer α} {Q : α → InferenceState → Prop}
    (h : Finds x s θ t)
    (hf : ∀ w s₁ θ₁, Found s θ t w s₁ θ₁ → Ensures (f w) s₁ Q (fun _ _ ↦ False)) :
    Ensures (x >>= f) s Q (fun _ _ ↦ False) :=
  (ensures_bind ..).2 (h.mono (fun w s₁ ⟨θ₁, hw⟩ ↦ hf w s₁ θ₁ hw) fun _ _ ↦ id)

theorem Found.after {s₁ : InferenceState} {θ₁ : String → Ty} (h : Found s₁ θ₁ t w s' θ')
    (hk : Continues s θ s₁ θ₁) : Found s θ t w s' θ' :=
  ⟨hk.trans h.continues, h.simple, h.registered, h.fill_eq⟩

/-- What a later step finds is found from the earlier state. -/
theorem Finds.after {x : Infer Ty} (h : Finds x s' θ' t) (hk : Continues s θ s' θ') :
    Ensures x s' (fun w s'' ↦ ∃ θ'', Found s θ t w s'' θ'') (fun _ _ ↦ False) :=
  h.mono (fun _ _ ⟨θ'', hw⟩ ↦ ⟨θ'', hw.after hk⟩) fun _ _ ↦ id

theorem Found.recorded {site : Site} (h : Found s θ t w s' θ') :
    Ensures (do record site w; return w) s' (fun w s'' ↦ ∃ θ'', Found s θ t w s'' θ'')
      (fun _ _ ↦ False) :=
  ⟨θ', h.later (.of_store_eq h.continues.ready rfl rfl)⟩

theorem Found.atom {tag : String} (h : Ready s θ) (hspecial : tag ∉ specialTags)
    (hfun : tag ≠ "Function") : Found s θ (.con tag []) (.con tag []) s θ :=
  ⟨.refl h, simple_atom hspecial hfun, nofun, rfl⟩

theorem finds_applied (h : Ready s θ) (ht : t.Simple) (hr : s.store.Registered t) :
    Finds (applied t) s θ (t.fill θ) := by
  refine (ensures_applied_valid h.valid t).mono ?_ fun _ _ ↦ id
  rintro _ _ ⟨rfl, rfl⟩
  exact ⟨θ, .refl h, h.valid.simple_apply ht, h.closed.apply hr,
    h.valid.fill_apply h.solution.solves ht⟩

theorem Continues.mapValues_eq (h : Continues s θ s' θ')
    (henv : ∀ t ∈ env.values, s.store.Registered t) :
    env.mapValues (fill θ') = env.mapValues (fill θ) :=
  congrArg OrdMap.mk (List.map_congr_left fun e he ↦
    Prod.ext rfl (h.fill_eq (henv e.2 (List.mem_map_of_mem he))))

/-! ## Slots -/

theorem Declared.registered (h : Declared t) (store : Store) : store.Registered t := by
  simp [Store.Registered, h.unknowns_eq]

theorem ensures_identifier_slot {slot : Expr} (h : SlotType slot t) : Ensures (identifier slot) s
    (fun name s' ↦ s' = s ∧ slot.identifier? = some name) (fun _ _ ↦ False) := by
  cases h <;> exact ⟨rfl, rfl⟩

theorem finds_declared {d : Ty} (h : Ready s θ) (hd : Declared d) (ht : Instance d.scheme t) :
    Finds (instantiate d) s θ t :=
  finds_instantiate h hd.regular (hd.registered _) (by rwa [hd.fill_scheme])

theorem finds_binderType {slot : Expr} (h : Ready s θ) (hslot : SlotType slot t)
    (hadm : slot.All Admissible) (stem : String) : Finds (binderType slot stem) s θ t := by
  cases hslot with
  | hole ht | undeclared ht => exact finds_newUnknown h ht stem
  | declared ht hd => exact finds_declared h (Expr.all_iff.1 hadm).1 hd

theorem finds_valueType {slot : Expr} {e₁ e₂ : Option Mention} (h : Ready s θ)
    (hslot : SlotType slot t) (hadm : slot.All Admissible) (hw : w.Simple)
    (hr : s.store.Registered w) (heq : w.fill θ = t) : Finds (valueType slot w e₁ e₂) s θ t := by
  cases hslot with
  | hole | undeclared => exact ⟨θ, .refl h, hw, hr, heq⟩
  | declared ht hd =>
    refine (finds_declared h (Expr.all_iff.1 hadm).1 hd).bind fun u s₁ θ₁ hu ↦ ?_
    exact (finds_unify hu.continues.ready hu.simple hw hu.registered (hu.continues.registered hr)
      hu.fill_eq ((hu.continues.fill_eq hr).trans heq)).after hu.continues

/-- A slot has a type where its name is bound. -/
theorem exists_hasType_slot {slots : List Expr} {ts : List Ty} {bs : List (String × Ty)}
    (hslots : List.Forall₂ SlotType slots ts)
    (hbs : ∀ slot ∈ slots, ∀ name ∈ boundName? slot, name ∈ bs.map (·.1)) :
    ∀ slot ∈ slots, ∃ u, HasType (Γ.insertAll bs) slot u := by
  intro slot hmem
  obtain ⟨t, -, hslot⟩ := exists_mem_of_forall₂ hslots hmem
  have hbound : ∀ name ∈ boundName? slot, ∃ S, (Γ.insertAll bs).get? name = some S :=
    fun name hname ↦
    Option.isSome_iff_exists.1 (OrdMap.isSome_get?_insertAll (.inl (hbs slot hmem name hname)))
  cases hslot with
  | hole ht => exact ⟨t, .hole ht⟩
  | undeclared | declared =>
    obtain ⟨S, hS⟩ := hbound _ rfl
    exact ⟨_, .binding hS (instance_assign_const S mono_integer)⟩

theorem exists_hasType_bound {slots : List Expr} {ts us : List Ty}
    (hslots : List.Forall₂ SlotType slots ts) (hlen : slots.length = us.length) :
    ∀ slot ∈ slots, ∃ u, HasType (Γ.insertAll (bound slots us)) slot u :=
  exists_hasType_slot hslots fun _ hslot _ hname ↦ mem_bound_names hlen hslot hname

theorem ensures_paramTypes_complete {params : List Expr} {ts : List Ty} (h : Ready s θ)
    (hslots : List.Forall₂ SlotType params ts) (hadm : ∀ p ∈ params, p.All Admissible) :
    Ensures (paramTypes params) s
      (fun r s' ↦ ∃ θ', Continues s θ s' θ' ∧ (∀ w ∈ r.1, w.Simple ∧ s'.store.Registered w) ∧
        r.1.map (fill θ') = ts ∧ r.2 = bound params r.1)
      (fun _ _ ↦ False) := by
  induction hslots generalizing s θ with
  | nil => exact ⟨θ, .refl h, nofun, rfl, rfl⟩
  | @cons p t ps ts hslot _ ih =>
    rw [List.forall_mem_cons] at hadm
    rw [paramTypes, ensures_bind]
    refine (ensures_identifier_slot hslot).mono ?_ fun _ _ ↦ id
    rintro name _ ⟨rfl, hname⟩
    refine (finds_binderType h hslot hadm.1 name).bind fun w s₁ θ₁ hw ↦ ?_
    rw [ensures_bind]
    refine (ih hw.continues.ready hadm.2).mono ?_ fun _ _ ↦ id
    rintro ⟨ws, names⟩ s₂ ⟨θ₂, hk₂, hws, heq, hnames⟩
    have hw' := hw.later hk₂
    refine ⟨θ₂, hw'.continues, List.forall_mem_cons.2 ⟨⟨hw'.simple, hw'.registered⟩, hws⟩,
      List.cons_eq_cons.2 ⟨hw'.fill_eq, heq⟩, ?_⟩
    rw [bound_cons, boundName?_of_identifier hname]
    cases p.isHole <;> simp_all

/-- The types of the names of a `letrec` are those that the typing rules have chosen. -/
theorem ensures_recursiveTypes_complete {bindings : List (Expr × Expr)} {ts : List Ty} {known : Env}
    (h : Ready s θ) (hslots : List.Forall₂ SlotType (bindings.map (·.1)) ts)
    (hadm : ∀ b ∈ bindings, b.1.All Admissible)
    (hknown : ∀ t ∈ known.values, t.Simple ∧ s.store.Registered t) :
    Ensures (recursiveTypes bindings known) s
      (fun r s' ↦ ∃ θ', Continues s θ s' θ' ∧ (∀ t ∈ r.values, t.Simple ∧ s'.store.Registered t) ∧
        r.mapValues (fill θ') =
          (known.mapValues (fill θ)).insertAll (bound (bindings.map (·.1)) ts))
      (fun _ _ ↦ False) := by
  induction bindings generalizing s θ known ts with
  | nil =>
    cases hslots
    exact ⟨θ, .refl h, hknown, rfl⟩
  | cons b bs ih =>
    obtain ⟨name, value⟩ := b
    obtain ⟨t, ts, hslot, hrest, rfl⟩ := List.forall₂_cons_left_iff.1 hslots
    rw [List.forall_mem_cons] at hadm
    rw [recursiveTypes, ensures_ite]
    refine ⟨fun hhole ↦ ?_, fun hhole ↦ ?_⟩
    · obtain rfl : name = .hole := by cases name <;> first | rfl | cases hhole
      exact ih h hrest hadm.2 hknown
    · rw [ensures_bind]
      refine (ensures_identifier_slot hslot).mono ?_ fun _ _ ↦ id
      rintro x _ ⟨rfl, hname⟩
      refine (finds_binderType h hslot hadm.1 x).bind fun w s₁ θ₁ hw ↦ ?_
      have hknown₁ : ∀ t ∈ (known.insert x w).values, t.Simple ∧ s₁.store.Registered t := by
        intro t ht
        rcases OrdMap.mem_values_insert ht with rfl | ht
        · exact ⟨hw.simple, hw.registered⟩
        · exact ⟨(hknown t ht).1, hw.continues.registered (hknown t ht).2⟩
      refine (ih hw.continues.ready hrest hadm.2 hknown₁).mono ?_ fun _ _ ↦ id
      rintro r s₂ ⟨θ₂, hk₂, hr, heq⟩
      refine ⟨θ₂, hw.continues.trans hk₂, hr, heq.trans ?_⟩
      rw [OrdMap.mapValues_insert, hw.continues.mapValues_eq fun t ht ↦ (hknown t ht).2, hw.fill_eq,
        List.map_cons, bound_cons,
        boundName?_of_identifier hname, if_neg hhole]
      rfl

/-! ## Lists of expressions -/

theorem ensures_visitAll_complete {es : List Expr} (ih : ∀ e ∈ es, Complete e) (site : Site)
    (index : Nat) (h : Fits Γ env s θ) (hadm : ∀ e ∈ es, e.All Admissible)
    (hes : ∀ e ∈ es, ∃ t, HasType Γ e t) :
    Ensures (visitAll env site index es) s (fun _ s' ↦ ∃ θ', Continues s θ s' θ')
      (fun _ _ ↦ False) := by
  induction es generalizing s θ index with
  | nil => exact ⟨θ, .refl h.ready⟩
  | cons e es ih' =>
    rw [List.forall_mem_cons] at ih hadm hes
    obtain ⟨t, ht⟩ := hes.1
    rw [visitAll]
    refine (ih.1 _ h hadm.1 ht).bind fun w s₁ θ₁ hw ↦ ?_
    exact (ih' ih.2 (index + 1) (h.later hw.continues) hadm.2 hes.2).mono
      (fun _ _ ↦ Exists.imp fun _ ↦ hw.continues.trans) fun _ _ ↦ id

theorem ensures_visitNames_complete {bindings : List (Expr × Expr)}
    (ih : ∀ b ∈ bindings, Complete b.1) (site : Site) (index : Nat) (h : Fits Γ env s θ)
    (hadm : ∀ b ∈ bindings, b.1.All Admissible)
    (hnames : ∀ e ∈ bindings.map (·.1), ∃ t, HasType Γ e t) :
    Ensures (visitNames env site index bindings) s (fun _ s' ↦ ∃ θ', Continues s θ s' θ')
      (fun _ _ ↦ False) := by
  induction bindings generalizing s θ index with
  | nil => exact ⟨θ, .refl h.ready⟩
  | cons b bs ih' =>
    obtain ⟨name, value⟩ := b
    rw [List.forall_mem_cons] at ih hadm
    rw [List.map_cons, List.forall_mem_cons] at hnames
    obtain ⟨t, ht⟩ := hnames.1
    rw [visitNames]
    refine (ih.1 _ h hadm.1 ht).bind fun w s₁ θ₁ hw ↦ ?_
    exact (ih' ih.2 (index + 2) (h.later hw.continues) hadm.2 hnames.2).mono
      (fun _ _ ↦ Exists.imp fun _ ↦ hw.continues.trans) fun _ _ ↦ id

theorem finds_visitElements {es : List Expr} (ih : ∀ e ∈ es, Complete e) (site : Site) (index : Nat)
    (first : Option Mention) (h : Fits Γ env s θ) (hadm : ∀ e ∈ es, e.All Admissible)
    (hes : ∀ e ∈ es, HasType Γ e t) (hw : w.Simple) (hr : s.store.Registered w)
    (heq : w.fill θ = t) : Finds (visitElements env site index first w es) s θ t := by
  induction es generalizing s θ index first w with
  | nil => exact ⟨θ, .refl h.ready, hw, hr, heq⟩
  | cons e es ih' =>
    rw [List.forall_mem_cons] at ih hadm hes
    rw [visitElements]
    refine (ih.1 _ h hadm.1 hes.1).bind fun u s₁ θ₁ hu ↦ ?_
    refine (finds_unify hu.continues.ready hw hu.simple (hu.continues.registered hr) hu.registered
      ((hu.continues.fill_eq hr).trans heq) hu.fill_eq).bind fun v s₂ θ₂ hv ↦ ?_
    have hk := hu.continues.trans hv.continues
    exact (ih' ih.2 _ _ (h.later hk) hadm.2 hes.2 hv.simple hv.registered hv.fill_eq).after hk

theorem finds_visitSequence {es : List Expr} {ts : List Ty} (ih : ∀ e ∈ es, Complete e)
    (site : Site) (index : Nat) (h : Fits Γ env s θ) (hadm : ∀ e ∈ es, e.All Admissible)
    (hlen : es.length = ts.length) (hes : ∀ q ∈ es.zip ts, HasType Γ q.1 q.2) (hw : w.Simple)
    (hr : s.store.Registered w) (heq : w.fill θ = t) :
    Finds (visitSequence env site index w es) s θ (ts.getLastD t) := by
  induction es generalizing s θ index w t ts with
  | nil =>
    obtain rfl := List.length_eq_zero_iff.1 hlen.symm
    exact ⟨θ, .refl h.ready, hw, hr, heq⟩
  | cons e es ih' =>
    obtain ⟨u, us, rfl⟩ := List.exists_cons_of_length_eq_add_one hlen.symm
    rw [List.forall_mem_cons] at ih hadm
    rw [List.zip_cons_cons, List.forall_mem_cons] at hes
    rw [visitSequence, List.getLastD_cons]
    refine (ih.1 _ h hadm.1 hes.1).bind fun v s₁ θ₁ hv ↦ ?_
    exact (ih' ih.2 _ (h.later hv.continues) hadm.2
      (by simpa using hlen) hes.2 hv.simple hv.registered
      hv.fill_eq).after hv.continues

theorem finds_visitCases {cases : List (Expr × Expr)} {us : List Ty}
    (ih : ∀ c ∈ cases, Complete c.1 ∧ Complete c.2) (site : Site) (whole : Mention) (index : Nat)
    (h : Fits Γ env s θ) (hadm : ∀ c ∈ cases, c.1.All Admissible ∧ c.2.All Admissible)
    (hlen : cases.length = us.length) (hconds : ∀ q ∈ cases.zip us, HasType Γ q.1.1 q.2)
    (hvalues : ∀ c ∈ cases, HasType Γ c.2 t) (hw : w.Simple) (hr : s.store.Registered w)
    (heq : w.fill θ = t) : Finds (visitCases env site whole index w cases) s θ t := by
  induction cases generalizing s θ index w us with
  | nil => exact ⟨θ, .refl h.ready, hw, hr, heq⟩
  | cons c cs ih' =>
    obtain ⟨condition, value⟩ := c
    obtain ⟨u, us, rfl⟩ := List.exists_cons_of_length_eq_add_one hlen.symm
    rw [List.forall_mem_cons] at ih hadm hvalues
    rw [List.zip_cons_cons, List.forall_mem_cons] at hconds
    rw [visitCases]
    refine (ih.1.1 _ h hadm.1.1 hconds.1).bind fun c s₁ θ₁ hc ↦ ?_
    refine (ih.1.2 _ (h.later hc.continues) hadm.1.2 hvalues.1).bind fun v s₂ θ₂ hv ↦ ?_
    have hk := hc.continues.trans hv.continues
    refine (finds_unify hk.ready hw hv.simple (hk.registered hr) hv.registered
      ((hk.fill_eq hr).trans heq) hv.fill_eq).bind fun x s₃ θ₃ hx ↦ ?_
    have hk₃ := hk.trans hx.continues
    exact (ih' ih.2 _ (h.later hk₃) hadm.2 (by simpa using hlen) hconds.2 hvalues.2 hx.simple
      hx.registered hx.fill_eq).after hk₃

/-! ## Calls -/

/-- A simple type that a solution makes a constructor is an unknown or has the same tag. -/
theorem cases_of_fill_eq_con {tag : String} {us : List Ty} (ht : t.Simple)
    (heq : t.fill θ = .con tag us) :
    (∃ id, t = .unknown id ∧ θ id = .con tag us) ∨ ∃ ps, t = .con tag ps ∧
      ps.map (fill θ) = us := by
  cases t with
  | unknown id => exact .inl ⟨id, rfl, heq⟩
  | con tag' ps =>
    rw [fill_con, con.injEq] at heq
    exact .inr ⟨ps, by rw [heq.1], heq.2⟩
  | var | variadic | all => simp [Simple, Node.Ordinary] at ht

/-- Without arguments `plan` calls a procedure. -/
theorem ensures_plan_force {c : CallSite} (h : Ready s θ) (hc : c.type.Simple)
    (hr : s.store.Registered c.type) (h0 : c.argCount = 0) (heq : c.type.fill θ = procedure t) :
    Ensures (plan c) s (fun p s' ↦ ∃ w θ', p = .done w ∧ Found s θ t w s' θ')
      (fun _ _ ↦ False) := by
  rw [plan]
  rcases cases_of_fill_eq_con hc heq with ⟨id, hid, hproc⟩ | ⟨ps, hps, hmap⟩
  · have ht : t.Mono := by
      have hmono := h.solution.mono id
      rw [hproc] at hmono
      exact (built_con.1 hmono).2 t (by simp)
    rw [hid] at hr
    simp only [hid, if_pos h0]
    refine (finds_newUnknown h ht c.stem).bind fun r s₁ θ₁ hr₁ ↦ ?_
    have hproc₁ : (procedure r).fill θ₁ = procedure t := by
      rw [procedure, fill_con, List.map_singleton, hr₁.fill_eq]
      rfl
    refine (finds_unify hr₁.continues.ready (simple_unknown id) (simple_procedure.2 hr₁.simple)
      (hr₁.continues.registered hr) (Store.registered_con.2 (by simpa using hr₁.registered))
      ((hr₁.continues.fill_eq hr).trans hproc) hproc₁).bind fun v s₂ θ₂ hv ↦ ?_
    have hr₂ := hr₁.later hv.continues
    refine (finds_applied hr₂.continues.ready hr₂.simple hr₂.registered).bind fun w s₃ θ₃ hw ↦ ?_
    exact ⟨w, θ₃, rfl, hr₂.continues.trans hw.continues, hw.simple, hw.registered,
      hw.fill_eq.trans hr₂.fill_eq⟩
  · obtain ⟨r, rfl, hfill⟩ := List.map_eq_singleton_iff.1 hmap
    rw [hps] at hr hc
    simp only [hps, if_pos h0]
    exact ⟨r, θ, rfl, .refl h, simple_procedure.1 hc, Store.registered_con.1 hr r (by simp), hfill⟩

/-- With arguments `plan` consumes them. -/
theorem ensures_plan_consume {c : CallSite} {us : List Ty} (hc : c.type.Simple)
    (h0 : c.argCount ≠ 0) (heq : c.type.fill θ = function us) :
    Ensures (plan c) s (fun p s' ↦ s' = s ∧ p = .consume c.type) (fun _ _ ↦ False) := by
  rw [plan]
  rcases cases_of_fill_eq_con hc heq with ⟨id, hid, -⟩ | ⟨ps, hps, -⟩
  · simp only [hid, if_neg h0]
    exact ⟨rfl, rfl⟩
  · simp only [hps, if_neg h0]
    exact ⟨rfl, rfl⟩

theorem finds_visitArgs {args : List Expr} {ts : List Ty} (ih : ∀ e ∈ args, Complete e)
    (c : CallSite) (index : Nat) (h : Fits Γ env s θ) (hadm : ∀ e ∈ args, e.All Admissible)
    (hlen : args.length = ts.length) (hargs : ∀ q ∈ args.zip ts, HasType Γ q.1 q.2) (hw : w.Simple)
    (hr : s.store.Registered w) (heq : w.fill θ = chain ts t) :
    Finds (visitArgs env c index w args) s θ t := by
  induction args generalizing s θ index w ts with
  | nil =>
    obtain rfl := List.length_eq_zero_iff.1 hlen.symm
    exact ⟨θ, .refl h.ready, hw, hr, heq⟩
  | cons arg args ih' =>
    obtain ⟨a, ts, rfl⟩ := List.exists_cons_of_length_eq_add_one hlen.symm
    rw [List.forall_mem_cons] at ih hadm
    rw [List.zip_cons_cons, List.forall_mem_cons] at hargs
    replace heq : w.fill θ = function [a, chain ts t] := heq
    have hnext : (chain ts t).Mono := by
      have hmono := hw.fill_mono h.ready.solution.mono
      rw [heq] at hmono
      exact (built_con.1 hmono).2 _ (by simp)
    rw [visitArgs]
    refine (finds_applied h.ready hw hr).bind fun current s₁ θ₁ hcurrent ↦ ?_
    -- What is left of the type of the function is an unknown or a function.
    have htag : current.tag? = none ∨ current.tag? = some "Function" := by
      rcases cases_of_fill_eq_con hcurrent.simple (hcurrent.fill_eq.trans heq) with
        ⟨id, hid, -⟩ | ⟨ps, hps, -⟩
      · exact .inl (by rw [hid]; rfl)
      · exact .inr (by rw [hps]; rfl)
    rw [ensures_ite, ensures_ite]
    refine ⟨fun hspecial ↦ ?_, fun _ ↦ ⟨fun hsurplus ↦ ?_, fun _ ↦ ?_⟩⟩
    · rcases htag with htag | htag <;> simp [hasTag, htag] at hspecial
    · rcases htag with htag | htag <;> simp [hasTag, htag] at hsurplus
    · refine (ih.1 _ (h.later hcurrent.continues) hadm.1 hargs.1).bind fun b s₂ θ₂ hb ↦ ?_
      have hk₂ := hcurrent.continues.trans hb.continues
      refine (finds_newUnknown hk₂.ready hnext c.stem).bind fun next s₃ θ₃ hnext ↦ ?_
      have hk₃ := hk₂.trans hnext.continues
      have hb₃ := hb.later hnext.continues
      have hfun : (function [b, next]).fill θ₃ = function [a, chain ts t] := by
        rw [function, fill_con]
        simp only [List.map_cons, List.map_nil, hb₃.fill_eq, hnext.fill_eq]
        rfl
      refine (finds_unify hk₃.ready hw (simple_function.2 ⟨hb₃.simple, hnext.simple⟩)
        (hk₃.registered hr)
          (Store.registered_con.2 (by simpa using ⟨hb₃.registered, hnext.registered⟩))
        ((hk₃.fill_eq hr).trans heq) hfun).bind fun v s₄ θ₄ hv ↦ ?_
      have hnext₄ := hnext.later hv.continues
      refine (finds_applied hnext₄.continues.ready hnext₄.simple hnext₄.registered).bind
        fun n s₅ θ₅ hn ↦ ?_
      have hk₅ := (hk₃.trans hv.continues).trans hn.continues
      exact (ih' ih.2 _ (h.later hk₅) hadm.2 (by simpa using hlen) hargs.2 hn.simple hn.registered
        (hn.fill_eq.trans hnext₄.fill_eq)).after hk₅

/-! ## Bindings -/

theorem ensures_visitLetValues_complete {bindings : List (Expr × Expr)} {ts Ss : List Ty}
    (ih : ∀ b ∈ bindings, Complete b.2) (site : Site) (index : Nat) (h : Fits Γ env s θ)
    (hadm : ∀ b ∈ bindings, b.1.All Admissible ∧ b.2.All Admissible)
    (hslots : List.Forall₂ SlotType (bindings.map (·.1)) ts)
    (hvalues : ∀ q ∈ bindings.zip ts, HasType Γ q.1.2 q.2)
    (hgen : List.Forall₂ (Generalizes Γ) ts Ss) :
    Ensures (visitLetValues env site index bindings) s
      (fun names s' ↦ ∃ θ', Continues s θ s' θ' ∧
        (∀ b ∈ names, b.2.Polymorphic ∧ s'.store.Registered b.2) ∧
        List.Forall₂ (fun b b' ↦ b.1 = b'.1 ∧ Covers (b.2.fill θ') b'.2) names
          (bound (bindings.map (·.1)) Ss))
      (fun _ _ ↦ False) := by
  induction bindings generalizing s θ index ts Ss with
  | nil => exact ⟨θ, .refl h.ready, nofun, .nil⟩
  | cons b bs ih' =>
    obtain ⟨name, value⟩ := b
    obtain ⟨t, ts, hslot, hrest, rfl⟩ := List.forall₂_cons_left_iff.1 hslots
    obtain ⟨S, Ss, hS, hgen', rfl⟩ := List.forall₂_cons_left_iff.1 hgen
    rw [List.forall_mem_cons] at ih hadm
    rw [List.zip_cons_cons, List.forall_mem_cons] at hvalues
    rw [visitLetValues]
    refine (ih.1 _ h hadm.1.2 hvalues.1).bind fun found s₁ θ₁ hfound ↦ ?_
    refine (finds_valueType hfound.continues.ready hslot hadm.1.1 hfound.simple hfound.registered
      hfound.fill_eq).bind fun type s₂ θ₂ htype ↦ ?_
    have hk₂ := hfound.continues.trans htype.continues
    have h₂ := h.later hk₂
    rw [ensures_ite]
    refine ⟨fun hhole ↦ ?_, fun hhole ↦ ?_⟩
    · obtain rfl : name = .hole := by cases name <;> first | rfl | cases hhole
      refine (ih' ih.2 _ h₂ hadm.2 hrest hvalues.2 hgen').mono ?_ fun _ _ ↦ id
      rintro names s₃ ⟨θ₃, hk₃, hpoly, hcovers⟩
      exact ⟨θ₃, hk₂.trans hk₃, hpoly, hcovers⟩
    · rw [ensures_bind]
      refine (ensures_generalize_ready h₂.ready env htype.registered).mono ?_ fun _ _ ↦ id
      rintro ⟨G, naming⟩ s₃ ⟨hk₃, hstore, hG⟩
      rw [ensures_bind]
      refine (ensures_identifier_slot hslot).mono ?_ fun _ _ ↦ id
      rintro x s₃ ⟨rfl, hname⟩
      rw [ensures_bind]
      refine (ih' ih.2 _ (h₂.later hk₃) hadm.2 hrest hvalues.2 hgen').mono ?_ fun _ _ ↦ id
      rintro names s₄ ⟨θ₄, hk₄, hpoly, hcovers⟩
      have hreg := hk₃.registered (hG.registered h₂.ready.closed htype.registered)
      refine ⟨θ₄, (hk₂.trans hk₃).trans hk₄, List.forall_mem_cons.2
        ⟨⟨hG.polymorphic h₂.ready.valid htype.simple, hk₄.registered hreg⟩, hpoly⟩, ?_⟩
      rw [List.map_cons, bound_cons, boundName?_of_identifier hname, if_neg hhole]
      refine .cons ⟨rfl, ?_⟩ hcovers
      rw [hk₄.fill_eq hreg]
      exact hG.covers h₂ htype.simple (htype.fill_eq.symm ▸ hS)

theorem ensures_visitRecursiveValues_complete {bindings : List (Expr × Expr)} {recursive : Env}
    {ts us : List Ty} (ih : ∀ b ∈ bindings, Complete b.2) (site : Site) (index : Nat)
    (h : Fits Γ env s θ) (hadm : ∀ b ∈ bindings, b.2.All Admissible)
    (hrec : ∀ t ∈ recursive.values, t.Simple ∧ s.store.Registered t)
    (hslots : List.Forall₂ SlotType (bindings.map (·.1)) ts) (hlen : bindings.length = us.length)
    (hvalues : ∀ q ∈ bindings.zip us, HasType Γ q.1.2 q.2)
    (hnames : ∀ q ∈ bindings.zip us, ∀ name ∈ boundName? q.1.1,
      (recursive.get? name).map (fill θ) = some q.2) :
    Ensures (visitRecursiveValues env site recursive index bindings) s
      (fun _ s' ↦ ∃ θ', Continues s θ s' θ') (fun _ _ ↦ False) := by
  induction bindings generalizing s θ index ts us with
  | nil => exact ⟨θ, .refl h.ready⟩
  | cons b bs ih' =>
    obtain ⟨name, value⟩ := b
    obtain ⟨t, ts, hslot, hrest, rfl⟩ := List.forall₂_cons_left_iff.1 hslots
    obtain ⟨u, us, rfl⟩ := List.exists_cons_of_length_eq_add_one hlen.symm
    rw [List.forall_mem_cons] at ih hadm
    rw [List.zip_cons_cons, List.forall_mem_cons] at hvalues hnames
    rw [visitRecursiveValues]
    refine (ih.1 _ h hadm.1 hvalues.1).bind fun found s₁ θ₁ hfound ↦ ?_
    -- The types that are known of the names stay what they are.
    have hlater : ∀ {s₂ θ₂}, Continues s θ s₂ θ₂ →
        (∀ t ∈ recursive.values, t.Simple ∧ s₂.store.Registered t) ∧
        ∀ q ∈ bs.zip us, ∀ name ∈ boundName? q.1.1, (recursive.get? name).map (fill θ₂) =
          some q.2 := by
      refine fun hk ↦ ⟨fun t ht ↦ ⟨(hrec t ht).1, hk.registered (hrec t ht).2⟩, fun q hq x hx ↦ ?_⟩
      obtain ⟨t, ht, hfill⟩ := Option.map_eq_some_iff.1 (hnames.2 q hq x hx)
      rw [ht, Option.map_some, hk.fill_eq (hrec t (OrdMap.mem_values_of_get? ht)).2, hfill]
    simp only [ensures_ite]
    refine ⟨fun hhole ↦ ?_, fun hhole ↦ ?_⟩
    · rw [ensures_bind]
      refine (ensures_identifier_slot hslot).mono ?_ fun _ _ ↦ id
      rintro x s₁ ⟨rfl, hname⟩
      have hx : boundName? name = some x := by
        rw [boundName?_of_identifier hname, if_neg (by simpa using hhole)]
      obtain ⟨t, ht, hfill⟩ := Option.map_eq_some_iff.1 (hnames.1 x hx)
      have htrec := hrec t (OrdMap.mem_values_of_get? ht)
      rw [ht, Option.getD_some]
      refine (finds_unify hfound.continues.ready htrec.1 hfound.simple
        (hfound.continues.registered htrec.2) hfound.registered
        ((hfound.continues.fill_eq htrec.2).trans hfill) hfound.fill_eq).bind fun v s₂ θ₂ hv ↦ ?_
      have hk := hfound.continues.trans hv.continues
      exact (ih' ih.2 _ (h.later hk) hadm.2 (hlater hk).1 hrest (by simpa using hlen) hvalues.2
        (hlater hk).2).mono (fun _ _ ↦ Exists.imp fun _ ↦ hk.trans) fun _ _ ↦ id
    · have hk := hfound.continues
      exact (ih' ih.2 _ (h.later hk) hadm.2 (hlater hk).1 hrest (by simpa using hlen) hvalues.2
        (hlater hk).2).mono (fun _ _ ↦ Exists.imp fun _ ↦ hk.trans) fun _ _ ↦ id

theorem ensures_generalizeAll_complete {bs poly : List (String × Ty)} (h : Fits Γ env s θ)
    (hbs : ∀ b ∈ bs, b.2.Simple ∧ s.store.Registered b.2)
    (hgen : List.Forall₂ (fun b b' ↦ b.1 = b'.1 ∧ Generalizes Γ (b.2.fill θ) b'.2) bs poly) :
    Ensures (generalizeAll env bs) s
      (fun r s' ↦ Continues s θ s' θ ∧ (∀ b ∈ r, b.2.Polymorphic ∧ s'.store.Registered b.2) ∧
        List.Forall₂ (fun b b' ↦ b.1 = b'.1 ∧ Covers (b.2.fill θ) b'.2) r poly)
      (fun _ _ ↦ False) := by
  induction hgen generalizing s with
  | nil => exact ⟨.refl h.ready, nofun, .nil⟩
  | @cons b b' bs poly hb _ ih =>
    obtain ⟨name, t⟩ := b
    rw [List.forall_mem_cons] at hbs
    rw [generalizeAll, ensures_bind]
    refine (ensures_generalize_ready h.ready env hbs.1.2).mono ?_ fun _ _ ↦ id
    rintro ⟨G, naming⟩ s₁ ⟨hk₁, -, hG⟩
    rw [ensures_bind]
    refine (ih (h.later hk₁) fun b hb ↦ ⟨(hbs.2 b hb).1, hk₁.registered (hbs.2 b hb).2⟩).mono ?_
      fun _ _ ↦ id
    rintro r s₂ ⟨hk₂, hpoly, hcovers⟩
    have hreg := (hk₁.trans hk₂).registered (hG.registered h.ready.closed hbs.1.2)
    exact ⟨hk₁.trans hk₂, List.forall_mem_cons.2
      ⟨⟨hG.polymorphic h.ready.valid hbs.1.1, hreg⟩, hpoly⟩,
      .cons ⟨hb.1, hG.covers h hbs.1.1 hb.2⟩ hcovers⟩

/-! ## All expressions -/

/-- A name has every instance of its scheme. -/
theorem finds_lookup {name : String} {S : Ty} (site : Site) (e : Expr) (h : Fits Γ env s θ)
    (hname : Γ.get? name = some S) (ht : Instance S t) :
    Finds (do
      let type ← match env.get? name with
        | some t => instantiate t
        | none => fail (.unbound (site.mention e) name)
      record site type
      return type) s θ t := by
  obtain ⟨S', hS', hcovers⟩ := h.exists_get? hname
  have hmem := OrdMap.mem_values_of_get? hS'
  rw [Finds, hS']
  exact (finds_instantiate h.ready (h.regular S' hmem) (h.registered S' hmem) (hcovers t ht)).bind
    fun w s₁ θ₁ hw ↦ hw.recorded

theorem complete_list {es : List Expr} (ih : ∀ e ∈ es, Complete e) : Complete (.list es) := by
  intro s Γ env θ t site h hadm ht
  cases ht with
  | list ht hes =>
    rw [Finds, visit]
    refine (finds_newUnknown h.ready ht "Element").bind fun element s₁ θ₁ helement ↦ ?_
    have hk₁ := helement.continues
    refine (finds_visitElements ih site 0 none (h.later hk₁) (Expr.all_iff.1 hadm).2 hes
      helement.simple helement.registered helement.fill_eq).bind fun w s₂ θ₂ hw ↦ ?_
    refine Found.recorded ⟨hk₁.trans hw.continues, simple_list.2 hw.simple,
      Store.registered_con.2 (by simpa using hw.registered), ?_⟩
    rw [Ty.list, fill_con, List.map_singleton, hw.fill_eq]
    rfl

theorem complete_call {called : Expr} {args : List Expr} (ihc : Complete called)
    (ih : ∀ e ∈ args, Complete e) : Complete (.call called args) := by
  intro s Γ env θ t site h hadm ht
  obtain ⟨hcalled, hadm⟩ := List.forall_mem_cons.1 (Expr.all_iff.1 hadm).2
  rw [Finds, visit]
  cases ht with
  | @call _ _ _ ts _ hne hf hlen hargs =>
    have hcount : args.length ≠ 0 := by simpa using hne
    obtain ⟨u, us, rfl⟩ : ∃ u us, ts = u :: us := List.exists_cons_of_length_pos (by omega)
    refine (ihc _ h hcalled hf).bind fun f s₁ θ₁ hf ↦ ?_
    refine (finds_applied hf.continues.ready hf.simple hf.registered).bind fun g s₂ θ₂ hg ↦ ?_
    have hk := hf.continues.trans hg.continues
    have heq := hg.fill_eq.trans hf.fill_eq
    rw [ensures_bind]
    refine (ensures_plan_consume (c := ⟨_, _, _, _, _, _⟩) hg.simple hcount heq).mono ?_
      fun _ _ ↦ id
    rintro _ s₂ ⟨rfl, rfl⟩
    refine (finds_visitArgs ih _ 0 (h.later hk) hadm hlen hargs hg.simple hg.registered heq).bind
      fun w s₃ θ₃ hw ↦ ?_
    exact (hw.after hk).recorded
  | force hf =>
    refine (ihc _ h hcalled hf).bind fun f s₁ θ₁ hf ↦ ?_
    refine (finds_applied hf.continues.ready hf.simple hf.registered).bind fun g s₂ θ₂ hg ↦ ?_
    have hk := hf.continues.trans hg.continues
    rw [ensures_bind]
    refine (ensures_plan_force (c := ⟨_, _, _, _, _, _⟩) hg.continues.ready hg.simple
      hg.registered rfl
      (hg.fill_eq.trans hf.fill_eq)).mono ?_ fun _ _ ↦ id
    rintro _ s₃ ⟨w, θ₃, rfl, hw⟩
    exact (hw.after hk).recorded

theorem complete_define {name value : Expr} (ihn : Complete name) (ih : Complete value) :
    Complete (.define name value) := by
  intro s Γ env θ t site h hadm ht
  have hadm := (Expr.all_iff.1 hadm).2
  have hname := hadm name (by simp [Expr.children])
  cases ht with
  | define hslot hvalue =>
    rw [Finds, visit, ensures_bind]
    refine (ensures_identifier_slot hslot).mono ?_ fun _ _ ↦ id
    rintro x s ⟨rfl, hx⟩
    refine (finds_binderType h.ready hslot hname x).bind fun d s₁ θ₁ hd ↦ ?_
    rw [← insertAll_bound_singleton hx]
    have h₁ : Fits (Γ.insertAll (bound [name] [t])) (env.insertAll (bound [name] [d])) s₁ θ₁ := by
      refine (h.later hd.continues).insertAll_mono (fun b hb ↦ ?_) ?_
      · rw [List.mem_singleton.1 (mem_bound hb)]
        exact ⟨hd.simple, hd.registered⟩
      · rw [← bound_fill, List.map_singleton, hd.fill_eq]
    refine (ih _ h₁ (hadm value (by simp [Expr.children])) hvalue).bind fun v s₂ θ₂ hv ↦ ?_
    have hd₂ := hd.later hv.continues
    refine (finds_unify hv.continues.ready hd₂.simple hv.simple hd₂.registered hv.registered
      hd₂.fill_eq
      hv.fill_eq).bind fun w s₃ θ₃ hw ↦ ?_
    have h₃ := h₁.later (hv.continues.trans hw.continues)
    have hslots : List.Forall₂ SlotType [name] [t] := .cons hslot .nil
    obtain ⟨u, hu⟩ := exists_hasType_bound (Γ := Γ) hslots hslots.length_eq name
      (List.mem_singleton_self name)
    refine (ihn _ h₃ hname hu).bind fun n s₄ θ₄ hn ↦ ?_
    exact ((hw.later hn.continues).after hd₂.continues).recorded

theorem complete_letIn {bindings : List (Expr × Expr)} {body : Expr}
    (ih : ∀ b ∈ bindings, Complete b.1 ∧ Complete b.2) (ihb : Complete body) :
    Complete (.letIn bindings body) := by
  intro s Γ env θ t site h hadm ht
  obtain ⟨hbindings, hadm⟩ := Expr.All.bindings (Expr.all_iff.1 hadm).2
  cases ht with
  | @letIn _ _ _ ts Ss _ hslots hvalues hgen hbody =>
    rw [Finds, visit, ensures_bind]
    refine (ensures_visitLetValues_complete (fun b hb ↦ (ih b hb).2) site 0 h hbindings
      hslots hvalues
      hgen).mono ?_ fun _ _ ↦ id
    rintro names s₁ ⟨θ₁, hk₁, hpoly, hcovers⟩
    have h₁ := (h.later hk₁).insertAll hpoly hcovers
    rw [ensures_bind]
    refine (ensures_visitNames_complete (fun b hb ↦ (ih b hb).1) site 0 h₁
      (fun b hb ↦ (hbindings b hb).1)
      (exists_hasType_bound hslots (hslots.length_eq.trans hgen.length_eq))).mono ?_ fun _ _ ↦ id
    rintro _ s₂ ⟨θ₂, hk₂⟩
    refine (ihb _ (h₁.later hk₂) hadm hbody).bind fun w s₃ θ₃ hw ↦ ?_
    exact (hw.after (hk₁.trans hk₂)).recorded

theorem complete_letrec {bindings : List (Expr × Expr)} {body : Expr}
    (ih : ∀ b ∈ bindings, Complete b.1 ∧ Complete b.2) (ihb : Complete body) :
    Complete (.letrec bindings body) := by
  intro s Γ env θ t site h hadm ht
  obtain ⟨hbindings, hadm⟩ := Expr.All.bindings (Expr.all_iff.1 hadm).2
  cases ht with
  | @letrec _ _ _ ts us known poly _ hslots hknown hlen hvalues hnames hgen hbody =>
    rw [Finds, visit, ensures_bind]
    refine (ensures_recursiveTypes_complete h.ready hslots
      (fun b hb ↦ (hbindings b hb).1) fun t ht ↦ (List.not_mem_nil ht).elim).mono ?_ fun _ _ ↦ id
    rintro recursive s₁ ⟨θ₁, hk₁, hrec, heq⟩
    replace heq : recursive.mapValues (fill θ₁) = known := heq.trans hknown.symm
    have hentries : ∀ b ∈ recursive.entries, b.2.Simple ∧ s₁.store.Registered b.2 :=
      fun b hb ↦ hrec b.2 (List.mem_map_of_mem hb)
    have h₁ := (h.later hk₁).insertAll_mono hentries (congrArg OrdMap.entries heq)
    rw [ensures_bind]
    refine (ensures_visitRecursiveValues_complete (fun b hb ↦ (ih b hb).2) site 0 h₁
      (fun b hb ↦ (hbindings b hb).2) hrec hslots hlen hvalues fun q hq name hname ↦ ?_).mono ?_
      fun _ _ ↦ id
    · rw [← OrdMap.get?_mapValues, heq]
      exact hnames q hq name hname
    rintro _ s₂ ⟨θ₂, hk₂⟩
    have h₂ := (h.later hk₁).later hk₂
    have hgen₂ : List.Forall₂ (fun b b' ↦ b.1 = b'.1 ∧ Generalizes Γ (b.2.fill θ₂) b'.2)
        recursive.entries poly := by
      rw [← heq, ← hk₂.mapValues_eq fun t ht ↦ (hrec t ht).2, OrdMap.mapValues,
        List.forall₂_map_left_iff] at hgen
      exact hgen
    rw [ensures_bind]
    refine (ensures_generalizeAll_complete h₂
      (fun b hb ↦ ⟨(hentries b hb).1, hk₂.registered (hentries b hb).2⟩) hgen₂).mono ?_ fun _ _ ↦ id
    rintro names s₃ ⟨hk₃, hpoly, hcovers⟩
    have h₃ := (h₂.later hk₃).insertAll hpoly hcovers
    have hbound : ∀ slot ∈ bindings.map (·.1), ∀ name ∈ boundName? slot, name ∈ poly.map (·.1) := by
      have hkeys : known.keys = poly.map (·.1) := by
        rw [OrdMap.keys, ← List.forall₂_eq_eq_eq, List.forall₂_map_left_iff,
          List.forall₂_map_right_iff]
        exact hgen.imp fun _ _ ↦ And.left
      intro slot hslot name hname
      rw [← hkeys, ← OrdMap.isSome_get?_iff, hknown]
      exact OrdMap.isSome_get?_insertAll (.inl (mem_bound_names hslots.length_eq hslot hname))
    rw [ensures_bind]
    refine (ensures_visitNames_complete (fun b hb ↦ (ih b hb).1) site 0 h₃
      (fun b hb ↦ (hbindings b hb).1) (exists_hasType_slot hslots hbound)).mono ?_ fun _ _ ↦ id
    rintro _ s₄ ⟨θ₄, hk₄⟩
    refine (ihb _ (h₃.later hk₄) hadm hbody).bind fun w s₅ θ₅ hw ↦ ?_
    exact (hw.after (((hk₁.trans hk₂).trans hk₃).trans hk₄)).recorded

/-- Inversion of the rules for functions with and without parameters. -/
theorem exists_of_hasType_lambda {params : List Expr} {body : Expr}
    (h : HasType Γ (.lambda params body) t) :
    ∃ ts r, List.Forall₂ SlotType params ts ∧ HasType (Γ.insertAll (bound params ts)) body r ∧
      t = if ts.isEmpty then procedure r else chain ts r := by
  cases h with
  | lambda hne hslots hbody =>
    refine ⟨_, _, hslots, hbody, ?_⟩
    cases hslots with
    | nil => exact absurd rfl hne
    | cons => rfl
  | thunk hbody => exact ⟨[], _, .nil, hbody, rfl⟩

theorem complete_lambda {params : List Expr} {body : Expr} (ih : ∀ p ∈ params, Complete p)
    (ihb : Complete body) : Complete (.lambda params body) := by
  intro s Γ env θ t site h hadm ht
  obtain ⟨hparams, hadm⟩ := List.forall_mem_append.1 (Expr.all_iff.1 hadm).2
  obtain ⟨ts, r, hslots, hbody, rfl⟩ := exists_of_hasType_lambda ht
  rw [Finds, visit, ensures_bind]
  refine (ensures_paramTypes_complete h.ready hslots hparams).mono ?_ fun _ _ ↦ id
  rintro ⟨ws, names⟩ s₁ ⟨θ₁, hk₁, hws, hmap, hnames⟩
  dsimp only at hws hmap hnames ⊢
  subst hnames
  have h₁ : Fits (Γ.insertAll (bound params ts)) (env.insertAll (bound params ws)) s₁ θ₁ :=
    (h.later hk₁).insertAll_mono (fun b hb ↦ hws _ (mem_bound hb)) (by rw [← bound_fill, hmap])
  rw [ensures_bind]
  refine (ensures_visitAll_complete ih site 0 h₁ hparams
    (exists_hasType_bound hslots hslots.length_eq)).mono ?_ fun _ _ ↦ id
  rintro _ s₂ ⟨θ₂, hk₂⟩
  refine (ihb _ (h₁.later hk₂) (hadm body (by simp)) hbody).bind fun w s₃ θ₃ hw ↦ ?_
  have hk := hk₂.trans hw.continues
  have hreg : ∀ u ∈ ws, s₃.store.Registered u := fun u hu ↦ hk.registered (hws u hu).2
  have hmap₃ : ws.map (fill θ₃) = ts :=
    (List.map_congr_left fun u hu ↦ hk.fill_eq (hws u hu).2).trans hmap
  have hempty : ws.isEmpty = ts.isEmpty := by rw [← hmap₃, List.isEmpty_map]
  rw [hempty]
  refine Found.recorded ⟨hk₁.trans hk, ?_, ?_, ?_⟩ <;> split
  · exact simple_procedure.2 hw.simple
  · exact simple_chain (fun u hu ↦ (hws u hu).1) hw.simple
  · exact Store.registered_con.2 (by simpa using hw.registered)
  · intro id hid
    rw [unknowns_chain, List.mem_append, List.mem_flatMap] at hid
    rcases hid with ⟨u, hu, hid⟩ | hid
    · exact hreg u hu id hid
    · exact hw.registered id hid
  · rw [procedure, fill_con, List.map_singleton, hw.fill_eq]
    rfl
  · rw [fill_chain, hmap₃, hw.fill_eq]

/-- Inversion of the rules for sequences; `t₀` is the type for the case that there are no
expressions. -/
theorem exists_of_hasType_sequence {es : List Expr} (h : HasType Γ (.sequence es) t) :
    ∃ t₀ ts, Ty.Mono t₀ ∧ es.length = ts.length ∧ (∀ q ∈ es.zip ts, HasType Γ q.1 q.2) ∧
      t = ts.getLastD t₀ := by
  cases h with
  | emptySequence ht => exact ⟨t, [], ht, rfl, nofun, rfl⟩
  | sequence hlen hes hlast =>
    refine ⟨integer, _, mono_integer, hlen, hes, ?_⟩
    rw [List.getLastD_eq_getLast?, hlast, Option.getD_some]

/-- Every type that can be derived for an expression is found. -/
theorem complete (e : Expr) : Complete e := by
  induction e with
  | list es ih => exact complete_list ih
  | call called args ihc ih => exact complete_call ihc ih
  | define name value ihn ih => exact complete_define ihn ih
  | letIn bindings body ih ihb => exact complete_letIn ih ihb
  | letrec bindings body ih ihb => exact complete_letrec ih ihb
  | lambda params body ih ihb => exact complete_lambda ih ihb
  | number n =>
    intro s Γ env θ t site h hadm ht
    cases ht with
    | integer hn =>
      rw [Finds, visit, if_pos hn]
      exact Found.recorded (.atom h.ready (by decide) (by decide))
  | bool b =>
    intro s Γ env θ t site h hadm ht
    cases ht
    rw [Finds, visit]
    exact Found.recorded (.atom h.ready (by decide) (by decide))
  | string v =>
    intro s Γ env θ t site h hadm ht
    cases ht
    rw [Finds, visit]
    exact Found.recorded (.atom h.ready (by decide) (by decide))
  | null =>
    intro s Γ env θ t site h hadm ht
    cases ht
    rw [Finds, visit]
    exact Found.recorded (.atom h.ready (by decide) (by decide))
  | hole =>
    intro s Γ env θ t site h hadm ht
    cases ht with
    | hole ht =>
      rw [Finds, visit]
      exact (finds_newUnknown h.ready ht "_").bind fun w s₁ θ₁ hw ↦ hw.recorded
  | binding name declared =>
    intro s Γ env θ t site h hadm ht
    cases ht with
    | binding hname ht =>
      rw [visit]
      exact finds_lookup site _ h hname ht
  | var name =>
    intro s Γ env θ t site h hadm ht
    cases ht with
    | var hname ht =>
      rw [visit]
      exact finds_lookup site _ h hname ht
  | sequence es ih =>
    intro s Γ env θ t site h hadm ht
    obtain ⟨t₀, ts, ht₀, hlen, hes, rfl⟩ := exists_of_hasType_sequence ht
    rw [Finds, visit]
    refine (finds_newUnknown h.ready ht₀ "EmptySequence").bind fun u s₁ θ₁ hu ↦ ?_
    refine (finds_visitSequence ih site 0 (h.later hu.continues) (Expr.all_iff.1 hadm).2 hlen hes
      hu.simple hu.registered hu.fill_eq).bind fun w s₂ θ₂ hw ↦ ?_
    exact (hw.after hu.continues).recorded
  | branch c a b ihc iha ihb =>
    intro s Γ env θ t site h hadm ht
    have hadm := (Expr.all_iff.1 hadm).2
    cases ht with
    | branch hc ha hb =>
      rw [Finds, visit]
      refine (ihc _ h (hadm c (by simp [Expr.children])) hc).bind fun u s₁ θ₁ hu ↦ ?_
      have h₁ := h.later hu.continues
      refine (iha _ h₁ (hadm a (by simp [Expr.children])) ha).bind fun v s₂ θ₂ hv ↦ ?_
      refine (ihb _ (h₁.later hv.continues) (hadm b (by simp [Expr.children])) hb).bind
        fun w s₃ θ₃ hw ↦ ?_
      have hv := hv.later hw.continues
      refine (finds_unify hw.continues.ready hv.simple hw.simple hv.registered hw.registered
        hv.fill_eq
        hw.fill_eq).bind fun x s₄ θ₄ hx ↦ ?_
      exact (hx.after (hu.continues.trans hv.continues)).recorded
  | cond cases ih =>
    intro s Γ env θ t site h hadm ht
    have hadm := Expr.forall_mem_pairs.1 (Expr.all_iff.1 hadm).2
    cases ht with
    | cond ht hlen hconds hvalues =>
      rw [Finds, visit]
      refine (finds_newUnknown h.ready ht "Cond").bind fun u s₁ θ₁ hu ↦ ?_
      refine (finds_visitCases ih site _ 0 (h.later hu.continues) hadm hlen hconds hvalues hu.simple
        hu.registered hu.fill_eq).bind fun w s₂ θ₂ hw ↦ ?_
      exact (hw.after hu.continues).recorded

/-! ## Whole trees -/

/-- A solution can be read as a substitution of the variables of a generalised type, if the
environment has no unknowns. -/
theorem GeneralizedTo.exists_subst {G : Ty} (h : Ready s θ) (ht : t.Simple)
    (hopen : openIn s.store env = []) (hG : GeneralizedTo s.store env t G) :
    G.isSolved = true ∧ ∃ σ : Subst, (∀ name ∈ G.freeVars, ∃ m, σ.get? name = some m ∧ m.Mono) ∧
      G.subst σ = t.fill θ := by
  obtain ⟨name, hname, rfl⟩ := hG
  simp only [hopen, List.not_mem_nil, if_false, not_false_eq_true, true_implies] at hname ⊢
  have hnode := (h.valid.simple_apply ht).no_var_all
  let A : Set String := {p | p ∈ (s.store.apply t).unknowns}
  have hinv : ∀ p ∈ A, Function.invFunOn name A (name p) = p := fun p hp ↦
    Set.InjOn.leftInvOn_invFunOn (fun p hp q hq ↦ hname p hp q hq) hp
  obtain ⟨σ, hσ⟩ := OrdMap.exists_get?_eq ((s.store.apply t).fill fun p ↦ .var (name p)).freeVars
    fun x ↦ θ (Function.invFunOn name A x)
  refine ⟨?_, σ, fun x hx ↦ ⟨_, hσ x hx, h.solution.mono _⟩, ?_⟩
  · rw [isSolved, List.isEmpty_iff, List.eq_nil_iff_forall_not_mem]
    intro p hp
    obtain ⟨_, -, hp⟩ := mem_unknowns_fill.1 hp
    cases hp
  · rw [subst_fill hnode, ← h.valid.fill_apply h.solution.solves ht]
    refine fill_congr fun p hp ↦ ?_
    rw [subst_var,
      hσ (name p) (mem_freeVars_fill (Built.mono hnode fun _ ↦ And.right) hp (by simp)),
      Option.getD_some, hinv p hp]

/-- An inference begins with an empty store. -/
theorem ready_reset (s : InferenceState) (log : Array Event) :
    Ready { s.reset with log } Ty.unknown :=
  ⟨(valid_reset s).congr rfl rfl, nofun, nofun, mono_unknown⟩

theorem ensures_inferTree_complete {tree : Tree} (henv : ∀ S ∈ env.values, Declared S)
    (htree : tree.root.All Admissible) (ht : HasType (env.mapValues scheme) tree.root t) :
    Ensures (inferTree env tree) s
      (fun G _ ↦ ∃ σ : Subst, (∀ name ∈ G.freeVars, ∃ m, σ.get? name = some m ∧ m.Mono) ∧
        G.subst σ = t)
      (fun _ _ ↦ False) := by
  rw [inferTree, ensures_bind, ensures_modify, ensures_bind, ensures_tell]
  have h : Fits (env.mapValues scheme) env
      { s.reset with log := s.reset.log.push (.inferring tree.root) } Ty.unknown := by
    refine ⟨ready_reset s _, fun S hS ↦ (henv S hS).regular,
      fun S hS ↦ (henv S hS).registered _, ?_⟩
    rw [solved_declared henv]
    exact .refl _
  refine (complete tree.root tree.site h htree ht).bind fun w s₁ θ₁ hw ↦ ?_
  rw [ensures_bind]
  refine (ensures_generalize_ready hw.continues.ready env hw.registered).mono ?_ fun _ _ ↦ id
  rintro ⟨G, naming⟩ s₂ ⟨-, -, hG⟩
  obtain ⟨hsolved, σ, hσ, heq⟩ := hG.exists_subst hw.continues.ready hw.simple (openIn_eq_nil henv)
  rw [ensures_bind, ensureSolved, if_pos hsolved]
  exact ⟨σ, hσ, heq.trans hw.fill_eq⟩

/-- **Inference finds principal types.**  If the typing rules derive `t` for a tree in an
environment of declared types, `inferTree` succeeds with a type of which `t` is an instance by
monotypes.  So inference fails only on trees without a type. -/
theorem exists_inferTree_of_hasType {tree : Tree} (henv : ∀ S ∈ env.values, Declared S)
    (htree : tree.root.All Admissible) (ht : HasType (env.mapValues scheme) tree.root t) :
    ∃ T, ((inferTree env tree).run s).1 = .ok T ∧ ∃ σ : Subst,
      (∀ name ∈ T.freeVars, ∃ m, σ.get? name = some m ∧ m.Mono) ∧ T.subst σ = t := by
  have h := ensures_inferTree_complete (s := s) henv htree ht
  rcases hrun : (inferTree env tree).run s with ⟨_ | T, s'⟩
  · rw [ensures_error hrun] at h
    exact h.elim
  · rw [ensures_ok hrun] at h
    exact ⟨T, rfl, h⟩

/-- The identity is used at two types before its result becomes the element of a list. -/
def polymorphicTree : Tree where
  number := 1
  root := .letIn [(.binding "id" none, .lambda [.binding "x" none] (.var "x"))]
    (.lambda [.binding "y" none]
      (.call (.var "cons") [.call (.call (.var "id") [.var "id"]) [.var "y"], .list []]))
  revision := 0

/-- A derivation of a type that is not the principal one. -/
theorem exists_inferTree_of_hasType_polymorphic :
    (∀ S ∈ sampleEnv.values, Declared S) ∧ polymorphicTree.root.All Admissible ∧
      HasType (sampleEnv.mapValues scheme) polymorphicTree.root
        (function [procedure integer, list (procedure integer)]) ∧
      ∃ T, ((inferTree sampleEnv polymorphicTree).run .initial).1 = .ok T ∧ ∃ σ : Subst,
        (∀ name ∈ T.freeVars, ∃ m, σ.get? name = some m ∧ m.Mono) ∧
        T.subst σ = function [procedure integer, list (procedure integer)] := by
  have henv : ∀ S ∈ sampleEnv.values, Declared S := by decide +kernel
  have htree : polymorphicTree.root.All Admissible := by decide +kernel
  have ht : HasType (sampleEnv.mapValues scheme) polymorphicTree.root
      (function [procedure integer, list (procedure integer)]) := by
    have hp := mono_unknown "p"
    have hm : (procedure integer).Simple := simple_procedure.2 (simple_atom (by decide) (by decide))
    have hf := (simple_function.2 ⟨hm, hm⟩).mono
    -- The identity is derived with a parameter, and the parameter is made a variable.
    refine @HasType.letIn _ _ _ [function [.unknown "p", .unknown "p"]]
      [function [.var "a", .var "a"]] _
      (.cons (.undeclared (simple_function.2 ⟨simple_unknown _, simple_unknown _⟩).mono) .nil)
      (List.forall_mem_singleton.2 ?_)
        (.cons ⟨fun _ ↦ "a", by simp +contextual [function], rfl⟩ .nil) ?_
    · exact @HasType.lambda _ _ _ [.unknown "p"] _ (List.cons_ne_nil _ _)
        (.cons (.undeclared hp) .nil)
        (.var rfl (instance_assign_const _ hp))
    · refine @HasType.lambda _ _ _ [procedure integer] _ (List.cons_ne_nil _ _)
        (.cons (.undeclared hm.mono) .nil) ?_
      refine @HasType.call _ _ _ [procedure integer, list (procedure integer)] _
        (List.cons_ne_nil _ _)
        (.var rfl (instance_assign_const _ hm.mono)) rfl
        (List.forall_mem_cons.2 ⟨?_, List.forall_mem_singleton.2 ?_⟩)
      · refine @HasType.call _ _ _ [procedure integer] _ (List.cons_ne_nil _ _) ?_ rfl
          (List.forall_mem_singleton.2 (.var rfl (instance_assign_const _ hp)))
        exact @HasType.call _ _ _ [function [procedure integer, procedure integer]] _
          (List.cons_ne_nil _ _) (.var rfl (instance_assign_const _ hf)) rfl
          (List.forall_mem_singleton.2 (.var rfl (instance_assign_const _ hm.mono)))
      · exact .list hm.mono (List.forall_mem_nil _)
  exact ⟨henv, htree, ht, exists_inferTree_of_hasType henv htree ht⟩

end Infer

end SchemeTyping
