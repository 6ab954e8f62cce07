import SchemeTyping.Proofs.Inference.Parallel

/-!
# The rules under a comparison

Under a comparison that is `Parallel`, every rule of inference matches on two expressions that are
renamings of each other (`comparable`).  The lemmas follow the rules: slots for names, calls, lists
of expressions, and the forms themselves.

The forms that generalise need that the values of names depend on the names in scope only
(`Anchoring`). This is a statement about one run, so it can be proved by a comparison of the run
with itself.
-/

set_option autoImplicit false

namespace SchemeTyping.Infer

open Ty

/-- The type of the value of a `let` binding. -/
def letValue (env : Env) (site : Site) (index : Nat) (slot value : Expr) : Infer Ty := do
  let found ← visit env (site.child (index + 1)) value
  valueType slot found (some ((site.child index).mention slot))
    (some ((site.child (index + 1)).mention value))

/-- The names of a `letrec` and their types, after the values have been visited. -/
def recursiveValues (env : Env) (site : Site) (bindings : List (Expr × Expr)) : Infer Env := do
  let recursive ← recursiveTypes bindings ∅
  visitRecursiveValues (env.insertAll recursive.entries) site recursive 0 bindings
  return recursive

/-- The types found for the values of names are anchored in the names that the values use. -/
structure Anchoring (D : Prop) : Prop where
  value : ∀ {N : String → Prop} {env : Env} {s : InferenceState} {slot value : Expr} (site : Site)
    (index : Nat), Orderly D s → Numbered s → KnownEnv D s.store env → Apparent env →
    slot.identifier?.isSome → slot.All (Legible D) → value.All (Legible D) →
      Renamed True (.only N) value value →
    Ensures (letValue env site index slot value) s
      (fun t s' ↦ Anchored N env s'.store t) (fun _ _ ↦ True)
  recursive : ∀ {N : String → Prop} {env : Env} {s : InferenceState} {bs : List (Expr × Expr)}
    (site : Site), Orderly D s → Numbered s → KnownEnv D s.store env → Apparent env →
    (∀ b ∈ bs, b.1.identifier?.isSome) → (∀ b ∈ bs, b.1.All (Legible D) ∧ b.2.All (Legible D)) →
    RenamedRow True ((Scope.only N).enter (bs.map (·.1)) (bs.map (·.1))) (bs.map (·.1))
      (bs.map (·.1)) →
    RenamedRow True ((Scope.only N).enter (bs.map (·.1)) (bs.map (·.1))) (bs.map (·.2))
      (bs.map (·.2)) →
    Ensures (recursiveValues env site bs) s
      (fun r s' ↦ ∀ t ∈ r.values, Anchored N env s'.store t) (fun _ _ ↦ True)

/-! ## Slots -/

section rules

variable {ω : Type} [Preorder ω] {C : Comparison ω} {D keep P : Prop} {w w' : ω} {Γ Δ : Scope}
  {env env' : Env} {a b : Ty} {s t : InferenceState} {slot slot' e e' : Expr} {site site' : Site}
  {e₁ e₂ e₁' e₂' : Option Mention}

/-- A renaming of a slot is a hole for a hole, and a name with the same declared type for a name. -/
theorem slot_cases (hslot : Renamed keep Γ slot slot') (hname : slot.identifier?.isSome) :
    slot = .hole ∧ slot' = .hole ∨
      ∃ x y declared, Γ.names x y ∧ slot = .binding x declared ∧ slot' = .binding y declared := by
  cases hslot with
  | hole => exact .inl ⟨rfl, rfl⟩
  | binding hxy declared => exact .inr ⟨_, _, declared, hxy, rfl, rfl⟩
  | _ => cases hname

theorem declared_eq (hslot : Renamed keep Γ slot slot') (hname : slot.identifier?.isSome) :
    slot'.declared? = slot.declared? := by
  rcases slot_cases hslot hname with ⟨rfl, rfl⟩ | ⟨x, y, declared, -, rfl, rfl⟩ <;> rfl

theorem isSome_identifier? (hslot : Renamed keep Γ slot slot') (hname : slot.identifier?.isSome) :
    slot'.identifier?.isSome := by
  rcases slot_cases hslot hname with ⟨rfl, rfl⟩ | ⟨x, y, declared, -, rfl, rfl⟩ <;> rfl

theorem identifier_hole : identifier .hole = pure Expr.holeName := rfl

theorem identifier_binding (x : String) (declared : Option Ty) :
    identifier (.binding x declared) = pure x := rfl

theorem entries_declared (h : C.Parallel D keep P) (hslot : slot.All (Legible D))
    (ha : slot.declared? = some a) : C.entries w a a := by
  refine h.declared ?_ (known_declared hslot ha)
  have hformed := ((Expr.all_iff.1 hslot).1).1
  cases slot with
  | binding name declared =>
    cases ha
    exact hformed
  | _ => cases ha

theorem matches_binderType (h : C.Parallel D keep P) (hst : C.states w s t)
    (hslot : Renamed keep Γ slot slot') (hname : slot.identifier?.isSome)
    (hlegible : slot.All (Legible D)) (stem stem' : String) :
    Matches C.states C.types w (binderType slot stem) (binderType slot' stem') s t := by
  rw [binderType, binderType, declared_eq hslot hname]
  split
  · exact matches_instantiate h hst (entries_declared h hlegible ‹_›)
  · exact h.newUnknown stem stem' hst

theorem matches_valueType (h : C.Parallel D keep P) (hst : C.states w s t)
    (hslot : Renamed keep Γ slot slot') (hname : slot.identifier?.isSome)
    (hlegible : slot.All (Legible D)) (hab : C.types w a b) :
    Matches C.states C.types w (valueType slot a e₁ e₂) (valueType slot' b e₁' e₂') s t := by
  rw [valueType, valueType, declared_eq hslot hname]
  split
  · refine (matches_instantiate h hst (entries_declared h hlegible ‹_›)).bind
      fun w' s' t' _ _ hw hst' hab' ↦ ?_
    exact h.unify e₁ e₂ e₁' e₂' hst' hab' (h.types_mono hw hab)
  · exact matches_pure hst hab

theorem matches_recorded (h : C.Parallel D keep P) (hst : C.states w s t) (site site' : Site)
    (hab : C.types w a b) :
    Matches C.states C.types w (do record site a; return a) (do record site' b; return b) s t :=
  ⟨w, le_rfl, h.record site site' hst hab, hab⟩

/-- Types that have been found are recorded on both sides. -/
theorem Matches.recorded {x y : Infer Ty} (hxy : Matches C.states C.types w x y s t)
    (h : C.Parallel D keep P) (site site' : Site) :
    Matches C.states C.types w (do let a ← x; record site a; return a)
      (do let b ← y; record site' b; return b) s t :=
  hxy.bind fun _ _ _ _ _ _ hst hab ↦ matches_recorded h hst site site' hab

theorem matches_paramTypes (h : C.Parallel D keep P) {ps ps' : List Expr} (hst : C.states w s t)
    (hps : List.Forall₂ (Renamed keep Γ) ps ps') (hnames : ∀ p ∈ ps, p.identifier?.isSome)
    (hlegible : ∀ p ∈ ps, p.All (Legible D)) :
    Matches C.states (fun w r r' ↦ List.Forall₂ (C.types w) r.1 r'.1 ∧
      Comparison.Bindings (C.types w) (slotPairs ps ps') r.2 r'.2) w (paramTypes ps)
        (paramTypes ps') s t := by
  induction hps generalizing w s t with
  | nil => exact matches_pure hst ⟨.nil, .nil⟩
  | @cons p p' ps ps' hp _ ih =>
    rw [List.forall_mem_cons] at hnames hlegible
    have hbinder := fun x y ↦ matches_binderType h hst hp hnames.1 hlegible.1 x y
    rw [paramTypes, paramTypes]
    rcases slot_cases hp hnames.1 with ⟨rfl, rfl⟩ | ⟨x, y, declared, -, rfl, rfl⟩
    · rw [identifier_hole, pure_bind, pure_bind]
      refine (hbinder _ _).bind fun w₁ s₁ t₁ a b hw₁ hst₁ hab ↦ ?_
      refine (ih hst₁ hnames.2 hlegible.2).bind fun w₂ s₂ t₂ r r' hw₂ hst₂ hr ↦ ?_
      exact matches_pure hst₂ ⟨.cons (h.types_mono hw₂ hab) hr.1, hr.2⟩
    · rw [identifier_binding, identifier_binding, pure_bind, pure_bind]
      refine (hbinder _ _).bind fun w₁ s₁ t₁ a b hw₁ hst₁ hab ↦ ?_
      refine (ih hst₁ hnames.2 hlegible.2).bind fun w₂ s₂ t₂ r r' hw₂ hst₂ hr ↦ ?_
      have hab₂ := h.types_mono hw₂ hab
      exact matches_pure hst₂ ⟨.cons hab₂ hr.1, .cons hab₂ hr.2⟩

/-- The names of two `letrec`s.  A name that is bound twice counts once, which does not change the
scope. -/
theorem matches_recursiveTypes (h : C.Parallel D keep P) {bs bs' : List (Expr × Expr)}
    {known known' : Env} {ps : List (String × String)} (hst : C.states w s t) (hΓ : Γ.Unambiguous)
    (hΔ : Δ.Unambiguous) (hbs : List.Forall₂ (fun b b' ↦ Renamed keep Δ b.1 b'.1) bs bs')
    (hnames : ∀ b ∈ bs, b.1.identifier?.isSome) (hlegible : ∀ b ∈ bs, b.1.All (Legible D))
    (hknown : Comparison.Bindings (C.types w) ps known.entries known'.entries)
    (hps : ∀ p ∈ ps, Δ.names p.1 p.2) (heven : keep → Γ.EvenAll ps)
    (heven' : keep → (Γ.bindAll ps).EvenAll (slotPairs (bs.map (·.1)) (bs'.map (·.1)))) :
    Matches C.states (fun w r r' ↦ ∃ qs, Comparison.Bindings (C.types w) qs r.entries r'.entries ∧
      (∀ p ∈ qs, Δ.names p.1 p.2) ∧
      Γ.bindAll qs = (Γ.bindAll ps).enter (bs.map (·.1)) (bs'.map (·.1)) ∧
      (keep → Γ.EvenAll qs)) w (recursiveTypes bs known) (recursiveTypes bs' known') s t := by
  induction hbs generalizing w s t known known' ps with
  | nil => exact matches_pure hst ⟨ps, hknown, hps, rfl, heven⟩
  | @cons c c' bs bs' hc _ ih =>
    obtain ⟨slot, value⟩ := c
    obtain ⟨slot', value'⟩ := c'
    rw [List.forall_mem_cons] at hnames hlegible
    have hbinder := fun x y ↦ matches_binderType h hst hc hnames.1 hlegible.1 x y
    rw [recursiveTypes, recursiveTypes]
    rcases slot_cases hc hnames.1 with ⟨rfl, rfl⟩ | ⟨x, y, declared, hxy, rfl, rfl⟩
    · exact ih hst hnames.2 hlegible.2 hknown hps heven heven'
    · refine (hbinder x y).bind fun w₁ s₁ t₁ a b hw₁ hst₁ hab ↦ ?_
      have hpair : ∀ p ∈ ps, (p.1 = x ↔ p.2 = y) := fun p hp ↦ hΔ.names (hps p hp) hxy
      have hknown₁ := hknown.imp fun _ _ ↦ h.types_mono hw₁
      have hrest := @ih w₁ s₁ t₁ (known.insert x a) (known'.insert y b)
      rcases hknown₁.put hpair hab with ⟨hmem, hput⟩ | hput
      · have hbound := Scope.bound_bindAll Γ hmem hpair
        have hself := Scope.bind_eq_self (p := (x, y)) (hΓ.bindAll ps) hbound
        have hrest :=
          hrest hst₁ hnames.2 hlegible.2 hput hps heven fun hkeep ↦ hself ▸ (heven' hkeep).2
        refine hrest.mono fun _ _ _ h ↦ ?_
        obtain ⟨qs, hqs, hnames, hscope, heven⟩ := h
        exact ⟨qs, hqs, hnames,
          hscope.trans
            (congrArg (fun Θ : Scope ↦ Θ.enter (bs.map (·.1)) (bs'.map (·.1))) hself.symm), heven⟩
      · have hps₁ : ∀ p ∈ ps ++ [(x, y)], Δ.names p.1 p.2 := by
          rw [List.forall_mem_append, List.forall_mem_singleton]
          exact ⟨hps, hxy⟩
        have hrest := hrest hst₁ hnames.2 hlegible.2 hput hps₁
          (fun hkeep ↦ Scope.evenAll_concat.2 ⟨heven hkeep, (heven' hkeep).1⟩)
          fun hkeep ↦ by rw [Scope.bindAll_concat]; exact (heven' hkeep).2
        rw [Scope.bindAll_concat] at hrest
        exact hrest

theorem matches_generalizeAll (h : C.Parallel D keep P) {ps : List (String × String)}
    {bs bs' : List (String × Ty)} (hst : C.states w s t) (henv : C.Environments D keep w Γ env env')
    (hbs : Comparison.Bindings (C.types w) ps bs bs')
    (hanchored : P → (∀ b ∈ bs, Anchored (fun x ↦ ∃ y, Γ.names x y) env (C.left w) b.2) ∧
      ∀ b ∈ bs', Anchored (fun y ↦ ∃ x, Γ.names x y) env' (C.right w) b.2) :
    Matches C.states (fun w r r' ↦ Comparison.Bindings (C.entries w) ps r r') w
      (generalizeAll env bs)
      (generalizeAll env' bs') s t := by
  induction hbs generalizing s t with
  | nil => exact matches_pure hst .nil
  | cons ht _ ih =>
    rw [generalizeAll, generalizeAll]
    refine (h.generalize hst henv ht fun hP ↦ ⟨(hanchored hP).1 _ List.mem_cons_self,
      (hanchored hP).2 _ List.mem_cons_self⟩).bind fun w₁ s₁ t₁ r r' _ hst₁ hr ↦ ?_
    obtain ⟨rfl, hr⟩ := hr
    refine (ih hst₁ fun hP ↦ ⟨fun b hb ↦ (hanchored hP).1 b (List.mem_cons_of_mem _ hb),
      fun b hb ↦ (hanchored hP).2 b (List.mem_cons_of_mem _ hb)⟩).bind
        fun w₂ s₂ t₂ rs rs' hw₂ hst₂ hrs ↦ ?_
    exact matches_pure hst₂ (.cons (h.entries_mono hw₂ hr) hrs)

/-! ## Calls -/

/-- Two plans that continue alike. -/
inductive PlansMatch (r : Ty → Ty → Prop) : CallPlan → CallPlan → Prop
  | done {a b : Ty} (h : r a b) : PlansMatch r (.done a) (.done b)
  | ignore {a b : Ty} (h : r a b) : PlansMatch r (.ignore a) (.ignore b)
  | consume {a b : Ty} (h : r a b) : PlansMatch r (.consume a) (.consume b)

theorem plan_con {c : CallSite} {tag : String} {ps : List Ty} (htype : c.type = .con tag ps)
    (hany : tag ≠ "Any") (hnever : tag ≠ "Never") (hprocedure : ∀ r, tag = "Procedure" → ps ≠ [r]) :
    plan c = if tag ≠ "Function" then fail (.notCallable c.call c.type)
      else if c.argCount = 0 then fail (.missingArguments c.call c.type)
      else return .consume c.type := by
  rw [plan, htype]
  dsimp only
  split
  · exact absurd rfl (hprocedure _ rfl)
  · exact absurd rfl hany
  · exact absurd rfl hnever
  · rfl

theorem matches_plan (h : C.Parallel D keep P) (c c' : CallSite) (hst : C.states w s t)
    (hc : C.types w c.type c'.type) (hcount : c'.argCount = c.argCount) :
    Matches C.states (fun w p p' ↦ PlansMatch (C.types w) p p') w (plan c) (plan c') s t := by
  obtain ⟨csite, call, called, type, stem, n⟩ := c
  obtain ⟨csite', call', called', type', stem', n'⟩ := c'
  dsimp only at hc hcount
  subst hcount
  cases h.alike hc with
  | unknown x y =>
    rw [plan, plan]
    refine matches_ite .rfl (fun _ ↦ ?_) fun _ ↦ matches_pure hst (.consume hc)
    refine (h.newUnknown stem stem' hst).bind fun w₁ s₁ t₁ a b hw₁ hst₁ hab ↦ ?_
    refine (h.unify _ _ _ _ hst₁ (h.types_mono hw₁ hc) (h.procedure hab)).bind
      fun w₂ s₂ t₂ _ _ hw₂ hst₂ _ ↦ ?_
    exact (h.applied hst₂ (h.types_mono hw₂ hab)).bind fun _ _ _ _ _ _ hst₃ h' ↦
      matches_pure hst₃ (.done h')
  | variadic min max hps =>
    rename_i ps qs
    rw [plan, plan]
    have haccepts : (Ty.variadic min max qs).accepts n' = (Ty.variadic min max ps).accepts n' := by
      rw [accepts, accepts, minArguments, minArguments, hps.length_eq]
      rfl
    dsimp only
    refine matches_ite (by rw [haccepts]) (fun _ ↦ matches_pure hst ?_) fun _ ↦ matches_fail rfl
    have hne : D → 0 < ps.length := (held_variadic.1 (h.known (h.entry hc)).1).1
    have hchain := h.chain (forall₂_spread hps n') (h.result hps hne)
    split
    · exact .done hchain
    · exact .consume hchain
  | con tag hps =>
    rename_i ps qs
    rw [plan]
    dsimp only
    split
    · rename_i r
      cases hps with
      | cons hr hps =>
        cases hps
        exact matches_ite .rfl (fun _ ↦ matches_pure hst (.done hr)) fun _ ↦ matches_fail rfl
    · exact matches_pure hst (.ignore (h.any fun hD ↦ (h.definite hc hD).1 rfl))
    · exact matches_pure hst (.ignore (h.atom (by decide)))
    · rename_i hany hnever hprocedure
      rw [plan_con rfl hany hnever]
      · exact matches_ite .rfl (fun _ ↦ matches_fail rfl) fun _ ↦
          matches_ite .rfl (fun _ ↦ matches_fail rfl) fun _ ↦ matches_pure hst (.consume hc)
      · rintro r htag rfl
        obtain ⟨r', _, -, hnil, rfl⟩ := List.forall₂_cons_right_iff.1 hps
        exact hprocedure r' htag (by rw [List.forall₂_nil_right_iff.1 hnil])

/-! ## Lists of expressions -/

/-- Visiting `e` and `e'` matches. -/
def Compared (C : Comparison ω) (D keep : Prop) (Γ : Scope) (e e' : Expr) : Prop :=
  ∀ {w : ω} {s t : InferenceState} {env env' : Env} (site site' : Site), C.states w s t →
    C.Environments D keep w Γ env env' →
    Matches C.states C.types w (visit env site e) (visit env' site' e') s t

theorem matches_visitAll (h : C.Parallel D keep P) {es es' : List Expr}
    (hes : List.Forall₂ (Compared C D keep Γ) es es') (i : Nat) (hst : C.states w s t)
    (henv : C.Environments D keep w Γ env env') :
    Matches C.states (fun _ _ _ ↦ True) w (visitAll env site i es)
      (visitAll env' site' i es') s t := by
  induction hes generalizing w s t i with
  | nil => exact matches_pure hst trivial
  | cons he _ ih =>
    rw [visitAll, visitAll]
    exact (he _ _ hst henv).bind fun _ _ _ _ _ hw hst₁ _ ↦ ih _ hst₁ (h.environments_mono hw henv)

theorem matches_visitNames (h : C.Parallel D keep P) {bs bs' : List (Expr × Expr)}
    (hbs : List.Forall₂ (fun b b' ↦ Compared C D keep Γ b.1 b'.1) bs bs') (i : Nat)
    (hst : C.states w s t) (henv : C.Environments D keep w Γ env env') :
    Matches C.states (fun _ _ _ ↦ True) w (visitNames env site i bs)
      (visitNames env' site' i bs') s t := by
  induction hbs generalizing w s t i with
  | nil => exact matches_pure hst trivial
  | cons hb _ ih =>
    rw [visitNames, visitNames]
    exact (hb _ _ hst henv).bind fun _ _ _ _ _ hw hst₁ _ ↦ ih _ hst₁ (h.environments_mono hw henv)

theorem matches_visitElements (h : C.Parallel D keep P) {es es' : List Expr}
    (hes : List.Forall₂ (Compared C D keep Γ) es es') (i : Nat) (first first' : Option Mention)
    (hst : C.states w s t) (henv : C.Environments D keep w Γ env env') (hab : C.types w a b) :
    Matches C.states C.types w (visitElements env site i first a es)
      (visitElements env' site' i first' b es') s t := by
  induction hes generalizing w s t i first first' a b with
  | nil => exact matches_pure hst hab
  | cons he _ ih =>
    rw [visitElements, visitElements]
    refine (he _ _ hst henv).bind fun w₁ s₁ t₁ c d hw₁ hst₁ hcd ↦ ?_
    refine (h.unify _ _ _ _ hst₁ (h.types_mono hw₁ hab) hcd).bind fun w₂ s₂ t₂ _ _ hw₂ hst₂ h' ↦ ?_
    exact ih _ _ _ hst₂ (h.environments_mono (hw₁.trans hw₂) henv) h'

theorem matches_visitSequence (h : C.Parallel D keep P) {es es' : List Expr}
    (hes : List.Forall₂ (Compared C D keep Γ) es es') (i : Nat) (hst : C.states w s t)
    (henv : C.Environments D keep w Γ env env') (hab : C.types w a b) :
    Matches C.states C.types w (visitSequence env site i a es)
      (visitSequence env' site' i b es') s t := by
  induction hes generalizing w s t i a b with
  | nil => exact matches_pure hst hab
  | cons he _ ih =>
    rw [visitSequence, visitSequence]
    exact (he _ _ hst henv).bind fun _ _ _ _ _ hw hst₁ hcd ↦
      ih _ hst₁ (h.environments_mono hw henv) hcd

theorem matches_visitCases (h : C.Parallel D keep P) {cs cs' : List (Expr × Expr)}
    (hcs : List.Forall₂
      (fun c c' ↦ Compared C D keep Γ c.1 c'.1 ∧ Compared C D keep Γ c.2 c'.2) cs cs')
    (whole whole' : Mention) (i : Nat) (hst : C.states w s t)
    (henv : C.Environments D keep w Γ env env') (hab : C.types w a b) :
    Matches C.states C.types w (visitCases env site whole i a cs)
      (visitCases env' site' whole' i b cs') s t := by
  induction hcs generalizing w s t i a b with
  | nil => exact matches_pure hst hab
  | cons hc _ ih =>
    rw [visitCases, visitCases]
    refine (hc.1 _ _ hst henv).bind fun w₁ s₁ t₁ _ _ hw₁ hst₁ _ ↦ ?_
    have henv₁ := h.environments_mono hw₁ henv
    refine (hc.2 _ _ hst₁ henv₁).bind fun w₂ s₂ t₂ c d hw₂ hst₂ hcd ↦ ?_
    refine (h.unify _ _ _ _ hst₂ (h.types_mono (hw₁.trans hw₂) hab) hcd).bind
      fun w₃ s₃ t₃ _ _ hw₃ hst₃ h' ↦ ?_
    exact ih _ hst₃ (h.environments_mono (hw₂.trans hw₃) henv₁) h'

theorem matches_visitArgs (h : C.Parallel D keep P) {es es' : List Expr}
    (hes : List.Forall₂ (Compared C D keep Γ) es es') (c c' : CallSite) (i : Nat)
    (hst : C.states w s t) (henv : C.Environments D keep w Γ env env') (hab : C.types w a b) :
    Matches C.states C.types w (visitArgs env c i a es) (visitArgs env' c' i b es') s t := by
  induction hes generalizing w s t i a b with
  | nil => exact matches_pure hst hab
  | cons he hes ih =>
    rw [visitArgs, visitArgs]
    refine (h.applied hst hab).bind fun w₁ s₁ t₁ current current' hw₁ hst₁ hcurrent ↦ ?_
    have henv₁ := h.environments_mono hw₁ henv
    have halike := h.alike hcurrent
    refine matches_ite (by rw [halike.hasTag_eq, halike.hasTag_eq]) (fun _ ↦ ?_) fun _ ↦
      matches_ite (by rw [halike.tag?_eq, halike.hasTag_eq]) (fun _ ↦ matches_fail rfl) fun _ ↦ ?_
    · refine (he _ _ hst₁ henv₁).bind fun w₂ s₂ t₂ _ _ hw₂ hst₂ _ ↦ ?_
      refine (matches_visitAll h hes _ hst₂ (h.environments_mono hw₂ henv₁)).bind
        fun w₃ s₃ t₃ _ _ hw₃ hst₃ _ ↦ ?_
      exact matches_pure hst₃ (h.types_mono (hw₂.trans hw₃) hcurrent)
    · refine (he _ _ hst₁ henv₁).bind fun w₂ s₂ t₂ arg arg' hw₂ hst₂ harg ↦ ?_
      refine (h.newUnknown _ _ hst₂).bind fun w₃ s₃ t₃ next next' hw₃ hst₃ hnext ↦ ?_
      refine (h.unify _ _ _ _ hst₃ (h.types_mono (hw₁.trans (hw₂.trans hw₃)) hab)
        (h.function (h.types_mono hw₃ harg) hnext)).bind fun w₄ s₄ t₄ _ _ hw₄ hst₄ _ ↦ ?_
      refine (h.applied hst₄ (h.types_mono hw₄ hnext)).bind fun w₅ s₅ t₅ _ _ hw₅ hst₅ h' ↦ ?_
      exact ih _ hst₅ (h.environments_mono (hw₂.trans (hw₃.trans (hw₄.trans hw₅))) henv₁) h'

theorem visitLetValues_cons (env : Env) (site : Site) (i : Nat) (slot value : Expr)
    (bs : List (Expr × Expr)) :
    visitLetValues env site i ((slot, value) :: bs) = (do
      let type ← letValue env site i slot value
      if slot.isHole then visitLetValues env site (i + 2) bs
      else
        let (generalized, _) ← generalize env type
        let id ← identifier slot
        return (id, generalized) :: (← visitLetValues env site (i + 2) bs)) := by
  rw [visitLetValues, letValue, bind_assoc]

theorem matches_letValue (h : C.Parallel D keep P) (site site' : Site) (i : Nat)
    {value value' : Expr} (hst : C.states w s t) (hslot : Renamed keep Δ slot slot')
    (hname : slot.identifier?.isSome) (hlegible : slot.All (Legible D))
    (hvalue : Compared C D keep Γ value value') (henv : C.Environments D keep w Γ env env') :
    Matches C.states C.types w (letValue env site i slot value)
      (letValue env' site' i slot' value') s t := by
  rw [letValue, letValue]
  exact (hvalue _ _ hst henv).bind fun _ _ _ _ _ _ hst₁ hab ↦
    matches_valueType h hst₁ hslot hname hlegible hab

theorem matches_visitLetValues (h : C.Parallel D keep P) (hA : P → Anchoring D)
    {bs bs' : List (Expr × Expr)} (hbs : List.Forall₂ (fun b b' ↦ Renamed keep Δ b.1 b'.1 ∧
      Renamed keep Γ b.2 b'.2 ∧ Compared C D keep Γ b.2 b'.2) bs bs')
    (hnames : ∀ b ∈ bs, b.1.identifier?.isSome)
    (hlegible : ∀ b ∈ bs, b.1.All (Legible D) ∧ b.2.All (Legible D))
    (hlegible' : ∀ b ∈ bs', b.1.All (Legible D) ∧ b.2.All (Legible D)) (i : Nat)
    (hst : C.states w s t) (henv : C.Environments D keep w Γ env env') :
    Matches C.states (fun w r r' ↦
      Comparison.Bindings (C.entries w) (slotPairs (bs.map (·.1)) (bs'.map (·.1))) r r') w
      (visitLetValues env site i bs) (visitLetValues env' site' i bs') s t := by
  induction hbs generalizing w s t i with
  | nil => exact matches_pure hst .nil
  | @cons c c' bs bs' hc _ ih =>
    obtain ⟨slot, value⟩ := c
    obtain ⟨slot', value'⟩ := c'
    obtain ⟨hslot, hrenamed, hvalue⟩ := hc
    rw [List.forall_mem_cons] at hnames hlegible hlegible'
    have hfound := matches_letValue h site site' i hst hslot hnames.1 hlegible.1.1 hvalue henv
    -- The value only depends on the names in scope, on either side.
    have hanchored : Matches C.states (fun w a b ↦ C.types w a b ∧
        (P → Anchored (fun x ↦ ∃ y, Γ.names x y) env (C.left w) a ∧
          Anchored (fun y ↦ ∃ x, Γ.names x y) env' (C.right w) b)) w
        (letValue env site i slot value) (letValue env' site' i slot' value') s t := by
      by_cases hP : P
      · obtain ⟨⟨hs, hns⟩, ht, hnt⟩ := h.orderly hst
        obtain ⟨hleft, hright⟩ := h.stores hst
        obtain ⟨hsided, hsided'⟩ := sided value hrenamed Γ.sides_self
        refine hfound.and ((hA hP).value site i hs hns (hleft ▸ henv.known_left) henv.apparent_left
          hnames.1 hlegible.1.1 hlegible.1.2 hsided)
            ((hA hP).value site' i ht hnt (hright ▸ henv.known_right)
          henv.apparent_right (isSome_identifier? hslot hnames.1) hlegible'.1.1 hlegible'.1.2
            hsided')
          fun w₁ s₁ t₁ a b hst₁ hab ha hb ↦ ?_
        obtain ⟨hleft₁, hright₁⟩ := h.stores hst₁
        exact ⟨hab, fun _ ↦ ⟨hleft₁ ▸ ha, hright₁ ▸ hb⟩⟩
      · exact hfound.mono fun _ _ _ hab ↦ ⟨hab, fun h ↦ absurd h hP⟩
    rw [visitLetValues_cons, visitLetValues_cons]
    refine hanchored.bind fun w₁ s₁ t₁ a b hw₁ hst₁ hab ↦ ?_
    have henv₁ := h.environments_mono hw₁ henv
    rcases slot_cases hslot hnames.1 with ⟨rfl, rfl⟩ | ⟨x, y, declared, hxy, rfl, rfl⟩
    · exact ih hnames.2 hlegible.2 hlegible'.2 _ hst₁ henv₁
    · refine (h.generalize hst₁ henv₁ hab.1 hab.2).bind fun w₂ s₂ t₂ r r' _ hst₂ hr ↦ ?_
      obtain ⟨rfl, hr⟩ := hr
      refine (ih hnames.2 hlegible.2 hlegible'.2 _ hst₂ henv₁).bind
        fun w₃ s₃ t₃ rs rs' hw₃ hst₃ hrs ↦ ?_
      exact matches_pure hst₃ (.cons (h.entries_mono hw₃ hr) hrs)

theorem matches_visitRecursiveValues (h : C.Parallel D keep P) {bs bs' : List (Expr × Expr)}
    {recursive recursive' : Env} {ps : List (String × String)} (hΔ : Δ.Unambiguous)
    (hbs : List.Forall₂ (fun b b' ↦ Renamed keep Δ b.1 b'.1 ∧ Compared C D keep Δ b.2 b'.2) bs bs')
    (hnames : ∀ b ∈ bs, b.1.identifier?.isSome)
    (hrecursive : Comparison.Bindings (C.types w) ps recursive.entries recursive'.entries)
    (hps : ∀ p ∈ ps, Δ.names p.1 p.2) (i : Nat) (hst : C.states w s t)
    (henv : C.Environments D keep w Δ env env') :
    Matches C.states (fun _ _ _ ↦ True) w (visitRecursiveValues env site recursive i bs)
      (visitRecursiveValues env' site' recursive' i bs') s t := by
  induction hbs generalizing w s t i with
  | nil => exact matches_pure hst trivial
  | @cons c c' bs bs' hc _ ih =>
    obtain ⟨slot, value⟩ := c
    obtain ⟨slot', value'⟩ := c'
    obtain ⟨hslot, hvalue⟩ := hc
    rw [List.forall_mem_cons] at hnames
    rw [visitRecursiveValues, visitRecursiveValues]
    refine (hvalue _ _ hst henv).bind fun w₁ s₁ t₁ a b hw₁ hst₁ hab ↦ ?_
    have hrecursive₁ := hrecursive.imp fun _ _ ↦ h.types_mono hw₁
    have henv₁ := h.environments_mono hw₁ henv
    rcases slot_cases hslot hnames.1 with ⟨rfl, rfl⟩ | ⟨x, y, declared, hxy, rfl, rfl⟩
    · exact ih hnames.2 hrecursive₁ _ hst₁ henv₁
    · have hlookup := hrecursive₁.lookup fun p hp ↦ hΔ.names (hps p hp) hxy
      refine (h.unify _ _ _ _ hst₁ (rel_getD hlookup hab) hab).bind fun w₂ s₂ t₂ _ _ hw₂ hst₂ _ ↦ ?_
      exact ih hnames.2 (hrecursive₁.imp fun _ _ ↦ h.types_mono hw₂) _ hst₂
        (h.environments_mono hw₂ henv₁)

theorem matches_recursiveValues (h : C.Parallel D keep P) (site site' : Site)
    {bs bs' : List (Expr × Expr)} (hΓ : Γ.Unambiguous)
    (hbs : List.Forall₂ (fun b b' ↦ Renamed keep (Γ.enter (bs.map (·.1)) (bs'.map (·.1))) b.1 b'.1 ∧
      Compared C D keep (Γ.enter (bs.map (·.1)) (bs'.map (·.1))) b.2 b'.2) bs bs')
    (hnames : ∀ b ∈ bs, b.1.identifier?.isSome) (hlegible : ∀ b ∈ bs, b.1.All (Legible D))
    (heven : keep → Γ.EvenAll (slotPairs (bs.map (·.1)) (bs'.map (·.1)))) (hst : C.states w s t)
    (henv : C.Environments D keep w Γ env env') :
    Matches C.states (fun w r r' ↦ ∃ qs, Comparison.Bindings (C.types w) qs r.entries r'.entries ∧
      Γ.bindAll qs = Γ.enter (bs.map (·.1)) (bs'.map (·.1)) ∧ (keep → Γ.EvenAll qs)) w
      (recursiveValues env site bs) (recursiveValues env' site' bs') s t := by
  have hΔ : (Γ.enter (bs.map (·.1)) (bs'.map (·.1))).Unambiguous := hΓ.bindAll _
  have hempty : Comparison.Bindings (C.types w) [] (∅ : Env).entries (∅ : Env).entries := .nil
  rw [recursiveValues, recursiveValues]
  refine (matches_recursiveTypes h hst hΓ hΔ (hbs.imp fun _ _ ↦ And.left) hnames hlegible
    hempty (by simp)
    (fun _ ↦ trivial) heven).bind
    fun w₁ s₁ t₁ r r' hw₁ hst₁ ⟨qs, hqs, hpairs, hscope, hevenqs⟩ ↦ ?_
  have henv₁ :=
    h.environments_insertAll (hqs.imp fun _ _ ↦ h.entry) (h.environments_mono hw₁ henv) hevenqs
  rw [hscope] at henv₁
  refine (matches_visitRecursiveValues h hΔ hbs hnames hqs hpairs 0 hst₁ henv₁).bind
    fun w₂ s₂ t₂ _ _ hw₂ hst₂ _ ↦ ?_
  exact matches_pure hst₂ ⟨qs, hqs.imp fun _ _ ↦ h.types_mono hw₂, hscope, hevenqs⟩

/-! ## All expressions -/

/-- Visiting `e` and a renaming of it matches. -/
def Comparable (C : Comparison ω) (D keep : Prop) (e : Expr) : Prop :=
  ∀ {Γ : Scope} {e' : Expr}, Γ.Unambiguous → Renamed keep Γ e e' → e.All (Legible D) →
    e'.All (Legible D) →
    Compared C D keep Γ e e'

theorem compared_row {es es' : List Expr} (ih : ∀ e ∈ es, Comparable C D keep e)
    (hΓ : Γ.Unambiguous) (hes : RenamedRow keep Γ es es') (hlegible : ∀ e ∈ es, e.All (Legible D))
    (hlegible' : ∀ e ∈ es', e.All (Legible D)) : List.Forall₂ (Compared C D keep Γ) es es' :=
  forall₂_imp_mem (renamedRow_iff.1 hes) fun e he e' he' h ↦
    ih e he hΓ h (hlegible e he) (hlegible' e' he')

/-- Lists of pairs whose first components may be in another scope than the second. -/
theorem compared_pairs {bs bs' : List (Expr × Expr)}
    (ih : ∀ b ∈ bs, Comparable C D keep b.1 ∧ Comparable C D keep b.2) (hΔ : Δ.Unambiguous)
    (hΓ : Γ.Unambiguous) (hfirst : RenamedRow keep Δ (bs.map (·.1)) (bs'.map (·.1)))
    (hsecond : RenamedRow keep Γ (bs.map (·.2)) (bs'.map (·.2)))
    (hlegible : ∀ b ∈ bs, b.1.All (Legible D) ∧ b.2.All (Legible D))
    (hlegible' : ∀ b ∈ bs', b.1.All (Legible D) ∧ b.2.All (Legible D)) :
    List.Forall₂ (fun b b' ↦ Compared C D keep Δ b.1 b'.1 ∧ Compared C D keep Γ b.2 b'.2) bs bs' :=
  forall₂_imp_mem (forall₂_pairs (renamedRow_iff.1 hfirst) (renamedRow_iff.1 hsecond))
    fun b hb b' hb' h ↦
    ⟨(ih b hb).1 hΔ h.1 (hlegible b hb).1 (hlegible' b' hb').1,
      (ih b hb).2 hΓ h.2 (hlegible b hb).2 (hlegible' b' hb').2⟩

theorem comparable_call (h : C.Parallel D keep P) {f : Expr} {es : List Expr}
    (ihf : Comparable C D keep f) (ih : ∀ e ∈ es, Comparable C D keep e) :
    Comparable C D keep (.call f es) := by
  intro Γ e' hΓ hren hlegible hlegible' w s t env env' site site' hst henv
  cases hren with
  | @call _ _ f' _ es' hf hes =>
    obtain ⟨hpf, hpes⟩ := List.forall_mem_cons.1 (Expr.all_iff.1 hlegible).2
    obtain ⟨hpf', hpes'⟩ := List.forall_mem_cons.1 (Expr.all_iff.1 hlegible').2
    have hargs := compared_row ih hΓ hes hpes hpes'
    rw [visit, visit]
    refine (ihf hΓ hf hpf hpf' _ _ hst henv).bind fun w₁ s₁ t₁ a b hw₁ hst₁ hab ↦ ?_
    refine (h.applied hst₁ hab).bind fun w₂ s₂ t₂ a' b' hw₂ hst₂ hab' ↦ ?_
    refine (matches_plan h ⟨_, _, _, _, _, _⟩
      ⟨_, _, _, _, _, _⟩ hst₂ hab' hargs.length_eq.symm).bind
      fun w₃ s₃ t₃ p p' hw₃ hst₃ hp ↦ ?_
    have henv₃ := h.environments_mono (hw₁.trans (hw₂.trans hw₃)) henv
    cases hp with
    | done hp => exact matches_recorded h hst₃ site site' hp
    | ignore hp =>
      exact (matches_visitAll h hargs 1 hst₃ henv₃).bind fun _ _ _ _ _ hw₄ hst₄ _ ↦
        matches_recorded h hst₄ site site' (h.types_mono hw₄ hp)
    | consume hp => exact (matches_visitArgs h hargs _ _ 0 hst₃ henv₃ hp).recorded h site site'

theorem comparable_define (h : C.Parallel D keep P) {name value : Expr}
    (ihn : Comparable C D keep name) (ih : Comparable C D keep value) :
    Comparable C D keep (.define name value) := by
  intro Γ e' hΓ hren hlegible hlegible' w s t env env' site site' hst henv
  cases hren with
  | @define _ _ name' _ value' heven hname hvalue =>
    obtain ⟨⟨hslot, -⟩, hchildren⟩ := Expr.all_iff.1 hlegible
    obtain ⟨hpname, hpvalue⟩ := List.forall_mem_cons.1 hchildren
    obtain ⟨hpname', hpvalue'⟩ := List.forall_mem_cons.1 (Expr.all_iff.1 hlegible').2
    have hΔ : (Γ.enter [name] [name']).Unambiguous := hΓ.bindAll _
    have hbinder := fun x y ↦ matches_binderType h hst hname hslot hpname x y
    have hvalue : Compared C D keep (Γ.enter [name] [name']) value value' :=
      ih hΔ hvalue (hpvalue _ (by simp)) (hpvalue' _ (by simp))
    have hslots : Compared C D keep (Γ.enter [name] [name']) name name' :=
      ihn hΔ hname hpname hpname'
    -- What follows the type of the name, in the environments that have the name or not.
    have hrest : ∀ {w s t a b env env'} (m m' n n' : Option Mention), C.states w s t →
      C.types w a b →
        C.Environments D keep w (Γ.enter [name] [name']) env env' →
        Matches C.states C.types w
          (do let found ← visit env (site.child 1) value
              let type ← unify a found m n
              let _ ← visit env (site.child 0) name
              record site type
              return type)
          (do let found ← visit env' (site'.child 1) value'
              let type ← unify b found m' n'
              let _ ← visit env' (site'.child 0) name'
              record site' type
              return type) s t := by
      intro w s t a b env env' m m' n n' hst hab henv
      refine (hvalue _ _ hst henv).bind fun w₁ s₁ t₁ c d hw₁ hst₁ hcd ↦ ?_
      refine (h.unify _ _ _ _ hst₁ (h.types_mono hw₁ hab) hcd).bind
        fun w₂ s₂ t₂ a' b' hw₂ hst₂ hab' ↦ ?_
      refine (hslots _ _ hst₂ (h.environments_mono (hw₁.trans hw₂) henv)).bind
        fun w₃ s₃ t₃ _ _ hw₃ hst₃ _ ↦ ?_
      exact matches_recorded h hst₃ site site' (h.types_mono hw₃ hab')
    rw [visit, visit]
    rcases slot_cases hname hslot with ⟨rfl, rfl⟩ | ⟨x, y, declared, -, rfl, rfl⟩
    · exact (hbinder _ _).bind fun w₁ s₁ t₁ a b hw₁ hst₁ hab ↦
        hrest _ _ _ _ hst₁ hab (h.environments_mono hw₁ henv)
    · refine (hbinder _ _).bind fun w₁ s₁ t₁ a b hw₁ hst₁ hab ↦ hrest _ _ _ _ hst₁ hab ?_
      have hbs : Comparison.Bindings (C.entries w₁) [(x, y)] [(x, a)] [(y, b)] :=
        .cons (h.entry hab) .nil
      exact h.environments_insertAll hbs (h.environments_mono hw₁ henv) heven

theorem comparable_letIn (h : C.Parallel D keep P) (hA : P → Anchoring D) {bs : List (Expr × Expr)}
    {body : Expr} (ih : ∀ b ∈ bs, Comparable C D keep b.1 ∧ Comparable C D keep b.2)
    (ihb : Comparable C D keep body) : Comparable C D keep (.letIn bs body) := by
  intro Γ e' hΓ hren hlegible hlegible' w s t env env' site site' hst henv
  cases hren with
  | @letIn _ _ bs' _ body' heven hnames hvalues hbody =>
    obtain ⟨⟨hslots, -⟩, hchildren⟩ := Expr.all_iff.1 hlegible
    obtain ⟨hpbs, hpbody⟩ := Expr.All.bindings hchildren
    obtain ⟨hpbs', hpbody'⟩ := Expr.All.bindings (Expr.all_iff.1 hlegible').2
    have hΔ : (Γ.enter (bs.map (·.1)) (bs'.map (·.1))).Unambiguous := hΓ.bindAll _
    have hcompared := compared_pairs ih hΔ hΓ hnames hvalues hpbs hpbs'
    have hrenamed := forall₂_pairs (renamedRow_iff.1 hnames) (renamedRow_iff.1 hvalues)
    rw [visit, visit]
    refine (matches_visitLetValues h hA (hrenamed.mp (fun _ _ h h' ↦ ⟨h.1, h.2, h'.2⟩) hcompared)
      hslots hpbs
      hpbs' 0 hst henv).bind fun w₁ s₁ t₁ r r' hw₁ hst₁ hr ↦ ?_
    have henv₁ := h.environments_insertAll hr (h.environments_mono hw₁ henv) heven
    refine (matches_visitNames h (hcompared.imp fun _ _ ↦ And.left) 0 hst₁ henv₁).bind
      fun w₂ s₂ t₂ _ _ hw₂ hst₂ _ ↦ ?_
    exact (ihb hΔ hbody hpbody hpbody' _ _ hst₂ (h.environments_mono hw₂ henv₁)).recorded h
      site site'

theorem visit_letrec (env : Env) (site : Site) (bs : List (Expr × Expr)) (body : Expr) :
    visit env site (.letrec bs body) = (do
      let recursive ← recursiveValues env site bs
      let names ← generalizeAll env recursive.entries
      visitNames (env.insertAll names) site 0 bs
      let type ← visit (env.insertAll names) (site.child (2 * bs.length)) body
      record site type
      return type) := by
  rw [visit]
  simp only [recursiveValues, bind_assoc, pure_bind]

theorem comparable_letrec (h : C.Parallel D keep P) (hA : P → Anchoring D) {bs : List (Expr × Expr)}
    {body : Expr} (ih : ∀ b ∈ bs, Comparable C D keep b.1 ∧ Comparable C D keep b.2)
    (ihb : Comparable C D keep body) : Comparable C D keep (.letrec bs body) := by
  intro Γ e' hΓ hren hlegible hlegible' w s t env env' site site' hst henv
  cases hren with
  | @letrec _ _ bs' _ body' heven hnames hvalues hbody =>
    obtain ⟨⟨hslots, -⟩, hchildren⟩ := Expr.all_iff.1 hlegible
    obtain ⟨⟨hslots', -⟩, hchildren'⟩ := Expr.all_iff.1 hlegible'
    obtain ⟨hpbs, hpbody⟩ := Expr.All.bindings hchildren
    obtain ⟨hpbs', hpbody'⟩ := Expr.All.bindings hchildren'
    have hΔ : (Γ.enter (bs.map (·.1)) (bs'.map (·.1))).Unambiguous := hΓ.bindAll _
    have hcompared := compared_pairs ih hΔ hΔ hnames hvalues hpbs hpbs'
    have hrenamed := forall₂_pairs (renamedRow_iff.1 hnames) (renamedRow_iff.1 hvalues)
    have hfound := matches_recursiveValues h site site' hΓ
      (hrenamed.mp (fun _ _ h h' ↦ ⟨h.1, h'.2⟩) hcompared) hslots
        (fun b hb ↦ (hpbs b hb).1) heven hst henv
    -- The values only depend on the names in scope outside of the form, on either side.
    have hanchored : Matches C.states (fun w r r' ↦
        (∃ qs, Comparison.Bindings (C.types w) qs r.entries r'.entries ∧
          Γ.bindAll qs = Γ.enter (bs.map (·.1)) (bs'.map (·.1)) ∧ (keep → Γ.EvenAll qs)) ∧
        (P → (∀ b ∈ r.entries, Anchored (fun x ↦ ∃ y, Γ.names x y) env (C.left w) b.2) ∧
          ∀ b ∈ r'.entries, Anchored (fun y ↦ ∃ x, Γ.names x y) env' (C.right w) b.2)) w
        (recursiveValues env site bs) (recursiveValues env' site' bs') s t := by
      by_cases hP : P
      · obtain ⟨⟨hs, hns⟩, ht, hnt⟩ := h.orderly hst
        obtain ⟨hleft, hright⟩ := h.stores hst
        have hsides := Γ.sides_self.enter (renamedRow_iff.1 hnames)
        obtain ⟨hn, hn'⟩ := sided_row (fun e _ ↦ sided e) hnames hsides
        obtain ⟨hv, hv'⟩ := sided_row (fun e _ ↦ sided e) hvalues hsides
        refine hfound.and
          ((hA hP).recursive site hs hns (hleft ▸ henv.known_left) henv.apparent_left hslots
          hpbs hn hv) ((hA hP).recursive site' ht hnt
            (hright ▸ henv.known_right) henv.apparent_right hslots'
          hpbs' hn' hv') fun w₁ s₁ t₁ r r' hst₁ hr ha hb ↦ ⟨hr, fun _ ↦ ?_⟩
        obtain ⟨hleft₁, hright₁⟩ := h.stores hst₁
        exact ⟨fun b hb' ↦ hleft₁ ▸ ha b.2 (List.mem_map_of_mem hb'),
          fun b hb' ↦ hright₁ ▸ hb b.2 (List.mem_map_of_mem hb')⟩
      · exact hfound.mono fun _ _ _ hr ↦ ⟨hr, fun h ↦ absurd h hP⟩
    rw [visit_letrec, visit_letrec]
    refine hanchored.bind fun w₁ s₁ t₁ r r' hw₁ hst₁ ⟨⟨qs, hqs, hscope, hevenqs⟩, hr⟩ ↦ ?_
    have henv₁ := h.environments_mono hw₁ henv
    refine (matches_generalizeAll h hst₁ henv₁ hqs hr).bind fun w₂ s₂ t₂ ns ns' hw₂ hst₂ hns ↦ ?_
    have henv₂ := h.environments_insertAll hns (h.environments_mono hw₂ henv₁) hevenqs
    rw [hscope] at henv₂
    refine (matches_visitNames h (hcompared.imp fun _ _ ↦ And.left) 0 hst₂ henv₂).bind
      fun w₃ s₃ t₃ _ _ hw₃ hst₃ _ ↦ ?_
    exact (ihb hΔ hbody hpbody hpbody' _ _ hst₃ (h.environments_mono hw₃ henv₂)).recorded h
      site site'

theorem comparable_lambda (h : C.Parallel D keep P) {ps : List Expr} {body : Expr}
    (ih : ∀ p ∈ ps, Comparable C D keep p) (ihb : Comparable C D keep body) :
    Comparable C D keep (.lambda ps body) := by
  intro Γ e' hΓ hren hlegible hlegible' w s t env env' site site' hst henv
  cases hren with
  | @lambda _ _ ps' _ body' heven hparams hbody =>
    obtain ⟨⟨hslots, -⟩, hchildren⟩ := Expr.all_iff.1 hlegible
    obtain ⟨hpps, hpbody⟩ := List.forall_mem_append.1 hchildren
    obtain ⟨hpps', hpbody'⟩ := List.forall_mem_append.1 (Expr.all_iff.1 hlegible').2
    have hΔ : (Γ.enter ps ps').Unambiguous := hΓ.bindAll _
    rw [visit, visit]
    refine (matches_paramTypes h hst (renamedRow_iff.1 hparams) hslots hpps).bind
      fun w₁ s₁ t₁ r r' hw₁ hst₁ hr ↦ ?_
    have henv₁ :=
      h.environments_insertAll (hr.2.imp fun _ _ ↦ h.entry) (h.environments_mono hw₁ henv) heven
    refine (matches_visitAll h (compared_row ih hΔ hparams hpps hpps') 0 hst₁ henv₁).bind
      fun w₂ s₂ t₂ _ _ hw₂ hst₂ _ ↦ ?_
    refine (ihb hΔ hbody (hpbody _ (by simp)) (hpbody' _ (by simp)) _ _ hst₂
      (h.environments_mono hw₂ henv₁)).bind fun w₃ s₃ t₃ a b hw₃ hst₃ hab ↦ ?_
    refine matches_recorded h hst₃ site site' ?_
    have htypes := h.types_mono_row (hw₂.trans hw₃) hr.1
    revert htypes
    generalize r.1 = ts, r'.1 = ts'
    intro htypes
    cases htypes with
    | nil => exact h.procedure hab
    | cons ht hts => exact h.chain (.cons ht hts) hab

theorem matches_lookup (h : C.Parallel D keep P) {x y : String} (hst : C.states w s t)
    (henv : C.Environments D keep w Γ env env') (hxy : Γ.names x y) (m m' : Mention) :
    Matches C.states C.types w
      (match env.get? x with
        | some S => do let a ← instantiate S; record site a; return a
        | none => do let a ← fail (.unbound m x); record site a; return a)
      (match env'.get? y with
        | some S => do let b ← instantiate S; record site' b; return b
        | none => do let b ← fail (.unbound m' y); record site' b; return b) s t := by
  have hrel := henv.looks.names x y hxy
  revert hrel
  generalize env.get? x = S, env'.get? y = S'
  rintro (hS | -)
  · exact (matches_instantiate h hst hS).recorded h site site'
  · have hkind : (Failure.unbound m x).SameKind (.unbound m' y) := rfl
    exact Matches.recorded (matches_fail hkind) h site site'

/-- **Visiting two expressions that differ in the names they bind matches**, under every comparison
that is `Parallel`. -/
theorem comparable (h : C.Parallel D keep P) (hA : P → Anchoring D) (e : Expr) :
    Comparable C D keep e := by
  induction e with
  | call f es ihf ih => exact comparable_call h ihf ih
  | define name value ihn ih => exact comparable_define h ihn ih
  | letIn bs body ih ihb => exact comparable_letIn h hA ih ihb
  | letrec bs body ih ihb => exact comparable_letrec h hA ih ihb
  | lambda ps body ih ihb => exact comparable_lambda h ih ihb
  | list es ih =>
    intro Γ e' hΓ hren hlegible hlegible' w s t env env' site site' hst henv
    cases hren with
    | list hes =>
      have hes := compared_row ih hΓ hes (Expr.all_iff.1 hlegible).2 (Expr.all_iff.1 hlegible').2
      rw [visit, visit]
      refine (h.newUnknown _ _ hst).bind fun w₁ s₁ t₁ a b hw₁ hst₁ hab ↦ ?_
      refine (matches_visitElements h hes 0 none none hst₁ (h.environments_mono hw₁ henv) hab).bind
        fun w₂ s₂ t₂ c d hw₂ hst₂ hcd ↦ ?_
      exact matches_recorded h hst₂ site site' (h.list hcd)
  | sequence es ih =>
    intro Γ e' hΓ hren hlegible hlegible' w s t env env' site site' hst henv
    cases hren with
    | sequence hes =>
      have hes := compared_row ih hΓ hes (Expr.all_iff.1 hlegible).2 (Expr.all_iff.1 hlegible').2
      rw [visit, visit]
      exact (h.newUnknown _ _ hst).bind fun w₁ s₁ t₁ a b hw₁ hst₁ hab ↦
        (matches_visitSequence h hes 0 hst₁
        (h.environments_mono hw₁ henv) hab).recorded h site site'
  | branch c t e ihc iht ihe =>
    intro Γ e' hΓ hren hlegible hlegible' w s₀ t₀ env env' site site' hst henv
    cases hren with
    | branch hc ht he =>
      have hlegible := (Expr.all_iff.1 hlegible).2
      have hlegible' := (Expr.all_iff.1 hlegible').2
      simp only [Expr.children, List.forall_mem_cons] at hlegible hlegible'
      rw [visit, visit]
      refine (ihc hΓ hc hlegible.1 hlegible'.1 _ _ hst henv).bind fun w₁ s₁ t₁ _ _ hw₁ hst₁ _ ↦ ?_
      have henv₁ := h.environments_mono hw₁ henv
      refine (iht hΓ ht hlegible.2.1 hlegible'.2.1 _ _ hst₁ henv₁).bind
        fun w₂ s₂ t₂ a b hw₂ hst₂ hab ↦ ?_
      refine (ihe hΓ he hlegible.2.2.1 hlegible'.2.2.1 _ _ hst₂
        (h.environments_mono hw₂ henv₁)).bind
        fun w₃ s₃ t₃ c d hw₃ hst₃ hcd ↦ ?_
      exact (h.unify _ _ _ _ hst₃ (h.types_mono hw₃ hab) hcd).recorded h site site'
  | cond cs ih =>
    intro Γ e' hΓ hren hlegible hlegible' w s t env env' site site' hst henv
    cases hren with
    | cond hconditions hvalues =>
      have hpcs := Expr.forall_mem_pairs.1 (Expr.all_iff.1 hlegible).2
      have hpcs' := Expr.forall_mem_pairs.1 (Expr.all_iff.1 hlegible').2
      have hcs := compared_pairs ih hΓ hΓ hconditions hvalues hpcs hpcs'
      rw [visit, visit]
      exact (h.newUnknown _ _ hst).bind fun w₁ s₁ t₁ a b hw₁ hst₁ hab ↦
        (matches_visitCases h hcs _ _ 0 hst₁
        (h.environments_mono hw₁ henv) hab).recorded h site site'
  | number n =>
    intro Γ e' _ hren _ _ w s t env env' site site' hst _
    cases hren
    rw [visit, visit]
    split <;> exact matches_recorded h hst site site' (h.atom (by decide))
  | bool | string | null =>
    intro Γ e' _ hren _ _ w s t env env' site site' hst _
    cases hren
    rw [visit, visit]
    exact matches_recorded h hst site site' (h.atom (by decide))
  | hole =>
    intro Γ e' _ hren _ _ w s t env env' site site' hst _
    cases hren
    rw [visit, visit]
    exact (h.newUnknown _ _ hst).recorded h site site'
  | binding name declared =>
    intro Γ e' _ hren _ _ w s t env env' site site' hst henv
    cases hren with
    | binding hxy =>
      rw [visit, visit]
      exact matches_lookup h hst henv hxy _ _
  | var name =>
    intro Γ e' _ hren _ _ w s t env env' site site' hst henv
    cases hren with
    | var hxy =>
      rw [visit, visit]
      exact matches_lookup h hst henv hxy _ _

end rules

end SchemeTyping.Infer
