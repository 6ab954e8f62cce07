import SchemeTyping.Proofs.Expr.Formed
import SchemeTyping.Proofs.Inference.Live
import SchemeTyping.Proofs.Ty.Subtype

/-!
# Inference ends in a finished type or with a diagnostic

Visiting an expression that was read finds a live type (`settled`), whatever constructors,
quantifiers and variadic functions there are in the environment: no variable and no quantifier is
unified, no unknown is looked up that the store does not have, and every name is bound in a slot.
So the failures without a diagnostic do not occur, apart from those that are `Failure.Endless`.

`inferTree_ends` says so of whole trees.  What is left of the type of a tree are unknowns of the
store. With nothing fixed by the environment all of them get names, so the generalised type is
complete.
-/

set_option autoImplicit false

namespace SchemeTyping

/-- A declared type is built from definite nodes. -/
def Expr.DeclaresDefinite : Expr → Prop
  | .binding _ (some t) => t.Built Ty.Node.Definite
  | _ => True

instance : DecidablePred Expr.DeclaresDefinite
  | .binding _ (some t) => inferInstanceAs (Decidable (t.Built Ty.Node.Definite))
  | .binding _ none | .number _ | .bool _ | .string _ | .null | .list _ | .hole | .var _ | .call _ _
  | .define _ _ | .letIn _ _ | .letrec _ _ | .lambda _ _ | .sequence _ | .branch _ _ _ | .cond _ =>
    inferInstanceAs (Decidable True)

namespace Infer

open Ty

variable {D : Prop} {s s' : InferenceState} {env : Env} {site : Site} {t : Ty} {slot : Expr}
  {e₁ e₂ : Option Mention}

/-- An expression as the reader gives it, with definite declared types if `D`. -/
def Legible (D : Prop) (e : Expr) : Prop := e.Formed ∧ (D → e.DeclaresDefinite)

/-- Every type of the environment is `Known`. -/
def KnownEnv (D : Prop) (store : Store) (env : Env) : Prop := ∀ S ∈ env.values, Known D store S

theorem KnownEnv.moves (henv : KnownEnv D s.store env) (hm : Moves D s s') :
    KnownEnv D s'.store env :=
  fun S hS ↦ (henv S hS).mono hm.keeps

theorem KnownEnv.insertAll {store : Store} {bs : List (String × Ty)} (henv : KnownEnv D store env)
    (hbs : ∀ b ∈ bs, Known D store b.2) : KnownEnv D store (env.insertAll bs) := by
  intro S hS
  rcases OrdMap.mem_values_insertAll hS with h | h
  · obtain ⟨b, hb, rfl⟩ := List.mem_map.1 h
    exact hbs b hb
  · exact henv S h

/-! ## Slots -/

theorem proceeds_identifier (hs : Orderly D s) (hslot : slot.identifier?.isSome) :
    Proceeds D (identifier slot) s fun _ s' ↦ s' = s := by
  obtain ⟨name, hname⟩ := Option.isSome_iff_exists.1 hslot
  rw [identifier, hname]
  exact proceeds_pure hs rfl

theorem known_declared {store : Store} (hslot : slot.All (Legible D))
    (ht : slot.declared? = some t) : Known D store t := by
  obtain ⟨hformed, hdefinite⟩ := (Expr.all_iff.1 hslot).1
  cases slot with
  | binding name declared =>
    cases ht
    refine ⟨fun n hn hD ↦ hdefinite hD n hn, fun id hid ↦ ?_⟩
    rw [show t.unknowns = [] from hformed] at hid
    cases hid
  | _ => cases ht

theorem produces_binderType (hs : Orderly D s) (hslot : slot.All (Legible D)) (stem : String) :
    Produces D (binderType slot stem) s := by
  rw [binderType]
  split
  · exact produces_instantiate hs (known_declared hslot ‹_›)
  · exact produces_newUnknown hs stem

theorem produces_valueType (hs : Orderly D s) (hslot : slot.All (Legible D))
    (ht : Live D s.store t) : Produces D (valueType slot t e₁ e₂) s := by
  rw [valueType]
  split
  · exact (produces_instantiate hs (known_declared hslot ‹_›)).bind fun u s₁ hm hu ↦
      produces_unify hm.orderly hu (hm.live ht)
  · exact proceeds_pure hs ht

theorem proceeds_paramTypes {params : List Expr} (hs : Orderly D s)
    (hslots : ∀ p ∈ params, p.identifier?.isSome) (hparams : ∀ p ∈ params, p.All (Legible D)) :
    Proceeds D (paramTypes params) s
      fun r s' ↦ (∀ t ∈ r.1, Live D s'.store t) ∧ ∀ b ∈ r.2, Live D s'.store b.2 := by
  induction params generalizing s with
  | nil => exact proceeds_pure hs ⟨nofun, nofun⟩
  | cons p ps ih =>
    rw [List.forall_mem_cons] at hslots hparams
    rw [paramTypes]
    refine (proceeds_identifier hs hslots.1).bind fun name _ hm _ ↦ ?_
    refine (produces_binderType hm.orderly hparams.1 name).bind fun t s₁ hm₁ ht ↦ ?_
    refine (ih hm₁.orderly hslots.2 hparams.2).bind fun r s₂ hm₂ hr ↦
      proceeds_pure hm₂.orderly ⟨List.forall_mem_cons.2 ⟨hm₂.live ht, hr.1⟩, ?_⟩
    dsimp only
    split
    · exact hr.2
    · exact List.forall_mem_cons.2 ⟨hm₂.live ht, hr.2⟩

theorem proceeds_recursiveTypes {bindings : List (Expr × Expr)} {known : Env} (hs : Orderly D s)
    (hslots : ∀ b ∈ bindings, b.1.identifier?.isSome) (hnames : ∀ b ∈ bindings, b.1.All (Legible D))
    (hknown : ∀ t ∈ known.values, Live D s.store t) :
    Proceeds D (recursiveTypes bindings known) s fun r s' ↦ ∀ t ∈ r.values, Live D s'.store t := by
  induction bindings generalizing s known with
  | nil => exact proceeds_pure hs hknown
  | cons b bs ih =>
    rw [List.forall_mem_cons] at hslots hnames
    rw [recursiveTypes]
    refine proceeds_ite (fun _ ↦ ih hs hslots.2 hnames.2 hknown) fun _ ↦ ?_
    refine (proceeds_identifier hs hslots.1).bind fun name _ hm hs' ↦ ?_
    subst hs'
    refine (produces_binderType hs hnames.1 name).bind fun t s₁ hm₁ ht ↦
      ih hm₁.orderly hslots.2 hnames.2 fun u hu ↦ ?_
    rcases OrdMap.mem_values_insert hu with rfl | hu
    · exact ht
    · exact hm₁.live (hknown u hu)

theorem proceeds_generalizeAll {bs : List (String × Ty)} (hs : Orderly D s) (env : Env)
    (hbs : ∀ b ∈ bs, Live D s.store b.2) :
    Proceeds D (generalizeAll env bs) s fun r s' ↦ ∀ b ∈ r, Known D s'.store b.2 := by
  induction bs generalizing s with
  | nil => exact proceeds_pure hs nofun
  | cons b bs ih =>
    rw [List.forall_mem_cons] at hbs
    rw [generalizeAll]
    refine (proceeds_generalize hs env hbs.1).bind fun r s₁ hm₁ hr ↦ ?_
    refine (ih hm₁.orderly fun b hb ↦ hm₁.live (hbs.2 b hb)).bind fun rs s₂ hm₂ hrs ↦ ?_
    exact proceeds_pure hm₂.orderly (List.forall_mem_cons.2 ⟨hr.mono hm₂.keeps, hrs⟩)

/-! ## Calls -/

/-- The type that a plan continues with. -/
def CallPlan.type : CallPlan → Ty
  | .done t | .ignore t | .consume t => t

theorem proceeds_plan {c : CallSite} (hs : Orderly D s) (hc : Live D s.store c.type) :
    Proceeds D (plan c) s fun p s' ↦ Live D s'.store p.type := by
  rw [plan]
  split
  · rename_i id htype
    refine proceeds_ite (fun _ ↦ ?_) fun _ ↦ proceeds_pure hs hc
    rw [htype] at hc
    refine (produces_newUnknown hs c.stem).bind fun r s₁ hm₁ hr ↦ ?_
    refine (produces_unify hm₁.orderly (hm₁.live hc) (live_procedure.2 hr)).bind fun _ s₂ hm₂ _ ↦ ?_
    exact (produces_applied hm₂.orderly (hm₂.live hr)).bind fun _ _ hm₃ h ↦
      proceeds_pure hm₃.orderly h
  · rename_i min max ps htype
    rw [htype] at hc
    obtain ⟨hne, hps⟩ := live_variadic.1 hc
    refine proceeds_ite (fun _ ↦ proceeds_pure hs ?_) fun _ ↦ proceeds_fail rfl
    have hlive := live_chain (live_spread hps c.argCount) (live_result hps hne)
    split <;> exact hlive
  · rename_i tag ps htype
    have hcon := hc
    rw [htype] at hcon
    obtain ⟨hdefinite, hps⟩ := live_con.1 hcon
    split
    · rename_i r
      exact proceeds_ite (fun _ ↦ proceeds_pure hs (hps r (by simp))) fun _ ↦ proceeds_fail rfl
    · exact proceeds_pure hs (live_any fun hD ↦ (hdefinite hD).1 rfl)
    · exact proceeds_pure hs (live_atom (by decide))
    · exact proceeds_ite (fun _ ↦ proceeds_fail rfl) fun _ ↦
        proceeds_ite (fun _ ↦ proceeds_fail rfl) fun _ ↦ proceeds_pure hs hc
  · exact proceeds_ite (fun _ ↦ proceeds_fail rfl) fun _ ↦ proceeds_pure hs hc

/-! ## Lists of expressions -/

/-- Visiting `e` finds a live type. -/
def Settled (D : Prop) (e : Expr) : Prop :=
  ∀ {s : InferenceState} {env : Env} (site : Site), Orderly D s → KnownEnv D s.store env →
    e.All (Legible D) → Produces D (visit env site e) s

theorem proceeds_visitAll {es : List Expr} (ih : ∀ e ∈ es, Settled D e) (index : Nat)
    (hs : Orderly D s) (henv : KnownEnv D s.store env) (hes : ∀ e ∈ es, e.All (Legible D)) :
    Proceeds D (visitAll env site index es) s fun _ _ ↦ True := by
  induction es generalizing s index with
  | nil => exact proceeds_pure hs trivial
  | cons e es ih' =>
    rw [List.forall_mem_cons] at ih hes
    rw [visitAll]
    exact (ih.1 _ hs henv hes.1).bind fun _ _ hm _ ↦ ih' ih.2 _ hm.orderly (henv.moves hm) hes.2

theorem proceeds_visitNames {bindings : List (Expr × Expr)} (ih : ∀ b ∈ bindings, Settled D b.1)
    (index : Nat) (hs : Orderly D s) (henv : KnownEnv D s.store env)
    (hbindings : ∀ b ∈ bindings, b.1.All (Legible D)) :
    Proceeds D (visitNames env site index bindings) s fun _ _ ↦ True := by
  induction bindings generalizing s index with
  | nil => exact proceeds_pure hs trivial
  | cons b bs ih' =>
    rw [List.forall_mem_cons] at ih hbindings
    rw [visitNames]
    exact (ih.1 _ hs henv hbindings.1).bind fun _ _ hm _ ↦
      ih' ih.2 _ hm.orderly (henv.moves hm) hbindings.2

theorem produces_visitElements {es : List Expr} (ih : ∀ e ∈ es, Settled D e) (index : Nat)
    (first : Option Mention) (hs : Orderly D s) (henv : KnownEnv D s.store env)
    (hes : ∀ e ∈ es, e.All (Legible D)) (ht : Live D s.store t) :
    Produces D (visitElements env site index first t es) s := by
  induction es generalizing s index first t with
  | nil => exact proceeds_pure hs ht
  | cons e es ih' =>
    rw [List.forall_mem_cons] at ih hes
    rw [visitElements]
    refine (ih.1 _ hs henv hes.1).bind fun u s₁ hm₁ hu ↦ ?_
    refine (produces_unify hm₁.orderly (hm₁.live ht) hu).bind fun v s₂ hm₂ hv ↦ ?_
    exact ih' ih.2 _ _ hm₂.orderly ((henv.moves hm₁).moves hm₂) hes.2 hv

theorem produces_visitSequence {es : List Expr} (ih : ∀ e ∈ es, Settled D e) (index : Nat)
    (hs : Orderly D s) (henv : KnownEnv D s.store env) (hes : ∀ e ∈ es, e.All (Legible D))
    (ht : Live D s.store t) : Produces D (visitSequence env site index t es) s := by
  induction es generalizing s index t with
  | nil => exact proceeds_pure hs ht
  | cons e es ih' =>
    rw [List.forall_mem_cons] at ih hes
    rw [visitSequence]
    exact (ih.1 _ hs henv hes.1).bind fun u _ hm hu ↦ ih' ih.2 _ hm.orderly (henv.moves hm) hes.2 hu

theorem produces_visitCases {cases : List (Expr × Expr)}
    (ih : ∀ c ∈ cases, Settled D c.1 ∧ Settled D c.2) (whole : Mention) (index : Nat)
    (hs : Orderly D s) (henv : KnownEnv D s.store env)
    (hcases : ∀ c ∈ cases, c.1.All (Legible D) ∧ c.2.All (Legible D)) (ht : Live D s.store t) :
    Produces D (visitCases env site whole index t cases) s := by
  induction cases generalizing s index t with
  | nil => exact proceeds_pure hs ht
  | cons c cs ih' =>
    rw [List.forall_mem_cons] at ih hcases
    rw [visitCases]
    refine (ih.1.1 _ hs henv hcases.1.1).bind fun _ s₁ hm₁ _ ↦ ?_
    refine (ih.1.2 _ hm₁.orderly (henv.moves hm₁) hcases.1.2).bind fun u s₂ hm₂ hu ↦ ?_
    refine (produces_unify hm₂.orderly (hm₂.live (hm₁.live ht)) hu).bind fun v s₃ hm₃ hv ↦ ?_
    exact ih' ih.2 _ hm₃.orderly (((henv.moves hm₁).moves hm₂).moves hm₃) hcases.2 hv

theorem produces_visitArgs {args : List Expr} (ih : ∀ e ∈ args, Settled D e) (c : CallSite)
    (index : Nat) (hs : Orderly D s) (henv : KnownEnv D s.store env)
    (hargs : ∀ e ∈ args, e.All (Legible D)) (ht : Live D s.store t) :
    Produces D (visitArgs env c index t args) s := by
  induction args generalizing s index t with
  | nil => exact proceeds_pure hs ht
  | cons arg args ih' =>
    rw [List.forall_mem_cons] at ih hargs
    rw [visitArgs]
    refine (produces_applied hs ht).bind fun current s₀ hm₀ hcurrent ↦ ?_
    have henv₀ := henv.moves hm₀
    refine proceeds_ite (fun _ ↦ ?_) fun _ ↦ proceeds_ite (fun _ ↦ proceeds_fail rfl) fun _ ↦ ?_
    · refine (ih.1 _ hm₀.orderly henv₀ hargs.1).bind fun _ s₁ hm₁ _ ↦ ?_
      refine (proceeds_visitAll ih.2 _ hm₁.orderly (henv₀.moves hm₁) hargs.2).bind
        fun _ s₂ hm₂ _ ↦ ?_
      exact proceeds_pure hm₂.orderly (hm₂.live (hm₁.live hcurrent))
    · refine (ih.1 _ hm₀.orderly henv₀ hargs.1).bind fun a s₁ hm₁ ha ↦ ?_
      refine (produces_newUnknown hm₁.orderly c.stem).bind fun next s₂ hm₂ hnext ↦ ?_
      refine (produces_unify hm₂.orderly (hm₂.live (hm₁.live (hm₀.live ht)))
        (live_function.2 ⟨hm₂.live ha, hnext⟩)).bind fun _ s₃ hm₃ _ ↦ ?_
      refine (produces_applied hm₃.orderly (hm₃.live hnext)).bind fun _ s₄ hm₄ h ↦ ?_
      exact ih' ih.2 _ hm₄.orderly ((((henv₀.moves hm₁).moves hm₂).moves hm₃).moves hm₄) hargs.2 h

theorem proceeds_visitLetValues {bindings : List (Expr × Expr)} (ih : ∀ b ∈ bindings, Settled D b.2)
    (index : Nat) (hs : Orderly D s) (henv : KnownEnv D s.store env)
    (hslots : ∀ b ∈ bindings, b.1.identifier?.isSome)
    (hbindings : ∀ b ∈ bindings, b.1.All (Legible D) ∧ b.2.All (Legible D)) :
    Proceeds D (visitLetValues env site index bindings) s
      fun names s' ↦ ∀ b ∈ names, Known D s'.store b.2 := by
  induction bindings generalizing s index with
  | nil => exact proceeds_pure hs nofun
  | cons b bs ih' =>
    rw [List.forall_mem_cons] at ih hslots hbindings
    rw [visitLetValues]
    refine (ih.1 _ hs henv hbindings.1.2).bind fun found s₁ hm₁ hfound ↦ ?_
    refine (produces_valueType hm₁.orderly hbindings.1.1 hfound).bind fun type s₂ hm₂ htype ↦ ?_
    have henv₂ := (henv.moves hm₁).moves hm₂
    refine proceeds_ite (fun _ ↦ ih' ih.2 _ hm₂.orderly henv₂ hslots.2 hbindings.2) fun _ ↦ ?_
    refine (proceeds_generalize hm₂.orderly env htype).bind fun G s₃ hm₃ hG ↦ ?_
    refine (proceeds_identifier hm₃.orderly hslots.1).bind fun name s₄ hm₄ hs₄ ↦ ?_
    subst hs₄
    refine (ih' ih.2 _ hm₃.orderly (henv₂.moves hm₃) hslots.2 hbindings.2).bind
      fun names s₅ hm₅ hnames ↦ proceeds_pure hm₅.orderly ?_
    exact List.forall_mem_cons.2 ⟨hG.mono hm₅.keeps, hnames⟩

theorem proceeds_visitRecursiveValues {bindings : List (Expr × Expr)} {recursive : Env}
    (ih : ∀ b ∈ bindings, Settled D b.2) (index : Nat) (hs : Orderly D s)
    (henv : KnownEnv D s.store env) (hslots : ∀ b ∈ bindings, b.1.identifier?.isSome)
    (hbindings : ∀ b ∈ bindings, b.2.All (Legible D))
    (hrecursive : ∀ t ∈ recursive.values, Live D s.store t) :
    Proceeds D (visitRecursiveValues env site recursive index bindings) s fun _ _ ↦ True := by
  induction bindings generalizing s index with
  | nil => exact proceeds_pure hs trivial
  | cons b bs ih' =>
    rw [List.forall_mem_cons] at ih hslots hbindings
    rw [visitRecursiveValues]
    refine (ih.1 _ hs henv hbindings.1).bind fun found s₁ hm₁ hfound ↦ ?_
    have henv₁ := henv.moves hm₁
    have hrecursive₁ : ∀ t ∈ recursive.values, Live D s₁.store t := fun t ht ↦
      hm₁.live (hrecursive t ht)
    refine proceeds_ite (fun _ ↦ ?_) fun _ ↦
      ih' ih.2 _ hm₁.orderly henv₁ hslots.2 hbindings.2 hrecursive₁
    refine (proceeds_identifier hm₁.orderly hslots.1).bind fun name _ _ hs₂ ↦ ?_
    rw [hs₂]
    have hname : Live D s₁.store ((recursive.get? name).getD found) := by
      cases h : recursive.get? name with
      | none => exact hfound
      | some t => exact hrecursive₁ t (OrdMap.mem_values_of_get? h)
    refine (produces_unify hm₁.orderly hname hfound).bind fun _ s₃ hm₃ _ ↦ ?_
    exact ih' ih.2 _ hm₃.orderly (henv₁.moves hm₃) hslots.2 hbindings.2 fun t ht ↦
      hm₃.live (hrecursive₁ t ht)

/-! ## All expressions -/

/-- A type that has been found is recorded. -/
theorem Produces.recorded {x : Infer Ty} (h : Produces D x s) (site : Site) :
    Produces D (do let t ← x; record site t; return t) s :=
  h.bind fun _ _ hm ht ↦ produces_recorded hm.orderly site ht

theorem settled_list {es : List Expr} (ih : ∀ e ∈ es, Settled D e) : Settled D (.list es) := by
  intro s env site hs henv he
  rw [visit]
  refine (produces_newUnknown hs _).bind fun t s₁ hm₁ ht ↦ ?_
  refine (produces_visitElements ih 0 none hm₁.orderly (henv.moves hm₁)
    (Expr.all_iff.1 he).2 ht).bind
    fun u s₂ hm₂ hu ↦ ?_
  exact produces_recorded hm₂.orderly site (live_list hu)

theorem settled_call {called : Expr} {args : List Expr} (ihc : Settled D called)
    (ih : ∀ e ∈ args, Settled D e) : Settled D (.call called args) := by
  intro s env site hs henv he
  obtain ⟨hcalled, hargs⟩ := List.forall_mem_cons.1 (Expr.all_iff.1 he).2
  rw [visit]
  refine (ihc _ hs henv hcalled).bind fun f s₁ hm₁ hf ↦ ?_
  refine (produces_applied hm₁.orderly hf).bind fun f' s₂ hm₂ hf' ↦ ?_
  refine (proceeds_plan (c := ⟨_, _, _, _, _, _⟩) hm₂.orderly hf').bind fun p s₃ hm₃ hp ↦ ?_
  have henv₃ := ((henv.moves hm₁).moves hm₂).moves hm₃
  cases p with
  | done t => exact produces_recorded hm₃.orderly site hp
  | ignore t =>
    exact (proceeds_visitAll ih 1 hm₃.orderly henv₃ hargs).bind fun _ _ hm₄ _ ↦
      produces_recorded hm₄.orderly site (hm₄.live hp)
  | consume t => exact (produces_visitArgs ih _ 0 hm₃.orderly henv₃ hargs hp).recorded site

theorem settled_define {name value : Expr} (ihn : Settled D name) (ih : Settled D value) :
    Settled D (.define name value) := by
  intro s env site hs henv he
  obtain ⟨⟨hslot, -⟩, hchildren⟩ := Expr.all_iff.1 he
  have hname := hchildren name (by simp [Expr.children])
  have hvalue := hchildren value (by simp [Expr.children])
  rw [visit]
  refine (proceeds_identifier hs hslot).bind fun x s₀ hm₀ _ ↦ ?_
  refine (produces_binderType hm₀.orderly hname x).bind fun d s₁ hm₁ hd ↦ ?_
  have henv₁ : KnownEnv D s₁.store (if name.isHole then env else env.insert x d) := by
    split
    · exact (henv.moves hm₀).moves hm₁
    · have hx : ∀ b ∈ [(x, d)], Known D s₁.store b.2 := by simpa using hd.known
      exact ((henv.moves hm₀).moves hm₁).insertAll hx
  refine (ih _ hm₁.orderly henv₁ hvalue).bind fun found s₂ hm₂ hfound ↦ ?_
  refine (produces_unify hm₂.orderly (hm₂.live hd) hfound).bind fun t s₃ hm₃ ht ↦ ?_
  refine (ihn _ hm₃.orderly ((henv₁.moves hm₂).moves hm₃) hname).bind fun _ s₄ hm₄ _ ↦ ?_
  exact produces_recorded hm₄.orderly site (hm₄.live ht)

theorem settled_letIn {bindings : List (Expr × Expr)} {body : Expr}
    (ih : ∀ b ∈ bindings, Settled D b.1 ∧ Settled D b.2) (ihb : Settled D body) :
    Settled D (.letIn bindings body) := by
  intro s env site hs henv he
  obtain ⟨⟨hslots, -⟩, hchildren⟩ := Expr.all_iff.1 he
  obtain ⟨hbindings, hbody⟩ := Expr.All.bindings hchildren
  rw [visit]
  refine (proceeds_visitLetValues (fun b hb ↦ (ih b hb).2) 0 hs henv hslots hbindings).bind
    fun names s₁ hm₁ hnames ↦ ?_
  have henv₁ := (henv.moves hm₁).insertAll hnames
  refine (proceeds_visitNames (fun b hb ↦ (ih b hb).1) 0 hm₁.orderly henv₁
    fun b hb ↦ (hbindings b hb).1).bind fun _ s₂ hm₂ _ ↦ ?_
  exact (ihb _ hm₂.orderly (henv₁.moves hm₂) hbody).recorded site

theorem settled_letrec {bindings : List (Expr × Expr)} {body : Expr}
    (ih : ∀ b ∈ bindings, Settled D b.1 ∧ Settled D b.2) (ihb : Settled D body) :
    Settled D (.letrec bindings body) := by
  intro s env site hs henv he
  obtain ⟨⟨hslots, -⟩, hchildren⟩ := Expr.all_iff.1 he
  obtain ⟨hbindings, hbody⟩ := Expr.All.bindings hchildren
  rw [visit]
  refine (proceeds_recursiveTypes hs hslots (fun b hb ↦ (hbindings b hb).1)
    fun _ h ↦ absurd h List.not_mem_nil).bind
    fun recursive s₁ hm₁ hrecursive ↦ ?_
  have hentries : ∀ b ∈ recursive.entries, Live D s₁.store b.2 := fun b hb ↦
    hrecursive b.2 (List.mem_map_of_mem hb)
  refine (proceeds_visitRecursiveValues (fun b hb ↦ (ih b hb).2) 0 hm₁.orderly
    ((henv.moves hm₁).insertAll fun b hb ↦ (hentries b hb).known) hslots
    (fun b hb ↦ (hbindings b hb).2) hrecursive).bind fun _ s₂ hm₂ _ ↦ ?_
  refine (proceeds_generalizeAll hm₂.orderly env fun b hb ↦ hm₂.live (hentries b hb)).bind
    fun names s₃ hm₃ hnames ↦ ?_
  have henv₃ := (((henv.moves hm₁).moves hm₂).moves hm₃).insertAll hnames
  refine (proceeds_visitNames (fun b hb ↦ (ih b hb).1) 0 hm₃.orderly henv₃
    fun b hb ↦ (hbindings b hb).1).bind fun _ s₄ hm₄ _ ↦ ?_
  exact (ihb _ hm₄.orderly (henv₃.moves hm₄) hbody).recorded site

theorem settled_lambda {params : List Expr} {body : Expr} (ih : ∀ p ∈ params, Settled D p)
    (ihb : Settled D body) : Settled D (.lambda params body) := by
  intro s env site hs henv he
  obtain ⟨⟨hslots, -⟩, hchildren⟩ := Expr.all_iff.1 he
  obtain ⟨hparams, hbody⟩ := List.forall_mem_append.1 hchildren
  rw [visit]
  refine (proceeds_paramTypes hs hslots hparams).bind fun r s₁ hm₁ hr ↦ ?_
  have henv₁ := (henv.moves hm₁).insertAll fun b hb ↦ (hr.2 b hb).known
  refine (proceeds_visitAll ih 0 hm₁.orderly henv₁ hparams).bind fun _ s₂ hm₂ _ ↦ ?_
  refine (ihb _ hm₂.orderly (henv₁.moves hm₂) (hbody body (by simp))).bind fun t s₃ hm₃ ht ↦ ?_
  refine produces_recorded hm₃.orderly site ?_
  split
  · exact live_procedure.2 ht
  · exact live_chain (fun a ha ↦ hm₃.live (hm₂.live (hr.1 a ha))) ht

theorem settled_branch {c t e : Expr} (ihc : Settled D c) (iht : Settled D t) (ihe : Settled D e) :
    Settled D (.branch c t e) := by
  intro s env site hs henv he
  have hchildren := (Expr.all_iff.1 he).2
  rw [visit]
  refine (ihc _ hs henv (hchildren c (by simp [Expr.children]))).bind fun _ s₁ hm₁ _ ↦ ?_
  have henv₁ := henv.moves hm₁
  refine (iht _ hm₁.orderly henv₁ (hchildren t (by simp [Expr.children]))).bind fun u s₂ hm₂ hu ↦ ?_
  refine (ihe _ hm₂.orderly (henv₁.moves hm₂) (hchildren e (by simp [Expr.children]))).bind
    fun v s₃ hm₃ hv ↦ ?_
  exact (produces_unify hm₃.orderly (hm₃.live hu) hv).recorded site

/-- Visiting an expression finds a live type. -/
theorem settled (D : Prop) (e : Expr) : Settled D e := by
  induction e with
  | list es ih => exact settled_list ih
  | call called args ihc ih => exact settled_call ihc ih
  | define name value ihn ih => exact settled_define ihn ih
  | letIn bindings body ih ihb => exact settled_letIn ih ihb
  | letrec bindings body ih ihb => exact settled_letrec ih ihb
  | lambda params body ih ihb => exact settled_lambda ih ihb
  | branch c t e ihc iht ihe => exact settled_branch ihc iht ihe
  | sequence es ih =>
    intro s env site hs henv he
    rw [visit]
    exact (produces_newUnknown hs _).bind fun t _ hm ht ↦ (produces_visitSequence ih 0 hm.orderly
      (henv.moves hm) (Expr.all_iff.1 he).2 ht).recorded site
  | cond cases ih =>
    intro s env site hs henv he
    rw [visit]
    exact (produces_newUnknown hs _).bind fun t _ hm ht ↦ (produces_visitCases ih _ 0 hm.orderly
      (henv.moves hm) (Expr.forall_mem_pairs.1 (Expr.all_iff.1 he).2) ht).recorded site
  | number n =>
    intro s env site hs _ _
    rw [visit]
    split <;> exact produces_recorded hs site (live_atom (by decide))
  | bool | string | null =>
    intro s env site hs _ _
    rw [visit]
    exact produces_recorded hs site (live_atom (by decide))
  | hole =>
    intro s env site hs _ _
    rw [visit]
    exact (produces_newUnknown hs _).recorded site
  | binding name | var name =>
    intro s env site hs henv _
    rw [visit]
    split
    · exact (produces_instantiate hs (henv _ (OrdMap.mem_values_of_get? ‹_›))).recorded site
    · exact Produces.recorded (proceeds_fail rfl) site

/-! ## Whole trees -/

theorem orderly_reset (D : Prop) (s : InferenceState) (log : Array Event) :
    Orderly D { s.reset with log } :=
  ⟨wf_initial, acyclic_initial, fun k _ h ↦ absurd ((value?_initial k).symm.trans h) nofun,
    fun key _ h ↦ absurd ((OrdMap.get?_empty key).symm.trans h) nofun⟩

/-- If the naming has all unknowns of `t` and the environment has none, `generalizeNamed` names them
all. -/
theorem ensures_generalizeNamed_closed {naming : Store} (hwf : naming.WF)
    (hacyclic : naming.Acyclic) (ht : naming.Registered (naming.apply t))
    (henv : ∀ S ∈ env.values, S.unknowns = []) :
    Ensures (generalizeNamed naming env t) s
      (fun r s' ↦ s' = { s with log := s'.log } ∧ ∃ names, Named naming ⟨r.2, names⟩ ∧
        NamedTo [] ⟨r.2, names⟩ (naming.apply t) r.1)
      (fun _ _ ↦ False) := by
  refine (ensures_generalizeNamed hwf hacyclic env t).mono (fun r s' h ↦ ?_) ?_
  · rwa [openIn_of_unknowns henv] at h
  rintro f s' ⟨r, hr, hnone⟩
  obtain ⟨v, hv⟩ := hwf.value?_isSome (ht r hr)
  exact absurd (hnone.symm.trans hv) nofun

theorem NamedTo.quantifierFree {store : Store} {st : NamingState} {G : Ty} (h : NamedTo [] st t G)
    (ht : Live D store t) : G.QuantifierFree := by
  rw [h.eq]
  refine Built.fill (Built.mono ht.built fun _ hn ↦ .inr hn.2.1) fun r hr ↦ ?_
  obtain ⟨name, -, hr⟩ := (h.nameIn_eq hr).resolve_left fun h ↦ List.not_mem_nil h.1
  rw [hr]
  exact built_var.2 nofun

theorem framed_ensureSolved {K : Set CacheKey} (t : Ty) : Framed K (ensureSolved t) :=
  framed_ite (framed_pure _) (framed_throw rfl)

/-- The slot for diagnostics after `inferTree`. -/
theorem ensures_inferTree_slot (env : Env) (tree : Tree) (s : InferenceState) :
    Ensures (inferTree env tree) s (fun _ s' ↦ s'.error = none)
      (fun f s' ↦ s'.error = f.diagnostic?) := by
  rw [inferTree, ensures_bind, ensures_modify]
  refine Ensures.mono (Framed.slot (K := spots tree.site tree.root) ?_ s.reset) (fun _ _ ↦ id)
    fun f s' h ↦ h.trans Option.or_none
  exact (framed_tell _).bind fun _ ↦ (contained tree.root env tree.site).bind fun type ↦
    (framed_generalize env type).bind fun r ↦ (framed_ensureSolved r.1).bind fun _ ↦
      (framed_tell _).bind fun _ ↦ framed_pure r.1

theorem ensures_inferTree_excused {tree : Tree} (henv : ∀ S ∈ env.values, S.unknowns = [])
    (hknown : KnownEnv D s.reset.store env) (hroot : tree.root.All (Legible D)) :
    Ensures (inferTree env tree) s (fun T _ ↦ T.unknowns = [] ∧ T.QuantifierFree)
      (fun f _ ↦ f.Excused D) := by
  rw [inferTree, ensures_bind, ensures_modify, ensures_bind, ensures_tell, ensures_bind]
  refine Ensures.mono (settled D tree.root tree.site (orderly_reset D s _) hknown hroot)
    (fun t s₁ h ↦ ?_) fun _ _ ↦ id
  obtain ⟨⟨horderly, -⟩, ht⟩ := h
  have hlive := horderly.live_apply ht
  rw [ensures_bind, generalize, ensures_bind, ensures_get]
  refine (ensures_generalizeNamed_closed horderly.wf horderly.acyclic hlive.registered henv).mono ?_
    fun _ _ ↦ False.elim
  rintro ⟨G, naming⟩ s₂ ⟨-, names, -, hG⟩
  have hsolved : G.isSolved = true := List.isEmpty_iff.2 hG.unknowns_eq
  rw [ensures_bind, ensureSolved, if_pos hsolved]
  exact ⟨hG.unknowns_eq, hG.quantifierFree hlive⟩

/-- **Inference ends in a finished type or with a diagnostic**, for every tree that was read and
every environment without unknowns.  A type that is returned has no unknowns and no quantifiers, and
the slot for diagnostics is empty.  A failure has left its diagnostic in the slot, unless it is
`Failure.Endless`, for which some type of the environment or of a declaration must have a node that
is not `Node.Definite`. -/
theorem inferTree_ends {source : String} {es : List Expr} (tree : Tree)
    (hread : Expr.readAll source = .ok es) (htree : tree.root ∈ es)
    (henv : ∀ S ∈ env.values, S.unknowns = []) (s : InferenceState) :
    Ensures (inferTree env tree) s
      (fun T s' ↦ T.unknowns = [] ∧ T.QuantifierFree ∧ s'.error = none)
      (fun f s' ↦ s'.error = f.diagnostic? ∧ (f.diagnostic?.isSome ∨ f.Endless ∧
        ¬ ((∀ S ∈ env.values, S.Built Node.Definite) ∧ tree.root.All Expr.DeclaresDefinite))) := by
  let D : Prop := (∀ S ∈ env.values, S.Built Node.Definite) ∧ tree.root.All Expr.DeclaresDefinite
  have hroot : tree.root.All (Legible D) := fun q hq ↦
    ⟨Expr.formed_of_readAll hread htree q hq, fun hD ↦ hD.2 q hq⟩
  have hknown : KnownEnv D s.reset.store env := fun S hS ↦
    ⟨fun n hn hD ↦ hD.1 S hS n hn, fun id hid ↦ absurd (henv S hS ▸ hid) List.not_mem_nil⟩
  exact ((ensures_inferTree_slot env tree s).and (ensures_inferTree_excused henv hknown hroot)).mono
    (fun T s' h ↦ ⟨h.2.1, h.2.2, h.1⟩) fun _ _ ↦ id

/-- A quantified name and a variadic one in one program; the second call of the variadic function
has too many arguments. -/
theorem inferTree_ends_variadic :
    let env : Env := .ofList [("id", .all ["a"] (function [.var "a", .var "a"])),
      ("max", .variadic (some 1) (some 2) [number, number])]
    let source := "(let ((f (lambda ((x : #a)) (id x)))) (f (max 1 2)))  (max 1 2 3)"
    ∃ e₁ e₂, Expr.readAll source = .ok [e₁, e₂] ∧ (∀ S ∈ env.values, S.unknowns = []) ∧
      ∀ e ∈ [e₁, e₂], Ensures (inferTree env ⟨0, e, 0⟩) .initial
        (fun T s' ↦ T.unknowns = [] ∧ T.QuantifierFree ∧ s'.error = none)
        (fun f s' ↦ s'.error = f.diagnostic? ∧ (f.diagnostic?.isSome ∨ f.Endless ∧
          ¬ ((∀ S ∈ env.values, S.Built Node.Definite) ∧ e.All Expr.DeclaresDefinite))) := by
  intro env source
  have henv : ∀ S ∈ env.values, S.unknowns = [] := by decide
  have hread : Expr.readAll source = .ok
      [.letIn [(.binding "f" none,
        .lambda [.binding "x" (some (.var "a"))] (.call (.var "id") [.var "x"]))]
        (.call (.var "f") [.call (.var "max") [.number (.exact 1), .number (.exact 2)]]),
      .call (.var "max") [.number (.exact 1), .number (.exact 2), .number (.exact 3)]] := by
    decide +kernel
  exact ⟨_, _, hread, henv, fun e he ↦ inferTree_ends ⟨0, e, 0⟩ hread he henv .initial⟩

end Infer

end SchemeTyping
