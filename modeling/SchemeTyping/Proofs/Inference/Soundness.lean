import SchemeTyping.Inference.Rules
import SchemeTyping.Proofs.Expr
import SchemeTyping.Proofs.Inference.Generalize

/-!
# Inference is sound

The type that inference finds for an expression can be derived by the typing rules, under every
solution of the store that it leaves (`Sound`).  Later steps only remove solutions, so a derivation
for a part of an expression is still one when the whole is done.

A value that is generalised is the exception: its derivation is taken under another solution, in
which the unknowns to be generalised are parameters.  Both solutions agree on the environment, so
the derivation is in the same environment as that of the body.

Each function that visits a list of expressions has one lemma, from the soundness of the members.
`sound` puts them together by induction on the expression.
-/

set_option autoImplicit false

namespace SchemeTyping.Infer

open Ty Typing

variable {s s' : InferenceState} {env : Env} {t : Ty} {θ : String → Ty}

/-! ## Derivations under all solutions -/

/-- A declared type: no unknowns, no variadic functions, no special tags, and no function without
parameters. -/
def Declared (t : Ty) : Prop := t.Built fun n ↦ n = .var ∨ n = .all ∨ n.Ordinary (0 < ·)

instance : DecidablePred Declared := fun t ↦
  inferInstanceAs (Decidable (t.Built fun n ↦ n = .var ∨ n = .all ∨ n.Ordinary (0 < ·)))

/-- Numbers are integers, and declared types are `Declared`. -/
def Admissible : Expr → Prop
  | .number n => n.isInteger = true
  | .binding _ (some d) => Declared d
  | _ => True

instance : DecidablePred Admissible
  | .number _ => inferInstanceAs (Decidable (_ = _))
  | .binding _ (some d) => inferInstanceAs (Decidable (Declared d))
  | .binding _ none | .bool _ | .string _ | .null | .list _ | .hole | .var _ | .call _ _ |
    .define _ _
  | .letIn _ _ | .letrec _ _ | .lambda _ _ | .sequence _ | .branch _ _ _ | .cond _ =>
    inferInstanceAs (Decidable True)

/-- A solution by monotypes. -/
structure Solution (store : Store) (θ : String → Ty) : Prop where
  solves : store.Solves θ
  mono : ∀ id, (θ id).Mono

theorem Grows.solution (h : Grows s s') (hθ : Solution s'.store θ) : Solution s.store θ :=
  ⟨h.solves θ hθ.solves, hθ.mono⟩

/-- The environment of the typing rules under a solution. -/
def solved (θ : String → Ty) (env : Env) : Env := env.mapValues fun S ↦ S.scheme.fill θ

/-- Every type of the environment is `Regular`. -/
def RegularEnv (env : Env) : Prop := ∀ S ∈ env.values, S.Regular

/-- The type `t` was found for `e` between the states `s` and `s'`, and can be derived under every
solution of the latter. -/
structure Typed (env : Env) (e : Expr) (s : InferenceState) (t : Ty)
    (s' : InferenceState) : Prop where
  grows : Grows s s'
  simple : t.Simple
  hasType : ∀ θ, Solution s'.store θ → HasType (solved θ env) e (t.fill θ)

/-- Visiting `e` finds a type that can be derived. -/
def Sound (e : Expr) : Prop :=
  ∀ {s : InferenceState} {env : Env} (site : Site), Valid s → RegularEnv env → e.All Admissible →
    Ensures (visit env site e) s (Typed env e s) (fun _ _ ↦ True)

theorem Declared.regular (h : Declared t) : t.Regular :=
  Built.mono h fun _ ↦ Or.imp_right (Or.imp_right .inr)

/-- A solution does not change a declared type. -/
theorem Declared.fill_scheme (h : Declared t) : t.scheme.fill θ = t.scheme := by
  have hno : ∀ id ∈ t.scheme.unknowns, θ id = .unknown id := by
    intro id hid
    rw [unknowns_scheme] at hid
    simpa [Node.Ordinary] using Built.unknown h hid
  exact (fill_congr hno).trans (fill_self _)

theorem RegularEnv.insertAll (henv : RegularEnv env) {bs : List (String × Ty)}
    (hbs : ∀ b ∈ bs, b.2.Regular) : RegularEnv (env.insertAll bs) := by
  intro S hS
  rcases OrdMap.mem_values_insertAll hS with h | h
  · obtain ⟨b, hb, rfl⟩ := List.mem_map.1 h
    exact hbs b hb
  · exact henv S h

theorem Simple.regular (h : t.Simple) : t.Regular := h.polymorphic.regular

theorem solved_insertAll {bs : List (String × Ty)} (hbs : ∀ b ∈ bs, b.2.Polymorphic) :
    solved θ (env.insertAll bs) = (solved θ env).insertAll (bs.map fun b ↦ (b.1, b.2.fill θ)) := by
  rw [solved, OrdMap.mapValues_insertAll,
    List.map_congr_left fun b hb ↦ by rw [(hbs b hb).scheme_eq]]
  rfl

/-- An instance by simple types is an instance under every solution. -/
theorem instance_fill {S : Ty} {f : String → Ty} (hf : ∀ name, (f name).Simple)
    (hθ : ∀ id, (θ id).Mono) : Instance (S.fill θ) ((S.assign f).fill θ) :=
  ⟨fun name ↦ (f name).fill θ, fun name ↦ (hf name).fill_mono hθ,
    fill_assign (fun id ↦ (hθ id).no_var) S⟩

/-! ## Slots -/

theorem ensures_identifier (e : Expr) : Ensures (identifier e) s
    (fun name s' ↦ s' = s ∧ e.identifier? = some name) (fun _ _ ↦ True) := by
  rw [identifier]
  split
  · rename_i h
    exact ⟨rfl, h⟩
  · trivial

theorem ensures_binderType {slot : Expr} {name stem : String} (hs : Valid s)
    (hslot : slot.identifier? = some name) (hadm : slot.All Admissible) :
    Ensures (binderType slot stem) s
      (fun t s' ↦ Grows s s' ∧ t.Simple ∧ ∀ θ, (∀ id, (θ id).Mono) → SlotType slot (t.fill θ))
      (fun _ _ ↦ True) := by
  have hadm := (Expr.all_iff.1 hadm).1
  rw [binderType]
  cases slot with
  | hole =>
    exact (ensures_newUnknown hs stem).mono
      (fun t s' h ↦ ⟨h.1, h.2, fun θ hθ ↦ .hole (h.2.fill_mono hθ)⟩) fun _ _ ↦ id
  | binding x declared =>
    cases declared with
    | none =>
      exact (ensures_newUnknown hs stem).mono
        (fun t s' h ↦ ⟨h.1, h.2, fun θ hθ ↦ .undeclared (h.2.fill_mono hθ)⟩) fun _ _ ↦ id
    | some d =>
      refine (ensures_instantiate hs (Declared.regular hadm)).mono ?_ fun _ _ ↦ id
      rintro t s' ⟨hg, ht, f, hf, rfl⟩
      refine ⟨hg, ht, fun θ hθ ↦ .declared (ht.fill_mono hθ) ?_⟩
      have h := instance_fill (S := d.scheme) hf hθ
      rwa [Declared.fill_scheme hadm] at h
  | _ => cases hslot

theorem bound_cons (p : Expr) (ps : List Expr) (t : Ty) (ts : List Ty) :
    bound (p :: ps) (t :: ts) = ((boundName? p).map (·, t)).toList ++ bound ps ts := by
  rw [bound, List.zip_cons_cons, List.filterMap_cons]
  cases boundName? p <;> rfl

theorem boundName?_of_identifier {p : Expr} {name : String} (h : p.identifier? = some name) :
    boundName? p = if p.isHole then none else some name := by
  cases p <;> simp_all [Expr.identifier?, boundName?, Expr.isHole]

theorem bound_fill (ps : List Expr) (ts : List Ty) :
    bound ps (ts.map (fill θ)) = (bound ps ts).map fun b ↦ (b.1, b.2.fill θ) := by
  induction ps generalizing ts with
  | nil => rfl
  | cons p ps ih =>
    cases ts with
    | nil => rfl
    | cons t ts =>
      rw [List.map_cons, bound_cons, bound_cons, ih, List.map_append]
      cases boundName? p <;> rfl

theorem mem_bound {ps : List Expr} {ts : List Ty} {b : String × Ty} (h : b ∈ bound ps ts) :
    b.2 ∈ ts := by
  obtain ⟨q, hq, he⟩ := List.mem_filterMap.1 h
  obtain ⟨name, -, rfl⟩ := Option.map_eq_some_iff.1 he
  exact (List.of_mem_zip hq).2

theorem ensures_paramTypes {params : List Expr} (hs : Valid s)
    (hadm : ∀ p ∈ params, p.All Admissible) :
    Ensures (paramTypes params) s
      (fun r s' ↦ Grows s s' ∧ (∀ t ∈ r.1, t.Simple) ∧ r.2 = bound params r.1 ∧
        ∀ θ, (∀ id, (θ id).Mono) → List.Forall₂ SlotType params (r.1.map (fill θ)))
      (fun _ _ ↦ True) := by
  induction params generalizing s with
  | nil => exact ⟨.refl hs, nofun, rfl, fun _ _ ↦ .nil⟩
  | cons p ps ih =>
    rw [List.forall_mem_cons] at hadm
    rw [paramTypes, ensures_bind]
    refine (ensures_identifier p).mono ?_ fun _ _ ↦ id
    rintro name _ ⟨rfl, hname⟩
    rw [ensures_bind]
    refine (ensures_binderType hs hname hadm.1).mono (fun t s₁ ⟨hg₁, ht, hslot⟩ ↦ ?_) fun _ _ ↦ id
    rw [ensures_bind]
    refine (ih hg₁.valid hadm.2).mono ?_ fun _ _ ↦ id
    rintro ⟨ts, names⟩ s₂ ⟨hg₂, hts, hnames, hslots⟩
    refine ⟨hg₁.trans hg₂, List.forall_mem_cons.2 ⟨ht, hts⟩, ?_,
      fun θ hθ ↦ .cons (hslot θ hθ) (hslots θ hθ)⟩
    rw [bound_cons, boundName?_of_identifier hname]
    cases p.isHole <;> simp_all

theorem ensures_recursiveTypes {bindings : List (Expr × Expr)} {known : Env} (hs : Valid s)
    (hadm : ∀ b ∈ bindings, b.1.All Admissible) :
    Ensures (recursiveTypes bindings known) s
      (fun r s' ↦ Grows s s' ∧ ∃ ts : List Ty, (∀ t ∈ ts, t.Simple) ∧
        r = known.insertAll (bound (bindings.map (·.1)) ts) ∧
        ∀ θ, (∀ id, (θ id).Mono) → List.Forall₂ SlotType (bindings.map (·.1)) (ts.map (fill θ)))
      (fun _ _ ↦ True) := by
  induction bindings generalizing s known with
  | nil => exact ⟨.refl hs, [], nofun, rfl, fun _ _ ↦ .nil⟩
  | cons b bs ih =>
    obtain ⟨name, value⟩ := b
    rw [List.forall_mem_cons] at hadm
    rw [recursiveTypes, ensures_ite]
    refine ⟨fun hhole ↦ ?_, fun hhole ↦ ?_⟩
    · obtain rfl : name = .hole := by cases name <;> first | rfl | cases hhole
      refine (ih hs hadm.2).mono ?_ fun _ _ ↦ id
      rintro r s' ⟨hg, ts, hts, hr, hslots⟩
      refine ⟨hg, .unknown "" :: ts, List.forall_mem_cons.2 ⟨simple_unknown "", hts⟩, hr,
        fun θ hθ ↦ ?_⟩
      exact .cons (.hole ((simple_unknown "").fill_mono hθ)) (hslots θ hθ)
    · rw [ensures_bind]
      refine (ensures_identifier name).mono ?_ fun _ _ ↦ id
      rintro x _ ⟨rfl, hname⟩
      rw [ensures_bind]
      refine (ensures_binderType hs hname hadm.1).mono (fun t s₁ ⟨hg₁, ht, hslot⟩ ↦ ?_) fun _ _ ↦ id
      refine (ih hg₁.valid hadm.2).mono ?_ fun _ _ ↦ id
      rintro r s₂ ⟨hg₂, ts, hts, rfl, hslots⟩
      refine ⟨hg₁.trans hg₂, t :: ts, List.forall_mem_cons.2 ⟨ht, hts⟩, ?_,
        fun θ hθ ↦ .cons (hslot θ hθ) (hslots θ hθ)⟩
      rw [List.map_cons, bound_cons, boundName?_of_identifier hname, if_neg hhole]
      rfl

/-! ## Lists of expressions -/

theorem ensures_visitAll {es : List Expr} (ih : ∀ e ∈ es, Sound e) (site : Site) (index : Nat)
    (hs : Valid s) (henv : RegularEnv env) (hadm : ∀ e ∈ es, e.All Admissible) :
    Ensures (visitAll env site index es) s (fun _ s' ↦ Grows s s') (fun _ _ ↦ True) := by
  induction es generalizing s index with
  | nil => exact .refl hs
  | cons e es ih' =>
    rw [List.forall_mem_cons] at ih hadm
    rw [visitAll, ensures_bind]
    refine (ih.1 _ hs henv hadm.1).mono (fun t s₁ h₁ ↦ ?_) fun _ _ ↦ id
    exact (ih' ih.2 (index + 1) h₁.grows.valid hadm.2).mono (fun _ _ h ↦ h₁.grows.trans h)
      fun _ _ ↦ id

theorem ensures_visitNames {bindings : List (Expr × Expr)} (ih : ∀ b ∈ bindings, Sound b.1)
    (site : Site) (index : Nat) (hs : Valid s) (henv : RegularEnv env)
    (hadm : ∀ b ∈ bindings, b.1.All Admissible) :
    Ensures (visitNames env site index bindings) s (fun _ s' ↦ Grows s s') (fun _ _ ↦ True) := by
  induction bindings generalizing s index with
  | nil => exact .refl hs
  | cons b bs ih' =>
    obtain ⟨name, value⟩ := b
    rw [List.forall_mem_cons] at ih hadm
    rw [visitNames, ensures_bind]
    refine (ih.1 _ hs henv hadm.1).mono (fun t s₁ h₁ ↦ ?_) fun _ _ ↦ id
    exact (ih' ih.2 (index + 2) h₁.grows.valid hadm.2).mono (fun _ _ h ↦ h₁.grows.trans h)
      fun _ _ ↦ id

theorem ensures_visitElements {es : List Expr} (ih : ∀ e ∈ es, Sound e) (site : Site) (index : Nat)
    (first : Option Mention) (hs : Valid s) (henv : RegularEnv env)
    (hadm : ∀ e ∈ es, e.All Admissible) (ht : t.Simple) :
    Ensures (visitElements env site index first t es) s
      (fun w s' ↦ Grows s s' ∧ w.Simple ∧ ∀ θ, Solution s'.store θ →
        t.fill θ = w.fill θ ∧ ∀ e ∈ es, HasType (solved θ env) e (w.fill θ))
      (fun _ _ ↦ True) := by
  induction es generalizing s index first t with
  | nil => exact ⟨.refl hs, ht, fun _ _ ↦ ⟨rfl, nofun⟩⟩
  | cons e es ih' =>
    rw [List.forall_mem_cons] at ih hadm
    rw [visitElements, ensures_bind]
    refine (ih.1 _ hs henv hadm.1).mono (fun u s₁ h₁ ↦ ?_) fun _ _ ↦ id
    rw [ensures_bind]
    refine (ensures_unify h₁.grows.valid ht h₁.simple).mono (fun v s₂ ⟨hg₂, hv, heq⟩ ↦ ?_)
      fun _ _ ↦ id
    refine (ih' ih.2 _ _ hg₂.valid hadm.2 hv).mono (fun w s₃ ⟨hg₃, hw, hes⟩ ↦ ?_) fun _ _ ↦ id
    refine ⟨(h₁.grows.trans hg₂).trans hg₃, hw, fun θ hθ ↦ ?_⟩
    obtain ⟨hvw, hes⟩ := hes θ hθ
    obtain ⟨htv, huv⟩ := heq θ (hg₃.solution hθ).solves
    refine ⟨htv.trans hvw, List.forall_mem_cons.2 ⟨?_, hes⟩⟩
    rw [← hvw, ← huv]
    exact h₁.hasType θ ((hg₂.trans hg₃).solution hθ)

theorem ensures_visitSequence {es : List Expr} (ih : ∀ e ∈ es, Sound e) (site : Site) (index : Nat)
    (hs : Valid s) (henv : RegularEnv env) (hadm : ∀ e ∈ es, e.All Admissible) (ht : t.Simple) :
    Ensures (visitSequence env site index t es) s
      (fun w s' ↦ Grows s s' ∧ w.Simple ∧ ∀ θ, Solution s'.store θ → ∃ ts : List Ty,
        es.length = ts.length ∧ (∀ q ∈ es.zip ts, HasType (solved θ env) q.1 q.2) ∧
        ts.getLastD (t.fill θ) = w.fill θ)
      (fun _ _ ↦ True) := by
  induction es generalizing s index t with
  | nil => exact ⟨.refl hs, ht, fun _ _ ↦ ⟨[], rfl, nofun, rfl⟩⟩
  | cons e es ih' =>
    rw [List.forall_mem_cons] at ih hadm
    rw [visitSequence, ensures_bind]
    refine (ih.1 _ hs henv hadm.1).mono (fun u s₁ h₁ ↦ ?_) fun _ _ ↦ id
    refine (ih' ih.2 _ h₁.grows.valid hadm.2 h₁.simple).mono (fun w s₂ ⟨hg₂, hw, hes⟩ ↦ ?_)
      fun _ _ ↦ id
    refine ⟨h₁.grows.trans hg₂, hw, fun θ hθ ↦ ?_⟩
    obtain ⟨ts, hlen, hes, hlast⟩ := hes θ hθ
    refine ⟨u.fill θ :: ts, by simp [hlen], ?_, ?_⟩
    · rw [List.zip_cons_cons, List.forall_mem_cons]
      exact ⟨h₁.hasType θ (hg₂.solution hθ), hes⟩
    · rw [List.getLastD_cons, hlast]

theorem ensures_visitCases {cases : List (Expr × Expr)} (ih : ∀ c ∈ cases, Sound c.1 ∧ Sound c.2)
    (site : Site) (whole : Mention) (index : Nat) (hs : Valid s) (henv : RegularEnv env)
    (hadm : ∀ c ∈ cases, c.1.All Admissible ∧ c.2.All Admissible) (ht : t.Simple) :
    Ensures (visitCases env site whole index t cases) s
      (fun w s' ↦ Grows s s' ∧ w.Simple ∧ ∀ θ, Solution s'.store θ → t.fill θ = w.fill θ ∧
        (∃ us : List Ty, cases.length = us.length ∧
          ∀ q ∈ cases.zip us, HasType (solved θ env) q.1.1 q.2) ∧
        ∀ c ∈ cases, HasType (solved θ env) c.2 (w.fill θ))
      (fun _ _ ↦ True) := by
  induction cases generalizing s index t with
  | nil => exact ⟨.refl hs, ht, fun _ _ ↦ ⟨rfl, ⟨[], rfl, nofun⟩, nofun⟩⟩
  | cons c cs ih' =>
    obtain ⟨condition, value⟩ := c
    rw [List.forall_mem_cons] at ih hadm
    rw [visitCases, ensures_bind]
    refine (ih.1.1 _ hs henv hadm.1.1).mono (fun u s₁ h₁ ↦ ?_) fun _ _ ↦ id
    rw [ensures_bind]
    refine (ih.1.2 _ h₁.grows.valid henv hadm.1.2).mono (fun v s₂ h₂ ↦ ?_) fun _ _ ↦ id
    rw [ensures_bind]
    refine (ensures_unify h₂.grows.valid ht h₂.simple).mono (fun x s₃ ⟨hg₃, hx, heq⟩ ↦ ?_)
      fun _ _ ↦ id
    refine (ih' ih.2 _ hg₃.valid hadm.2 hx).mono (fun w s₄ ⟨hg₄, hw, hcs⟩ ↦ ?_) fun _ _ ↦ id
    refine ⟨((h₁.grows.trans h₂.grows).trans hg₃).trans hg₄, hw, fun θ hθ ↦ ?_⟩
    obtain ⟨hxw, ⟨us, hlen, hus⟩, hvals⟩ := hcs θ hθ
    obtain ⟨htx, hvx⟩ := heq θ (hg₄.solution hθ).solves
    have hθ₂ := (hg₃.trans hg₄).solution hθ
    refine ⟨htx.trans hxw, ⟨u.fill θ :: us, by simp [hlen], ?_⟩, List.forall_mem_cons.2 ⟨?_, hvals⟩⟩
    · rw [List.zip_cons_cons, List.forall_mem_cons]
      exact ⟨h₁.hasType θ (h₂.grows.solution hθ₂), hus⟩
    · rw [← hxw, ← hvx]
      exact h₂.hasType θ hθ₂

/-! ## Calls -/

theorem Simple.notMem_specialTags {tag : String} {ps : List Ty} (h : (Ty.con tag ps).Simple) :
    tag ∉ specialTags :=
  ((built_con.1 h).1.resolve_left nofun).1

/-- `plan` calls a procedure if there are no arguments, and consumes them otherwise. -/
theorem ensures_plan {c : CallSite} (hs : Valid s) (hc : c.type.Simple) :
    Ensures (plan c) s
      (fun p s' ↦ Grows s s' ∧ match p with
        | .done t => c.argCount = 0 ∧ t.Simple ∧ ∀ θ, Solution s'.store θ →
          c.type.fill θ = procedure (t.fill θ)
        | .ignore _ => False
        | .consume t => c.argCount ≠ 0 ∧ t = c.type)
      (fun _ _ ↦ True) := by
  rw [plan]
  split
  · rename_i u htype
    rw [ensures_ite]
    refine ⟨fun h0 ↦ ?_, fun h0 ↦ ⟨.refl hs, h0, rfl⟩⟩
    rw [ensures_bind]
    refine (ensures_newUnknown hs c.stem).mono (fun r s₁ ⟨hg₁, hr⟩ ↦ ?_) fun _ _ ↦ id
    rw [ensures_bind]
    refine (ensures_unify hg₁.valid (simple_unknown u) (simple_procedure.2 hr)).mono
      (fun w s₂ ⟨hg₂, _, heq⟩ ↦ ?_) fun _ _ ↦ id
    rw [ensures_bind]
    refine (ensures_applied_valid hg₂.valid r).mono ?_ fun _ _ ↦ id
    rintro _ _ ⟨rfl, rfl⟩
    refine ⟨hg₁.trans hg₂, h0, hg₂.valid.simple_apply hr, fun θ hθ ↦ ?_⟩
    obtain ⟨h₁, h₂⟩ := heq θ hθ.solves
    rw [htype, h₁, ← h₂, hg₂.valid.fill_apply hθ.solves hr]
    simp [procedure]
  · rename_i htype
    rw [htype] at hc
    simp [Simple, Node.Ordinary] at hc
  · rename_i tag ps htype
    rw [htype] at hc
    have htag := Simple.notMem_specialTags hc
    split
    · rename_i r
      rw [ensures_ite]
      refine ⟨fun h0 ↦ ⟨.refl hs, h0, simple_procedure.1 hc, fun θ _ ↦ ?_⟩,
        fun _ ↦ ensures_fail fun _ ↦ trivial⟩
      rw [htype]
      simp [procedure]
    · simp [specialTags] at htag
    · simp [specialTags] at htag
    · rw [ensures_ite, ensures_ite]
      refine ⟨fun _ ↦ ensures_fail fun _ ↦ trivial,
        fun _ ↦ ⟨fun _ ↦ ensures_fail fun _ ↦ trivial, fun h0 ↦ ⟨.refl hs, h0, ?_⟩⟩⟩
      rfl
  · rw [ensures_ite]
    exact ⟨fun _ ↦ ensures_fail fun _ ↦ trivial, fun h0 ↦ ⟨.refl hs, h0, rfl⟩⟩

/-- Every argument takes one argument type off the type of the function. -/
theorem ensures_visitArgs {args : List Expr} (ih : ∀ e ∈ args, Sound e) (c : CallSite) (index : Nat)
    (hs : Valid s) (henv : RegularEnv env) (hadm : ∀ e ∈ args, e.All Admissible) (ht : t.Simple) :
    Ensures (visitArgs env c index t args) s
      (fun w s' ↦ Grows s s' ∧ w.Simple ∧ ∀ θ, Solution s'.store θ → ∃ ts : List Ty,
        args.length = ts.length ∧ t.fill θ = chain ts (w.fill θ) ∧
        ∀ q ∈ args.zip ts, HasType (solved θ env) q.1 q.2)
      (fun _ _ ↦ True) := by
  induction args generalizing s index t with
  | nil => exact ⟨.refl hs, ht, fun _ _ ↦ ⟨[], rfl, rfl, nofun⟩⟩
  | cons arg args ih' =>
    rw [List.forall_mem_cons] at ih hadm
    rw [visitArgs, ensures_bind]
    refine (ensures_applied_valid hs t).mono ?_ fun _ _ ↦ id
    rintro current s₀ ⟨rfl, rfl⟩
    rw [ensures_ite, ensures_ite]
    refine ⟨fun h ↦ ?_, fun _ ↦ ⟨fun _ ↦ ensures_fail fun _ ↦ trivial, fun _ ↦ ?_⟩⟩
    · -- A simple type is neither `any` nor `never`.
      have hsimple := hs.simple_apply ht
      exfalso
      cases happ : s₀.store.apply t with
      | con tag ps =>
        rw [happ] at h hsimple
        have htag := Simple.notMem_specialTags hsimple
        simp only [hasTag, tag?, Bool.or_eq_true, beq_iff_eq, Option.some.injEq] at h
        rcases h with rfl | rfl <;> simp [specialTags] at htag
      | _ => simp [happ, hasTag, tag?] at h
    · rw [ensures_bind]
      refine (ih.1 _ hs henv hadm.1).mono (fun a s₁ h₁ ↦ ?_) fun _ _ ↦ id
      rw [ensures_bind]
      refine (ensures_newUnknown h₁.grows.valid c.stem).mono (fun next s₂ hpost ↦ ?_) fun _ _ ↦ id
      obtain ⟨hg₂, hnext⟩ := hpost
      rw [ensures_bind]
      refine (ensures_unify hg₂.valid ht (simple_function.2 ⟨h₁.simple, hnext⟩)).mono
        (fun _ s₃ hpost ↦ ?_) fun _ _ ↦ id
      obtain ⟨hg₃, _, heq⟩ := hpost
      rw [ensures_bind]
      refine (ensures_applied_valid hg₃.valid next).mono ?_ fun _ _ ↦ id
      rintro _ _ ⟨rfl, rfl⟩
      refine (ih' ih.2 _ hg₃.valid hadm.2 (hg₃.valid.simple_apply hnext)).mono
        (fun w s₄ hpost ↦ ?_) fun _ _ ↦ id
      obtain ⟨hg₄, hw, hargs⟩ := hpost
      refine ⟨((h₁.grows.trans hg₂).trans hg₃).trans hg₄, hw, fun θ hθ ↦ ?_⟩
      obtain ⟨ts, hlen, hchain, hargs⟩ := hargs θ hθ
      have hθ₃ := hg₄.solution hθ
      obtain ⟨h, h'⟩ := heq θ hθ₃.solves
      rw [hg₃.valid.fill_apply hθ₃.solves hnext] at hchain
      refine ⟨a.fill θ :: ts, by simp [hlen], ?_, ?_⟩
      · rw [h, ← h', function, fill_con, List.map_cons, List.map_cons, List.map_nil, hchain]
        rfl
      · rw [List.zip_cons_cons, List.forall_mem_cons]
        exact ⟨h₁.hasType θ ((hg₂.trans hg₃).solution hθ₃), hargs⟩

/-! ## Bindings -/

theorem slotType_of_identifier {slot : Expr} {name : String} (hslot : slot.identifier? = some name)
    (ht : t.Mono) (hd : ∀ d, slot.declared? = some d → Instance d.scheme t) : SlotType slot t := by
  cases slot with
  | hole => exact .hole ht
  | binding x declared =>
    cases declared with
    | none => exact .undeclared ht
    | some d => exact .declared ht (hd d rfl)
  | _ => cases hslot

/-- The type of a value, for which its slot may declare a type. -/
theorem ensures_valueType {slot : Expr} {e₁ e₂ : Option Mention} (hs : Valid s)
    (hadm : slot.All Admissible) (ht : t.Simple) :
    Ensures (valueType slot t e₁ e₂) s
      (fun w s' ↦ Grows s s' ∧ w.Simple ∧ ∀ θ, Solution s'.store θ → t.fill θ = w.fill θ ∧
        ∀ d, slot.declared? = some d → Instance d.scheme (w.fill θ))
      (fun _ _ ↦ True) := by
  rw [valueType]
  cases hd : slot.declared? with
  | none => exact ⟨.refl hs, ht, fun _ _ ↦ ⟨rfl, nofun⟩⟩
  | some d =>
    have hdecl : Declared d := by
      have hadm := (Expr.all_iff.1 hadm).1
      cases slot with
      | binding x declared => cases hd; exact hadm
      | _ => cases hd
    rw [ensures_bind]
    refine (ensures_instantiate hs hdecl.regular).mono ?_ fun _ _ ↦ id
    rintro _ s₁ ⟨hg₁, hsimple, f, hf, rfl⟩
    refine (ensures_unify hg₁.valid hsimple ht).mono (fun w s₂ ⟨hg₂, hw, heq⟩ ↦ ?_) fun _ _ ↦ id
    refine ⟨hg₁.trans hg₂, hw, fun θ hθ ↦ ?_⟩
    obtain ⟨hdw, htw⟩ := heq θ hθ.solves
    refine ⟨htw, fun d' hd' ↦ ?_⟩
    cases hd'
    have h := instance_fill (S := d.scheme) hf hθ.mono
    rwa [hdecl.fill_scheme, hdw] at h

theorem ensures_generalizeAll {bs : List (String × Ty)} (hs : Valid s)
    (hbs : ∀ b ∈ bs, b.2.Simple) :
    Ensures (generalizeAll env bs) s
      (fun r s' ↦ s'.store = s.store ∧ s'.counter = s.counter ∧ (∀ b ∈ r, b.2.Polymorphic) ∧
        List.Forall₂ (fun b b' ↦ b.1 = b'.1 ∧ b.2.Simple ∧ GeneralizedTo s.store env b.2 b'.2) bs r)
      (fun _ _ ↦ True) := by
  induction bs generalizing s with
  | nil => exact ⟨rfl, rfl, nofun, .nil⟩
  | cons b bs ih =>
    obtain ⟨name, t⟩ := b
    rw [List.forall_mem_cons] at hbs
    rw [generalizeAll, ensures_bind]
    refine (ensures_generalize hs env t).mono ?_ fun _ _ ↦ id
    rintro ⟨G, naming⟩ s₁ ⟨hstore₁, hcounter₁, hG⟩
    rw [ensures_bind]
    refine (ih (hs.congr hstore₁ hcounter₁) hbs.2).mono ?_ fun _ _ ↦ id
    rintro r s₂ ⟨hstore₂, hcounter₂, hpoly, hr⟩
    rw [hstore₁] at hr
    exact ⟨hstore₂.trans hstore₁, hcounter₂.trans hcounter₁,
      List.forall_mem_cons.2 ⟨hG.polymorphic hs hbs.1, hpoly⟩, .cons ⟨rfl, hbs.1, hG⟩ hr⟩

/-- Solutions that agree on the environment give the same environment to the typing rules. -/
theorem solved_congr {θ' : String → Ty} (h : ∀ S ∈ env.values, S.scheme.fill θ' = S.scheme.fill θ) :
    solved θ' env = solved θ env :=
  congrArg OrdMap.mk (List.map_congr_left fun e he ↦
    Prod.ext rfl (h e.2 (List.mem_map_of_mem he)))

theorem exists_generalizes (Γ : Env) (t : Ty) : ∃ S, Generalizes Γ t S :=
  ⟨_, id, fun _ _ _ _ _ _ ↦ id, rfl⟩

theorem ensures_visitLetValues {bindings : List (Expr × Expr)}
    (ih : ∀ b ∈ bindings, Sound b.2) (site : Site) (index : Nat) (hs : Valid s)
    (henv : RegularEnv env) (hadm : ∀ b ∈ bindings, b.1.All Admissible ∧ b.2.All Admissible) :
    Ensures (visitLetValues env site index bindings) s
      (fun names s' ↦ Grows s s' ∧ (∀ b ∈ names, b.2.Polymorphic) ∧ ∀ θ, Solution s'.store θ →
        ∃ ts Ss : List Ty, List.Forall₂ SlotType (bindings.map (·.1)) ts ∧
          (∀ q ∈ bindings.zip ts, HasType (solved θ env) q.1.2 q.2) ∧
          List.Forall₂ (Generalizes (solved θ env)) ts Ss ∧
          bound (bindings.map (·.1)) Ss = names.map fun b ↦ (b.1, b.2.fill θ))
      (fun _ _ ↦ True) := by
  induction bindings generalizing s index with
  | nil => exact ⟨.refl hs, nofun, fun _ _ ↦ ⟨[], [], .nil, nofun, .nil, rfl⟩⟩
  | cons b bs ih' =>
    obtain ⟨name, value⟩ := b
    rw [List.forall_mem_cons] at ih hadm
    rw [visitLetValues, ensures_bind]
    refine (ih.1 _ hs henv hadm.1.2).mono (fun found s₁ h₁ ↦ ?_) fun _ _ ↦ id
    rw [ensures_bind]
    refine (ensures_valueType h₁.grows.valid hadm.1.1 h₁.simple).mono
      (fun type s₂ ⟨hg₂, htype, hd⟩ ↦ ?_)
      fun _ _ ↦ id
    have hg := h₁.grows.trans hg₂
    rw [ensures_ite]
    refine ⟨fun hhole ↦ ?_, fun hhole ↦ ?_⟩
    · obtain rfl : name = .hole := by cases name <;> first | rfl | cases hhole
      refine (ih' ih.2 _ hg₂.valid hadm.2).mono (fun names s₃ ⟨hg₃, hpoly, hnames⟩ ↦ ?_)
        fun _ _ ↦ id
      refine ⟨hg.trans hg₃, hpoly, fun θ hθ ↦ ?_⟩
      obtain ⟨ts, Ss, hslots, hvalues, hgen, hbound⟩ := hnames θ hθ
      have hθ₁ := (hg₂.trans hg₃).solution hθ
      obtain ⟨S, hS⟩ := exists_generalizes (solved θ env) (found.fill θ)
      refine ⟨found.fill θ :: ts, S :: Ss, .cons (.hole (h₁.simple.fill_mono hθ.mono)) hslots, ?_,
        .cons hS hgen, ?_⟩
      · rw [List.zip_cons_cons, List.forall_mem_cons]
        exact ⟨h₁.hasType θ hθ₁, hvalues⟩
      · rw [List.map_cons, bound_cons, hbound]
        rfl
    · rw [ensures_bind]
      refine (ensures_generalize hg₂.valid env type).mono ?_ fun _ _ ↦ id
      rintro ⟨G, naming⟩ s₃ ⟨hstore, hcounter, hG⟩
      rw [ensures_bind]
      refine (ensures_identifier name).mono ?_ fun _ _ ↦ id
      rintro x s₃ ⟨rfl, hname⟩
      rw [ensures_bind]
      have hg₃ : Grows s₂ s₃ := (Grows.refl hg₂.valid).congr hstore hcounter
      refine (ih' ih.2 _ hg₃.valid hadm.2).mono (fun names s₄ ⟨hg₄, hpoly, hnames⟩ ↦ ?_)
        fun _ _ ↦ id
      refine ⟨(hg.trans hg₃).trans hg₄,
        List.forall_mem_cons.2 ⟨hG.polymorphic hg₂.valid htype, hpoly⟩, fun θ hθ ↦ ?_⟩
      obtain ⟨ts, Ss, hslots, hvalues, hgen, hbound⟩ := hnames θ hθ
      have hθ₂ := (hg₃.trans hg₄).solution hθ
      -- The derivation for the value is taken with parameters for what is generalised.
      obtain ⟨θ', hmono, hsolves, hagree, hgeneralizes⟩ :=
        exists_parameters hg₂.valid env hθ₂.solves hθ₂.mono
      have hθ' : Solution s₂.store θ' := ⟨hsolves, hmono⟩
      obtain ⟨hft, hdecl⟩ := hd θ' hθ'
      refine ⟨type.fill θ' :: ts, G.fill θ :: Ss,
        .cons (slotType_of_identifier hname (htype.fill_mono hmono) hdecl) hslots, ?_,
        .cons (hgeneralizes type G htype hG) hgen, ?_⟩
      · rw [List.zip_cons_cons, List.forall_mem_cons]
        refine ⟨?_, hvalues⟩
        rw [← hft, ← solved_congr hagree]
        exact h₁.hasType θ' (hg₂.solution hθ')
      · rw [List.map_cons, bound_cons, boundName?_of_identifier hname, if_neg hhole, hbound]
        rfl

/-- The values of recursive bindings have the types that are known of their names. -/
theorem ensures_visitRecursiveValues {bindings : List (Expr × Expr)} {known : Env}
    (ih : ∀ b ∈ bindings, Sound b.2) (site : Site) (index : Nat) (hs : Valid s)
    (henv : RegularEnv env) (hadm : ∀ b ∈ bindings, b.2.All Admissible)
    (hknown : ∀ name t, known.get? name = some t → t.Simple)
    (hnames : ∀ b ∈ bindings, ∀ name ∈ boundName? b.1, (known.get? name).isSome) :
    Ensures (visitRecursiveValues env site known index bindings) s
      (fun _ s' ↦ Grows s s' ∧ ∀ θ, Solution s'.store θ → ∃ us : List Ty,
        bindings.length = us.length ∧ (∀ q ∈ bindings.zip us, HasType (solved θ env) q.1.2 q.2) ∧
        ∀ q ∈ bindings.zip us, ∀ name ∈ boundName? q.1.1,
          (known.get? name).map (fill θ) = some q.2)
      (fun _ _ ↦ True) := by
  induction bindings generalizing s index with
  | nil => exact ⟨.refl hs, fun _ _ ↦ ⟨[], by simp⟩⟩
  | cons b bs ih' =>
    obtain ⟨name, value⟩ := b
    rw [List.forall_mem_cons] at ih hadm hnames
    rw [visitRecursiveValues, ensures_bind]
    refine (ih.1 _ hs henv hadm.1).mono (fun found s₁ h₁ ↦ ?_) fun _ _ ↦ id
    simp only [ensures_ite]
    refine ⟨fun hhole ↦ ?_, fun hhole ↦ ?_⟩
    · rw [ensures_bind]
      refine (ensures_identifier name).mono ?_ fun _ _ ↦ id
      rintro x s₁ ⟨rfl, hname⟩
      have hx : boundName? name = some x := by
        rw [boundName?_of_identifier hname, if_neg (by simpa using hhole)]
      obtain ⟨t, ht⟩ := Option.isSome_iff_exists.1 (hnames.1 x hx)
      rw [ht, Option.getD_some, ensures_bind]
      refine (ensures_unify h₁.grows.valid (hknown x t ht) h₁.simple).mono
        (fun w s₂ hpost ↦ ?_) fun _ _ ↦ id
      obtain ⟨hg₂, _, heq⟩ := hpost
      refine (ih' ih.2 _ hg₂.valid hadm.2 hnames.2).mono (fun _ s₃ hpost ↦ ?_) fun _ _ ↦ id
      obtain ⟨hg₃, hvalues⟩ := hpost
      refine ⟨(h₁.grows.trans hg₂).trans hg₃, fun θ hθ ↦ ?_⟩
      obtain ⟨us, hlen, hvalues, hus⟩ := hvalues θ hθ
      have hθ₂ := hg₃.solution hθ
      obtain ⟨htw, hfw⟩ := heq θ hθ₂.solves
      refine ⟨found.fill θ :: us, by simp [hlen], ?_, ?_⟩ <;>
        rw [List.zip_cons_cons, List.forall_mem_cons]
      · exact ⟨h₁.hasType θ (hg₂.solution hθ₂), hvalues⟩
      · refine ⟨fun y hy ↦ ?_, hus⟩
        cases hx.symm.trans hy
        rw [ht, Option.map_some, htw, ← hfw]
    · obtain rfl : name = .hole := by cases name <;> first | rfl | simp [Expr.isHole] at hhole
      refine (ih' ih.2 _ h₁.grows.valid hadm.2 hnames.2).mono (fun _ s₂ hpost ↦ ?_)
        fun _ _ ↦ id
      obtain ⟨hg₂, hvalues⟩ := hpost
      refine ⟨h₁.grows.trans hg₂, fun θ hθ ↦ ?_⟩
      obtain ⟨us, hlen, hvalues, hus⟩ := hvalues θ hθ
      refine ⟨found.fill θ :: us, by simp [hlen], ?_, ?_⟩ <;>
        rw [List.zip_cons_cons, List.forall_mem_cons]
      · exact ⟨h₁.hasType θ (hg₂.solution hθ), hvalues⟩
      · exact ⟨by simp [boundName?], hus⟩

/-! ## All expressions -/

/-- To record a type preserves `Typed`. -/
theorem ensures_recorded {e : Expr} {site : Site} {s₀ : InferenceState} (h : Typed env e s₀ t s) :
    Ensures (do record site t; return t) s (Typed env e s₀) (fun _ _ ↦ True) :=
  ⟨h.grows.congr rfl rfl, h.simple, h.hasType⟩

/-- The type of a name is an instance of its type in the environment. -/
theorem ensures_lookup {e : Expr} {name : String} {S : Ty} (site : Site) (hs : Valid s)
    (henv : RegularEnv env) (hname : env.get? name = some S)
    (hrule : ∀ {Γ : Env} {S t : Ty}, Γ.get? name = some S → Instance S t → HasType Γ e t) :
    Ensures (do let type ← instantiate S; record site type; return type) s (Typed env e s)
      (fun _ _ ↦ True) := by
  rw [ensures_bind]
  refine (ensures_instantiate hs (henv S (OrdMap.mem_values_of_get? hname))).mono ?_ fun _ _ ↦ id
  rintro _ s₁ ⟨hg, ht, f, hf, rfl⟩
  refine ensures_recorded
    ⟨hg, ht, fun θ hθ ↦ hrule (S := S.scheme.fill θ) ?_ (instance_fill hf hθ.mono)⟩
  rw [solved, OrdMap.get?_mapValues, hname, Option.map_some]

theorem sound_list {es : List Expr} (ih : ∀ e ∈ es, Sound e) : Sound (.list es) := by
  intro s env site hs henv hadm
  have hes := (Expr.all_iff.1 hadm).2
  rw [visit, ensures_bind]
  refine (ensures_newUnknown hs "Element").mono (fun element s₁ ⟨hg₁, helement⟩ ↦ ?_) fun _ _ ↦ id
  rw [ensures_bind]
  refine (ensures_visitElements ih site 0 none hg₁.valid henv hes helement).mono
    (fun w s₂ ⟨hg₂, hw, hws⟩ ↦ ?_) fun _ _ ↦ id
  refine ensures_recorded ⟨hg₁.trans hg₂, simple_list.2 hw, fun θ hθ ↦ ?_⟩
  rw [Ty.list, fill_con]
  exact .list (hw.fill_mono hθ.mono) (hws θ hθ).2

theorem sound_call {called : Expr} {args : List Expr} (ihc : Sound called)
    (ih : ∀ e ∈ args, Sound e) : Sound (.call called args) := by
  intro s env site hs henv hadm
  obtain ⟨hcalled, hargs⟩ := List.forall_mem_cons.1 (Expr.all_iff.1 hadm).2
  rw [visit, ensures_bind]
  refine (ihc _ hs henv hcalled).mono (fun f s₁ h₁ ↦ ?_) fun _ _ ↦ id
  rw [ensures_bind]
  refine (ensures_applied_valid h₁.grows.valid f).mono ?_ fun _ _ ↦ id
  rintro _ s₁ ⟨rfl, rfl⟩
  have hf := h₁.grows.valid.simple_apply h₁.simple
  rw [ensures_bind]
  refine (ensures_plan (c := ⟨_, _, _, _, _, _⟩) h₁.grows.valid hf).mono
    (fun p s₂ ⟨hg₂, hp⟩ ↦ ?_) fun _ _ ↦ id
  have hcalled : ∀ θ, Solution s₂.store θ →
      HasType (solved θ env) called ((s₁.store.apply f).fill θ) := fun θ hθ ↦ by
    have hθ₁ := hg₂.solution hθ
    rw [h₁.grows.valid.fill_apply hθ₁.solves h₁.simple]
    exact h₁.hasType θ hθ₁
  match p, hp with
  | .done t, ⟨h0, ht, hcall⟩ =>
    obtain rfl := List.length_eq_zero_iff.1 h0
    refine ensures_recorded ⟨h₁.grows.trans hg₂, ht, fun θ hθ ↦ .force ?_⟩
    rw [← hcall θ hθ]
    exact hcalled θ hθ
  | .consume t, ⟨h0, ht⟩ =>
    subst ht
    rw [ensures_bind]
    refine (ensures_visitArgs ih _ 0 hg₂.valid henv hargs hf).mono (fun w s₃ ⟨hg₃, hw, hws⟩ ↦ ?_)
      fun _ _ ↦ id
    refine ensures_recorded ⟨(h₁.grows.trans hg₂).trans hg₃, hw, fun θ hθ ↦ ?_⟩
    obtain ⟨ts, hlen, hchain, hts⟩ := hws θ hθ
    refine .call (by rintro rfl; exact h0 rfl) ?_ hlen hts
    rw [← hchain]
    exact hcalled θ (hg₃.solution hθ)

theorem insertAll_bound_singleton {slot : Expr} {name : String} (h : slot.identifier? = some name) :
    env.insertAll (bound [slot] [t]) = if slot.isHole then env else env.insert name t := by
  rw [bound_cons, boundName?_of_identifier h]
  cases slot.isHole <;> rfl

theorem sound_define {name value : Expr} (ihn : Sound name) (ih : Sound value) :
    Sound (.define name value) := by
  intro s env site hs henv hadm
  have hadm := (Expr.all_iff.1 hadm).2
  have hname := hadm name (by simp [Expr.children])
  have hvalue := hadm value (by simp [Expr.children])
  rw [visit, ensures_bind]
  refine (ensures_identifier name).mono ?_ fun _ _ ↦ id
  rintro x s ⟨rfl, hx⟩
  rw [ensures_bind]
  refine (ensures_binderType hs hx hname).mono (fun d s₁ hpost ↦ ?_) fun _ _ ↦ id
  obtain ⟨hg₁, hd, hslot⟩ := hpost
  have hbound : ∀ b ∈ bound [name] [d], b.2.Simple := fun b hb ↦ by
    rwa [List.mem_singleton.1 (mem_bound hb)]
  rw [← insertAll_bound_singleton hx]
  have henv₁ := henv.insertAll fun b hb ↦ Simple.regular (hbound b hb)
  rw [ensures_bind]
  refine (ih _ hg₁.valid henv₁ hvalue).mono (fun found s₂ h₂ ↦ ?_) fun _ _ ↦ id
  rw [ensures_bind]
  refine (ensures_unify h₂.grows.valid hd h₂.simple).mono (fun w s₃ hpost ↦ ?_) fun _ _ ↦ id
  obtain ⟨hg₃, hw, heq⟩ := hpost
  rw [ensures_bind]
  refine (ihn _ hg₃.valid henv₁ hname).mono (fun _ s₄ h₄ ↦ ?_) fun _ _ ↦ id
  refine ensures_recorded ⟨((hg₁.trans h₂.grows).trans hg₃).trans h₄.grows, hw, fun θ hθ ↦ ?_⟩
  have hθ₃ := h₄.grows.solution hθ
  obtain ⟨hdw, hfw⟩ := heq θ hθ₃.solves
  have hfound := h₂.hasType θ (hg₃.solution hθ₃)
  rw [solved_insertAll fun b hb ↦ (hbound b hb).polymorphic, ← bound_fill,
    List.map_singleton, hdw, hfw]
    at hfound
  exact .define (hdw ▸ hslot θ hθ.mono) hfound

theorem sound_letIn {bindings : List (Expr × Expr)} {body : Expr}
    (ih : ∀ b ∈ bindings, Sound b.1 ∧ Sound b.2) (ihb : Sound body) :
    Sound (.letIn bindings body) := by
  intro s env site hs henv hadm
  obtain ⟨hbindings, hbody⟩ := Expr.All.bindings (Expr.all_iff.1 hadm).2
  rw [visit, ensures_bind]
  refine (ensures_visitLetValues (fun b hb ↦ (ih b hb).2) site 0 hs henv hbindings).mono
    (fun names s₁ ⟨hg₁, hpoly, hnames⟩ ↦ ?_) fun _ _ ↦ id
  have henv₁ := henv.insertAll fun b hb ↦ (hpoly b hb).regular
  rw [ensures_bind]
  refine (ensures_visitNames (fun b hb ↦ (ih b hb).1) site 0 hg₁.valid henv₁
    fun b hb ↦ (hbindings b hb).1).mono (fun _ s₂ hg₂ ↦ ?_) fun _ _ ↦ id
  rw [ensures_bind]
  refine (ihb _ hg₂.valid henv₁ hbody).mono (fun t s₃ h₃ ↦ ?_) fun _ _ ↦ id
  refine ensures_recorded ⟨(hg₁.trans hg₂).trans h₃.grows, h₃.simple, fun θ hθ ↦ ?_⟩
  obtain ⟨ts, Ss, hslots, hvalues, hgen, hbound⟩ := hnames θ ((hg₂.trans h₃.grows).solution hθ)
  refine .letIn hslots hvalues hgen ?_
  rw [hbound, ← solved_insertAll hpoly]
  exact h₃.hasType θ hθ

theorem sound_lambda {params : List Expr} {body : Expr} (ih : ∀ p ∈ params, Sound p)
    (ihb : Sound body) : Sound (.lambda params body) := by
  intro s env site hs henv hadm
  obtain ⟨hparams, hbody⟩ := List.forall_mem_append.1 (Expr.all_iff.1 hadm).2
  rw [visit, ensures_bind]
  refine (ensures_paramTypes hs hparams).mono ?_ fun _ _ ↦ id
  rintro ⟨ts, names⟩ s₁ ⟨hg₁, hts, hnames, hslots⟩
  dsimp only at hts hnames hslots ⊢
  subst hnames
  have hbound : ∀ b ∈ bound params ts, b.2.Simple := fun b hb ↦ hts _ (mem_bound hb)
  have henv₁ := henv.insertAll fun b hb ↦ Simple.regular (hbound b hb)
  rw [ensures_bind]
  refine (ensures_visitAll ih site 0 hg₁.valid henv₁ hparams).mono (fun _ s₂ hg₂ ↦ ?_) fun _ _ ↦ id
  rw [ensures_bind]
  refine (ihb _ hg₂.valid henv₁ (hbody body (by simp))).mono (fun r s₃ h₃ ↦ ?_) fun _ _ ↦ id
  have hg := (hg₁.trans hg₂).trans h₃.grows
  have hr : ∀ θ, Solution s₃.store θ →
      HasType ((solved θ env).insertAll (bound params (ts.map (fill θ)))) body (r.fill θ) := by
    intro θ hθ
    rw [bound_fill, ← solved_insertAll fun b hb ↦ (hbound b hb).polymorphic]
    exact h₃.hasType θ hθ
  cases params with
  | nil =>
    obtain rfl : ts = [] := by simpa using hslots Ty.unknown mono_unknown
    refine ensures_recorded ⟨hg, simple_procedure.2 h₃.simple, fun θ hθ ↦ ?_⟩
    exact .thunk (hr θ hθ)
  | cons p ps =>
    have hne : ts.isEmpty = false := by
      cases ts with
      | nil => cases hslots Ty.unknown mono_unknown
      | cons => rfl
    simp only [hne]
    refine ensures_recorded ⟨hg, simple_chain hts h₃.simple, fun θ hθ ↦ ?_⟩
    rw [if_neg nofun, fill_chain]
    exact .lambda nofun (hslots θ hθ.mono) (hr θ hθ)

/-- The names of slots that have types are bound. -/
theorem mem_bound_names {slots : List Expr} {ts : List Ty} (hlen : slots.length = ts.length)
    {slot : Expr} (hslot : slot ∈ slots) {name : String} (hname : name ∈ boundName? slot) :
    name ∈ (bound slots ts).map (·.1) := by
  obtain ⟨i, hi, rfl⟩ := List.mem_iff_getElem.1 hslot
  refine List.mem_map.2 ⟨(name, ts[i]), List.mem_filterMap.2 ⟨(slots[i], ts[i]), ?_, ?_⟩, rfl⟩
  · exact List.mem_iff_getElem.2 ⟨i, by simp [hi, ← hlen], by simp⟩
  · rw [Option.mem_def.1 hname, Option.map_some]

theorem sound_letrec {bindings : List (Expr × Expr)} {body : Expr}
    (ih : ∀ b ∈ bindings, Sound b.1 ∧ Sound b.2) (ihb : Sound body) :
    Sound (.letrec bindings body) := by
  intro s env site hs henv hadm
  obtain ⟨hbindings, hbody⟩ := Expr.All.bindings (Expr.all_iff.1 hadm).2
  rw [visit, ensures_bind]
  refine (ensures_recursiveTypes hs fun b hb ↦ (hbindings b hb).1).mono ?_ fun _ _ ↦ id
  rintro known s₁ ⟨hg₁, ts, hts, hknown, hslots⟩
  have hlen : (bindings.map (·.1)).length = ts.length := by
    simpa using (hslots Ty.unknown mono_unknown).length_eq
  have hsimple : ∀ t ∈ known.values, t.Simple := by
    intro t ht
    rw [hknown] at ht
    obtain ⟨b, hb, rfl⟩ := List.mem_map.1 ((OrdMap.mem_values_insertAll ht).resolve_right nofun)
    exact hts _ (mem_bound hb)
  have hentries : ∀ b ∈ known.entries, b.2.Simple := fun b hb ↦ hsimple _ (List.mem_map_of_mem hb)
  have hnames : ∀ b ∈ bindings, ∀ name ∈ boundName? b.1, (known.get? name).isSome := by
    intro b hb name hname
    rw [hknown]
    exact OrdMap.isSome_get?_insertAll (.inl (mem_bound_names hlen (List.mem_map_of_mem hb) hname))
  rw [ensures_bind]
  refine (ensures_visitRecursiveValues (fun b hb ↦ (ih b hb).2) site 0 hg₁.valid
    (henv.insertAll fun b hb ↦ Simple.regular (hentries b hb)) (fun b hb ↦ (hbindings b hb).2)
    (fun name t h ↦ hsimple t (OrdMap.mem_values_of_get? h)) hnames).mono
    (fun _ s₂ ⟨hg₂, hvalues⟩ ↦ ?_) fun _ _ ↦ id
  rw [ensures_bind]
  refine (ensures_generalizeAll hg₂.valid hentries).mono ?_ fun _ _ ↦ id
  rintro poly s₃ ⟨hstore, hcounter, hpoly, hgen⟩
  have hg₃ : Grows s₂ s₃ := (Grows.refl hg₂.valid).congr hstore hcounter
  have henv₁ := henv.insertAll fun b hb ↦ (hpoly b hb).regular
  rw [ensures_bind]
  refine (ensures_visitNames (fun b hb ↦ (ih b hb).1) site 0 hg₃.valid henv₁
    fun b hb ↦ (hbindings b hb).1).mono (fun _ s₄ hg₄ ↦ ?_) fun _ _ ↦ id
  rw [ensures_bind]
  refine (ihb _ hg₄.valid henv₁ hbody).mono (fun t s₅ h₅ ↦ ?_) fun _ _ ↦ id
  have hg := (hg₃.trans hg₄).trans h₅.grows
  refine ensures_recorded ⟨(hg₁.trans hg₂).trans hg, h₅.simple, fun θ hθ ↦ ?_⟩
  have hθ₂ := hg.solution hθ
  -- As for `let`, the values are typed with parameters for what is generalised.
  obtain ⟨θ', hmono, hsolves, hagree, hgeneralizes⟩ :=
    exists_parameters hg₂.valid env hθ₂.solves hθ₂.mono
  obtain ⟨us, hlen', hus, hnames⟩ := hvalues θ' ⟨hsolves, hmono⟩
  rw [solved_insertAll fun b hb ↦ (hentries b hb).polymorphic, solved_congr hagree] at hus
  change ∀ q ∈ bindings.zip us,
    HasType ((solved θ env).insertAll (OrdMap.mapValues (fill θ') known).entries) q.1.2 q.2 at hus
  have hgen' : List.Forall₂ (fun b b' ↦ b.1 = b'.1 ∧ Generalizes (solved θ env) b.2 b'.2)
      (OrdMap.mapValues (fill θ') known).entries (poly.map fun b ↦ (b.1, b.2.fill θ)) := by
    rw [OrdMap.mapValues, List.forall₂_map_left_iff, List.forall₂_map_right_iff]
    exact hgen.imp fun b b' ⟨hname, hb, hG⟩ ↦ ⟨hname, hgeneralizes b.2 b'.2 hb hG⟩
  refine .letrec (hslots θ' hmono) ?_ hlen' hus ?_ hgen' ?_
  · rw [hknown, bound_fill, OrdMap.mapValues_insertAll]
    rfl
  · intro q hq name hname
    rw [OrdMap.get?_mapValues]
    exact hnames q hq name hname
  · rw [← solved_insertAll hpoly]
    exact h₅.hasType θ hθ

/-- The type that is found for an expression can be derived. -/
theorem sound (e : Expr) : Sound e := by
  induction e with
  | list es ih => exact sound_list ih
  | call called args ihc ih => exact sound_call ihc ih
  | define name value ihn ih => exact sound_define ihn ih
  | letIn bindings body ih ihb => exact sound_letIn ih ihb
  | letrec bindings body ih ihb => exact sound_letrec ih ihb
  | lambda params body ih ihb => exact sound_lambda ih ihb
  | number n =>
    intro s env site hs henv hadm
    have hn : n.isInteger = true := (Expr.all_iff.1 hadm).1
    rw [visit, if_pos hn]
    exact ensures_recorded ⟨.refl hs, simple_atom (by decide) (by decide), fun θ _ ↦ .integer hn⟩
  | bool b =>
    intro s env site hs henv hadm
    rw [visit]
    exact ensures_recorded ⟨.refl hs, simple_atom (by decide) (by decide), fun θ _ ↦ .bool⟩
  | string v =>
    intro s env site hs henv hadm
    rw [visit]
    exact ensures_recorded ⟨.refl hs, simple_atom (by decide) (by decide), fun θ _ ↦ .string⟩
  | null =>
    intro s env site hs henv hadm
    rw [visit]
    exact ensures_recorded ⟨.refl hs, simple_atom (by decide) (by decide), fun θ _ ↦ .null⟩
  | hole =>
    intro s env site hs henv hadm
    rw [visit, ensures_bind]
    refine (ensures_newUnknown hs "_").mono (fun t s₁ hpost ↦ ?_) fun _ _ ↦ id
    obtain ⟨hg₁, ht⟩ := hpost
    exact ensures_recorded ⟨hg₁, ht, fun θ hθ ↦ .hole (ht.fill_mono hθ.mono)⟩
  | binding name declared =>
    intro s env site hs henv hadm
    rw [visit]
    split
    · rename_i S hname
      exact ensures_lookup site hs henv hname .binding
    · rw [ensures_bind]
      exact ensures_fail fun _ ↦ trivial
  | var name =>
    intro s env site hs henv hadm
    rw [visit]
    split
    · rename_i S hname
      exact ensures_lookup site hs henv hname .var
    · rw [ensures_bind]
      exact ensures_fail fun _ ↦ trivial
  | sequence es ih =>
    intro s env site hs henv hadm
    have hes := (Expr.all_iff.1 hadm).2
    rw [visit, ensures_bind]
    refine (ensures_newUnknown hs "EmptySequence").mono (fun t s₁ hpost ↦ ?_) fun _ _ ↦ id
    obtain ⟨hg₁, ht⟩ := hpost
    rw [ensures_bind]
    refine (ensures_visitSequence ih site 0 hg₁.valid henv hes ht).mono
      (fun w s₂ hpost ↦ ?_) fun _ _ ↦ id
    obtain ⟨hg₂, hw, hws⟩ := hpost
    refine ensures_recorded ⟨hg₁.trans hg₂, hw, fun θ hθ ↦ ?_⟩
    obtain ⟨ts, hlen, hts, hlast⟩ := hws θ hθ
    cases es with
    | nil => exact .emptySequence (hw.fill_mono hθ.mono)
    | cons e es =>
      refine .sequence hlen hts ?_
      cases ts with
      | nil => cases hlen
      | cons u us => rw [← hlast, List.getLastD_cons, List.getLast?_cons, List.getLastD_eq_getLast?]
  | branch c t e ihc iht ihe =>
    intro s env site hs henv hadm
    have hadm := (Expr.all_iff.1 hadm).2
    rw [visit, ensures_bind]
    refine (ihc _ hs henv (hadm c (by simp [Expr.children]))).mono (fun u s₁ h₁ ↦ ?_) fun _ _ ↦ id
    rw [ensures_bind]
    refine (iht _ h₁.grows.valid henv (hadm t (by simp [Expr.children]))).mono (fun v s₂ h₂ ↦ ?_)
      fun _ _ ↦ id
    rw [ensures_bind]
    refine (ihe _ h₂.grows.valid henv (hadm e (by simp [Expr.children]))).mono (fun w s₃ h₃ ↦ ?_)
      fun _ _ ↦ id
    rw [ensures_bind]
    refine (ensures_unify h₃.grows.valid h₂.simple h₃.simple).mono (fun x s₄ hpost ↦ ?_)
      fun _ _ ↦ id
    obtain ⟨hg₄, hx, heq⟩ := hpost
    refine ensures_recorded
      ⟨((h₁.grows.trans h₂.grows).trans h₃.grows).trans hg₄, hx, fun θ hθ ↦ ?_⟩
    have hθ₃ := hg₄.solution hθ
    have hθ₂ := h₃.grows.solution hθ₃
    obtain ⟨hv, hw⟩ := heq θ hθ.solves
    exact .branch (h₁.hasType θ (h₂.grows.solution hθ₂)) (hv ▸ h₂.hasType θ hθ₂)
      (hw ▸ h₃.hasType θ hθ₃)
  | cond cases ih =>
    intro s env site hs henv hadm
    have hadm := Expr.forall_mem_pairs.1 (Expr.all_iff.1 hadm).2
    rw [visit, ensures_bind]
    refine (ensures_newUnknown hs "Cond").mono (fun t s₁ hpost ↦ ?_) fun _ _ ↦ id
    obtain ⟨hg₁, ht⟩ := hpost
    rw [ensures_bind]
    refine (ensures_visitCases ih site _ 0 hg₁.valid henv hadm ht).mono (fun w s₂ hpost ↦ ?_)
      fun _ _ ↦ id
    obtain ⟨hg₂, hw, hws⟩ := hpost
    refine ensures_recorded ⟨hg₁.trans hg₂, hw, fun θ hθ ↦ ?_⟩
    obtain ⟨-, ⟨us, hlen, hus⟩, hvalues⟩ := hws θ hθ
    exact .cond (hw.fill_mono hθ.mono) hlen hus hvalues

/-! ## Whole trees -/

theorem valid_reset (s : InferenceState) : Valid s.reset :=
  ⟨wf_initial, acyclic_initial, nofun, nofun⟩

/-- Declared types have no unknowns. -/
theorem Declared.unknowns_eq (h : Declared t) : t.unknowns = [] := by
  refine List.eq_nil_iff_forall_not_mem.2 fun id hid ↦ ?_
  simpa [Node.Ordinary] using Built.unknown h hid

theorem openIn_eq_nil {store : Store} (henv : ∀ S ∈ env.values, Declared S) :
    openIn store env = [] :=
  openIn_of_unknowns fun S hS ↦ (henv S hS).unknowns_eq

theorem solved_declared (henv : ∀ S ∈ env.values, Declared S) :
    solved θ env = env.mapValues scheme :=
  congrArg OrdMap.mk (List.map_congr_left fun e he ↦
    Prod.ext rfl (henv e.2 (List.mem_map_of_mem he)).fill_scheme)

/-- Monotypes for the variables of a generalised type come from a solution. -/
theorem exists_solution {G : Ty} {σ : Subst} (hs : Valid s) (ht : t.Simple)
    (hopen : openIn s.store env = []) (hG : GeneralizedTo s.store env t G)
    (hσ : ∀ name ∈ G.freeVars, ∃ m, σ.get? name = some m ∧ m.Mono) :
    ∃ θ, Solution s.store θ ∧ t.fill θ = G.subst σ := by
  obtain ⟨name, -, rfl⟩ := hG
  simp only [hopen, List.not_mem_nil, if_false] at hσ ⊢
  have hnode := (hs.simple_apply ht).no_var_all
  let ρ : String → Ty := fun p ↦
    if p ∈ (s.store.apply t).unknowns then (Ty.var (name p)).subst σ else .unknown p
  refine ⟨fun id ↦ (s.store.apply (.unknown id)).fill ρ, ⟨hs.solves_fill ρ, fun id ↦ ?_⟩, ?_⟩
  · refine (hs.simple_apply (simple_unknown id)).fill_mono fun p ↦ ?_
    simp only [ρ]
    split
    · rename_i hp
      obtain ⟨m, hm, hmono⟩ := hσ (name p)
        (mem_freeVars_fill (Built.mono hnode fun _ ↦ And.right) hp (by simp))
      rwa [subst_var, hm, Option.getD_some]
    · exact mono_unknown p
  · rw [subst_fill hnode, ← fill_fill, ← Store.apply_eq_fill]
    exact fill_congr fun p hp ↦ if_pos hp

theorem ensures_inferTree {tree : Tree} (henv : ∀ S ∈ env.values, Declared S)
    (htree : tree.root.All Admissible) :
    Ensures (inferTree env tree) s
      (fun G _ ↦ ∀ σ : Subst, (∀ name ∈ G.freeVars, ∃ m, σ.get? name = some m ∧ m.Mono) →
        HasType (env.mapValues scheme) tree.root (G.subst σ))
      (fun _ _ ↦ True) := by
  have hs : Valid { s.reset with log := s.reset.log.push (.inferring tree.root) } :=
    (valid_reset s).congr rfl rfl
  rw [inferTree, ensures_bind, ensures_modify, ensures_bind, ensures_tell, ensures_bind]
  refine (sound tree.root tree.site hs (fun S hS ↦ (henv S hS).regular) htree).mono
    (fun t s₁ h₁ ↦ ?_) fun _ _ ↦ id
  rw [ensures_bind]
  refine (ensures_generalize h₁.grows.valid env t).mono ?_ fun _ _ ↦ id
  rintro ⟨G, naming⟩ s₂ ⟨-, -, hG⟩
  rw [ensures_bind, ensureSolved, ensures_ite]
  refine ⟨fun _ σ hσ ↦ ?_, fun _ ↦ trivial⟩
  obtain ⟨θ, hθ, hfill⟩ := exists_solution h₁.grows.valid h₁.simple (openIn_eq_nil henv) hG hσ
  have h := h₁.hasType θ hθ
  rwa [solved_declared henv, hfill] at h

/-- **Inference is sound.**  If `inferTree` gives a tree the type `T` in an environment of declared
types, the typing rules derive every instance of `T` by monotypes, with the types of the environment
read as schemes. -/
theorem hasType_of_inferTree {tree : Tree} {T : Ty} (hrun : ((inferTree env tree).run s).1 = .ok T)
    (henv : ∀ S ∈ env.values, Declared S) (htree : tree.root.All Admissible) (σ : Subst)
    (hσ : ∀ name ∈ T.freeVars, ∃ m, σ.get? name = some m ∧ m.Mono) :
    HasType (env.mapValues scheme) tree.root (T.subst σ) :=
  (ensures_ok (Prod.ext hrun rfl)).1 (ensures_inferTree henv htree) σ hσ

/-- A polymorphic name and one that is not. -/
def sampleEnv : Env :=
  .ofList [("cons", .all ["A"] (function [.var "A", list (.var "A"), list (.var "A")])),
    ("flag", boolean)]

/-- The identity is used at three types, and a recursive function with two arguments at one. -/
def sampleTree : Tree where
  number := 1
  root := .letIn [(.binding "id" none, .lambda [.binding "x" none] (.var "x"))]
    (.letrec [(.binding "loop" none, .lambda [.binding "f" none, .binding "z" none]
        (.branch (.var "flag") (.var "z")
          (.call (.var "loop") [.var "f", .call (.var "f") [.var "z"]])))]
      (.lambda [.binding "y" none] (.call (.call (.var "id") [.var "cons"])
        [.call (.call (.var "id") [.var "id"]) [.var "y"],
          .call (.var "loop") [.lambda [.binding "l" none] (.var "l"), .list [.var "y"]]])))
  revision := 0

theorem hasType_of_inferTree_sample :
    (∀ S ∈ sampleEnv.values, Declared S) ∧ sampleTree.root.All Admissible ∧
      ((inferTree sampleEnv sampleTree).run .initial).1 =
        .ok (function [.var "a", list (.var "a")]) ∧
      HasType (sampleEnv.mapValues scheme) sampleTree.root
        (function [procedure integer, list (procedure integer)]) := by
  have henv : ∀ S ∈ sampleEnv.values, Declared S := by decide +kernel
  have htree : sampleTree.root.All Admissible := by decide +kernel
  have hrun : ((inferTree sampleEnv sampleTree).run .initial).1 =
      .ok (function [.var "a", list (.var "a")]) := by decide +kernel
  refine ⟨henv, htree, hrun, ?_⟩
  exact hasType_of_inferTree hrun henv htree (.ofList [("a", procedure integer)]) fun name hname ↦
    ⟨procedure integer, by simp_all [function, list]; rfl, (simple_procedure.2
      (simple_atom (by decide) (by decide))).mono⟩

end SchemeTyping.Infer
