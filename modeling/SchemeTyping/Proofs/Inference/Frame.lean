import Mathlib.Data.Set.Basic
import SchemeTyping.Inference.Rules
import SchemeTyping.Proofs.Expr
import SchemeTyping.Proofs.Outcome
import SchemeTyping.Proofs.Ty.Basic

/-!
# What inference leaves alone

`Framed K x` says of a step `x`, from any state, that it does not read the log, that it records
types at keys of `K` only, and that it changes the slot for diagnostics only by failing: then the
slot holds the diagnostic of the failure, if it has one.

All steps of inference are framed, and so is what is made of them.  For unification this is a case
of `UnifyLaws.unify`: it has every property of steps that its constructs preserve.  `framed_visit`
says that
visiting an expression writes at most at the keys of its parts (`spots`).  A list of expressions is
framed by any set of keys that frames its members (`RowFramed`), so that the lemmas on lists can be
used for a whole list and for the rest of one.
-/

set_option autoImplicit false

namespace SchemeTyping.Infer

open Ty

variable {α β : Type} {K L : Set CacheKey}

/-! ## Properties of the steps of unification -/

/-- A property of steps that all constructs of unification preserve. -/
structure UnifyLaws (P : ∀ {α : Type}, Infer α → Prop) : Prop where
  pure : ∀ {α : Type} (a : α), P (pure a : Infer α)
  throw : ∀ {α : Type} {f : Failure}, f.diagnostic? = none → P (throw f : Infer α)
  fail : ∀ {α : Type} (f : Failure), P (fail f : Infer α)
  tell : ∀ event, P (tell event)
  get : ∀ {α : Type} {f : InferenceState → Infer α}, (∀ s l, f { s with log := l } = f s) →
    (∀ s, P (f s)) → P (get >>= f)
  bind : ∀ {α β : Type} {x : Infer α} {f : α → Infer β}, P x → (∀ a, P (f a)) → P (x >>= f)
  setValue : ∀ id t, P (onStore (Forest.setValue id t))
  union : ∀ id id', P (onStore (Forest.union Store.preferSolved id id'))

namespace UnifyLaws

variable {P : ∀ {α : Type}, Infer α → Prop}

theorem ite {c : Prop} [Decidable c] {x y : Infer α} (_ : UnifyLaws P) (hx : P x) (hy : P y) :
    P (if c then x else y) := by
  split
  · exact hx
  · exact hy

variable (h : UnifyLaws P)

include h

theorem mapM {f : α → Infer β} (hf : ∀ a, P (f a)) (l : List α) : P (l.mapM f) := by
  induction l with
  | nil => exact h.pure []
  | cons a l ih =>
    rw [List.mapM_cons]
    exact h.bind (hf a) fun b ↦ h.bind ih fun bs ↦ h.pure (b :: bs)

theorem applied (t : Ty) : P (applied t) :=
  h.get (fun _ _ ↦ rfl) fun _ ↦ h.ite (h.pure _) (h.throw rfl)

theorem solveAnew (side u : Ty) : P (solveAnew side u) := by
  cases side with
  | unknown id => exact h.setValue id u
  | _ => exact h.pure ()

theorem conclude (t₁ t₂ u : Ty) : P (conclude t₁ t₂ u) :=
  h.bind (h.solveAnew t₁ u) fun _ ↦ h.bind (h.solveAnew t₂ u) fun _ ↦ h.applied u

theorem bindUnknown (e₁ e₂ : Option Mention) (id : String) (t : Ty) :
    P (Infer.bind e₁ e₂ id t) := by
  refine h.bind (h.applied t) fun solution ↦ h.ite (h.bind (h.fail _) fun _ ↦ ?_) ?_
  all_goals
    dsimp only
    split
    · exact h.bind (h.union ..) fun _ ↦ h.bind (h.tell _) fun _ ↦ h.pure _
    · exact h.bind (h.setValue ..) fun _ ↦ h.bind (h.tell _) fun _ ↦ h.pure _

theorem unifyWithin (e₁ e₂ : Option Mention) (depth : Nat) (t₁ t₂ : Ty) :
    P (unifyWithin e₁ e₂ depth t₁ t₂) := by
  induction depth generalizing t₁ t₂ with
  | zero => exact h.throw rfl
  | succ depth ih =>
    rw [Infer.unifyWithin]
    refine h.bind (h.applied t₁) fun a₁ ↦ h.bind (h.applied t₂) fun a₂ ↦
      h.ite (h.pure a₁) (h.get (fun _ _ ↦ rfl) fun s ↦ ?_)
    dsimp only
    split
    · exact h.bindUnknown ..
    · exact h.bindUnknown ..
    · refine h.ite (h.throw rfl) (h.ite (h.throw rfl) ?_)
      refine h.ite (h.applied _) (h.ite (h.applied _) ?_)
      refine h.ite (h.conclude ..) (h.ite ?_ ?_)
      · exact h.bind (h.mapM (fun p : Ty × Ty ↦ ih p.1 p.2) _) fun _ ↦ h.conclude ..
      · exact h.bind (h.fail _) fun _ ↦ h.conclude ..

theorem unify (t₁ t₂ : Ty) (e₁ e₂ : Option Mention) : P (unify t₁ t₂ e₁ e₂) :=
  h.bind (h.applied t₁) fun _ ↦ h.bind (h.applied t₂) fun _ ↦
    h.get (fun _ _ ↦ rfl) fun _ ↦ h.unifyWithin ..

end UnifyLaws

/-! ## Framed steps -/

/-- The step writes at keys of `K` only, does not read the log, and leaves a diagnostic only by
failing. -/
structure Framed (K : Set CacheKey) (x : Infer α) : Prop where
  log : ∀ s l, ∃ l', x.run { s with log := l } = ((x.run s).1, { (x.run s).2 with log := l' })
  cache : ∀ s, ∀ key ∉ K, (x.run s).2.types.get? key = s.types.get? key
  slot : ∀ s, Ensures x s (fun _ s' ↦ s'.error = s.error)
    (fun f s' ↦ s'.error = f.diagnostic?.or s.error)

/-! ## Constructs -/

theorem Framed.mono {x : Infer α} (h : Framed K x) (hKL : K ⊆ L) : Framed L x :=
  ⟨h.log, fun s key hkey ↦ h.cache s key fun hk ↦ hkey (hKL hk), h.slot⟩

theorem framed_pure (a : α) : Framed K (pure a : Infer α) :=
  ⟨fun _ l ↦ ⟨l, rfl⟩, fun _ _ _ ↦ rfl, fun _ ↦ rfl⟩

theorem framed_throw {f : Failure} (hf : f.diagnostic? = none) : Framed K (throw f : Infer α) := by
  refine ⟨fun _ l ↦ ⟨l, rfl⟩, fun _ _ _ ↦ rfl, fun s ↦ ?_⟩
  rw [ensures_throw, hf, Option.none_or]

theorem framed_fail (f : Failure) : Framed K (fail f : Infer α) := by
  rw [fail]
  cases hf : f.diagnostic? with
  | none => exact framed_throw hf
  | some d =>
    refine ⟨fun _ l ↦ ⟨l, rfl⟩, fun _ _ _ ↦ rfl, fun s ↦ ?_⟩
    change some d = f.diagnostic?.or s.error
    rw [hf, Option.some_or]

theorem framed_modify {h : InferenceState → InferenceState}
    (hlog : ∀ s l, ∃ l', h { s with log := l } = { h s with log := l' })
    (hcache : ∀ s, ∀ key ∉ K, (h s).types.get? key = s.types.get? key)
    (hslot : ∀ s, (h s).error = s.error) : Framed K (modify h : Infer PUnit) := by
  refine ⟨fun s l ↦ ?_, hcache, hslot⟩
  obtain ⟨l', hl⟩ := hlog s l
  exact ⟨l', congrArg (Prod.mk (Except.ok ⟨⟩ : Except Failure PUnit)) hl⟩

theorem Framed.bind {x : Infer α} {f : α → Infer β} (hx : Framed K x) (hf : ∀ a, Framed K (f a)) :
    Framed K (x >>= f) := by
  refine ⟨fun s l ↦ ?_, fun s key hkey ↦ ?_, fun s ↦ ?_⟩
  · obtain ⟨l₁, hl₁⟩ := hx.log s l
    rw [run_bind, run_bind, hl₁]
    rcases x.run s with ⟨e | a, s₁⟩
    · exact ⟨l₁, rfl⟩
    · exact (hf a).log s₁ l₁
  · have hx := hx.cache s key hkey
    rw [run_bind]
    rcases hrun : x.run s with ⟨e | a, s₁⟩ <;> rw [hrun] at hx
    · exact hx
    · exact ((hf a).cache s₁ key hkey).trans hx
  · rw [ensures_bind]
    refine (hx.slot s).mono (fun a s₁ hslot ↦ ?_) fun _ _ ↦ id
    rw [← hslot]
    exact (hf a).slot s₁

/-- The outcome of a framed step does not depend on the log. -/
theorem Framed.ensures_log {x : Infer α} (h : Framed K x) {s : InferenceState} {l : Array Event}
    {Q : α → InferenceState → Prop} {E : Failure → InferenceState → Prop}
    (hx : Ensures x s (fun a s' ↦ ∀ l, Q a { s' with log := l }) fun f s' ↦
      ∀ l, E f { s' with log := l }) :
    Ensures x { s with log := l } Q E := by
  obtain ⟨l', hl⟩ := h.log s l
  rcases hrun : x.run s with ⟨f | a, s'⟩ <;> rw [hrun] at hl
  · exact (ensures_error hl).2 ((ensures_error hrun).1 hx l')
  · exact (ensures_ok hl).2 ((ensures_ok hrun).1 hx l')

/-- A step may read everything in the state but the log. -/
theorem framed_get {f : InferenceState → Infer α} (hlog : ∀ s l, f { s with log := l } = f s)
    (hf : ∀ s, Framed K (f s)) : Framed K (get >>= f) := by
  refine ⟨fun s l ↦ ?_, fun s ↦ (hf s).cache s, fun s ↦ (hf s).slot s⟩
  change ∃ l', (f { s with log := l }).run _ = _
  rw [hlog]
  exact (hf s).log s l

theorem Framed.ensures_cache {x : Infer α} (h : Framed K x) (s : InferenceState) :
    Ensures x s (fun _ s' ↦ ∀ key ∉ K, s'.types.get? key = s.types.get? key) (fun _ _ ↦ True) := by
  have hcache := h.cache s
  rcases hrun : x.run s with ⟨f | a, s'⟩ <;> rw [hrun] at hcache
  · exact (ensures_error hrun).2 trivial
  · exact (ensures_ok hrun).2 hcache

theorem framed_ite {c : Prop} [Decidable c] {x y : Infer α} (hx : Framed K x) (hy : Framed K y) :
    Framed K (if c then x else y) := by
  split
  · exact hx
  · exact hy

/-! ## Steps -/

theorem framed_tell (event : Event) : Framed K (tell event) :=
  framed_modify (fun _ l ↦ ⟨l.push event, rfl⟩) (fun _ _ _ ↦ rfl) fun _ ↦ rfl

theorem framed_onStore (op : Forest.Op String Ty α) : Framed K (onStore op) := by
  refine framed_get (fun _ _ ↦ rfl) fun s ↦
    .bind (framed_modify (fun _ l ↦ ⟨l, rfl⟩) (fun _ _ _ ↦ rfl) fun _ ↦ rfl) fun _ ↦ ?_
  split
  · exact framed_pure _
  · exact framed_throw rfl

theorem framed_laws : UnifyLaws (Framed K) where
  pure := framed_pure
  throw := framed_throw
  fail := framed_fail
  tell := framed_tell
  get := framed_get
  bind := Framed.bind
  setValue _ _ := framed_onStore _
  union _ _ := framed_onStore _

theorem framed_applied (t : Ty) : Framed K (applied t) := framed_laws.applied t

theorem framed_unify (t₁ t₂ : Ty) (e₁ e₂ : Option Mention) : Framed K (unify t₁ t₂ e₁ e₂) :=
  framed_laws.unify t₁ t₂ e₁ e₂

theorem framed_newUnknown (stem : String) : Framed K (newUnknown stem) :=
  framed_get (fun _ _ ↦ rfl) fun _ ↦
    .bind (framed_modify (fun _ l ↦ ⟨l, rfl⟩) (fun _ _ _ ↦ rfl) fun _ ↦ rfl) fun _ ↦ framed_pure _

theorem framed_record {site : Site} (hsite : site.key ∈ K) (t : Ty) : Framed K (record site t) := by
  refine framed_modify (fun _ l ↦ ⟨l, rfl⟩) (fun s key hkey ↦ ?_) fun _ ↦ rfl
  rw [OrdMap.get?_insert, if_neg]
  rintro rfl
  exact hkey hsite

/-- Naming fails without a diagnostic. -/
theorem ensures_nameOf_silent (id : String) (st : NamingState) :
    Ensures (nameOf id) st (fun _ _ ↦ True) (fun f _ ↦ f.diagnostic? = none) := by
  rw [nameOf, ensures_bind, ensures_get]
  split
  · trivial
  · rcases hrun : (Forest.setValue id (Ty.var st.names.fresh.1)).run st.naming with ⟨_ | _, naming⟩
    · simp only [hrun]
      rfl
    · simp only [hrun]
      trivial

theorem ensures_nameUnknownsList_silent {fixed : List String} {ts : List Ty}
    (ih : ∀ t ∈ ts, ∀ st, Ensures (nameUnknowns fixed t) st (fun _ _ ↦ True)
      (fun f _ ↦ f.diagnostic? = none)) (st : NamingState) :
    Ensures (nameUnknownsList fixed ts) st (fun _ _ ↦ True) (fun f _ ↦ f.diagnostic? = none) := by
  induction ts generalizing st with
  | nil => trivial
  | cons t ts ih' =>
    rw [List.forall_mem_cons] at ih
    rw [nameUnknownsList, ensures_bind]
    refine (ih.1 st).mono (fun _ st₁ _ ↦ ?_) fun _ _ ↦ id
    rw [ensures_bind]
    exact (ih' ih.2 st₁).mono (fun _ _ _ ↦ trivial) fun _ _ ↦ id

theorem ensures_nameUnknowns_silent (fixed : List String) (t : Ty) (st : NamingState) :
    Ensures (nameUnknowns fixed t) st (fun _ _ ↦ True) (fun f _ ↦ f.diagnostic? = none) := by
  induction t generalizing st with
  | var name => trivial
  | unknown id =>
    rw [nameUnknowns, ensures_ite]
    exact ⟨fun _ ↦ trivial, fun _ ↦ ensures_nameOf_silent id st⟩
  | con tag ps ih | variadic min max ps ih =>
    rw [nameUnknowns, ensures_bind]
    exact (ensures_nameUnknownsList_silent ih st).mono (fun _ _ _ ↦ trivial) fun _ _ ↦ id
  | all bound body ih =>
    rw [nameUnknowns, ensures_bind]
    exact (ih st).mono (fun _ _ _ ↦ trivial) fun _ _ ↦ id

theorem diagnostic?_of_generalizeWith {naming : Store} {env : Env} {t : Ty} {f : Failure}
    (h : (generalizeWith naming env t).1 = .error f) : f.diagnostic? = none := by
  rw [generalizeWith] at h
  split at h
  · exact (ensures_error (x := nameUnknowns _ _) (Prod.ext h rfl)).1
      (ensures_nameUnknowns_silent ..)
  · cases h
    rfl

theorem framed_generalizeNamed (naming : Store) (env : Env) (t : Ty) :
    Framed K (generalizeNamed naming env t) := by
  rw [generalizeNamed]
  rcases hrun : generalizeWith naming env t with ⟨f | G, naming'⟩
  · exact framed_throw (diagnostic?_of_generalizeWith (congrArg Prod.fst hrun))
  · exact (framed_tell _).bind fun _ ↦ framed_pure _

theorem framed_generalize (env : Env) (t : Ty) : Framed K (generalize env t) :=
  framed_get (fun _ _ ↦ rfl) fun _ ↦ framed_generalizeNamed ..

theorem framed_instantiateList {ts : List Ty}
    (ih : ∀ t ∈ ts, ∀ instances, Framed K (instantiateWith instances t)) (instances : Env) :
    Framed K (instantiateList instances ts) := by
  induction ts generalizing instances with
  | nil => exact framed_pure _
  | cons t ts ih' =>
    rw [List.forall_mem_cons] at ih
    rw [instantiateList]
    exact (ih.1 instances).bind fun r ↦ (ih' ih.2 r.2).bind fun _ ↦ framed_pure _

theorem framed_instantiateWith (t : Ty) (instances : Env) :
    Framed K (instantiateWith instances t) := by
  induction t generalizing instances with
  | unknown id => exact framed_pure _
  | var name =>
    rw [instantiateWith]
    split
    · exact framed_pure _
    · exact (framed_newUnknown name).bind fun _ ↦ framed_pure _
  | con tag ps ih | variadic min max ps ih =>
    rw [instantiateWith]
    exact (framed_instantiateList ih instances).bind fun _ ↦ framed_pure _
  | all bound body ih =>
    rw [instantiateWith]
    exact ih instances

theorem framed_instantiate (t : Ty) : Framed K (instantiate t) :=
  (framed_instantiateWith t ∅).bind fun _ ↦ framed_pure _

theorem framed_identifier (e : Expr) : Framed K (identifier e) := by
  rw [identifier]
  split
  · exact framed_pure _
  · exact framed_throw rfl

theorem framed_binderType (binder : Expr) (stem : String) : Framed K (binderType binder stem) := by
  rw [binderType]
  split
  · exact framed_instantiate _
  · exact framed_newUnknown stem

theorem framed_valueType (binder : Expr) (found : Ty) (e₁ e₂ : Option Mention) :
    Framed K (valueType binder found e₁ e₂) := by
  rw [valueType]
  split
  · exact (framed_instantiate _).bind fun _ ↦ framed_unify ..
  · exact framed_pure _

theorem framed_paramTypes (params : List Expr) : Framed K (paramTypes params) := by
  induction params with
  | nil => exact framed_pure _
  | cons p ps ih =>
    rw [paramTypes]
    exact (framed_identifier p).bind fun name ↦ (framed_binderType p name).bind fun _ ↦
      ih.bind fun _ ↦ framed_pure _

theorem framed_recursiveTypes (bindings : List (Expr × Expr)) (known : Env) :
    Framed K (recursiveTypes bindings known) := by
  induction bindings generalizing known with
  | nil => exact framed_pure _
  | cons b bs ih =>
    rw [recursiveTypes]
    exact framed_ite (ih known) ((framed_identifier b.1).bind fun name ↦
      (framed_binderType b.1 name).bind fun _ ↦ ih _)

theorem framed_generalizeAll (env : Env) (bs : List (String × Ty)) :
    Framed K (generalizeAll env bs) := by
  induction bs with
  | nil => exact framed_pure _
  | cons b bs ih =>
    rw [generalizeAll]
    exact (framed_generalize env b.2).bind fun _ ↦ ih.bind fun _ ↦ framed_pure _

theorem framed_plan (c : CallSite) : Framed K (plan c) := by
  rw [plan]
  split
  · exact framed_ite ((framed_newUnknown _).bind fun _ ↦ (framed_unify ..).bind fun _ ↦
      (framed_applied _).bind fun _ ↦ framed_pure _) (framed_pure _)
  · exact framed_ite (framed_pure _) (framed_fail _)
  · split
    · exact framed_ite (framed_pure _) (framed_fail _)
    · exact framed_pure _
    · exact framed_pure _
    · exact framed_ite (framed_fail _) (framed_ite (framed_fail _) (framed_pure _))
  · exact framed_ite (framed_fail _) (framed_pure _)

/-! ## Lists of expressions -/

/-- Visiting the members of `es`, whose numbers increase by `step` from `index` on, is framed. -/
def RowFramed (K : Set CacheKey) (site : Site) (index step : Nat) (es : List Expr) : Prop :=
  ∀ i e, es[i]? = some e → ∀ env, Framed K (visit env (site.child (index + step * i)) e)

variable {site : Site} {env : Env}

theorem rowFramed_cons {index step : Nat} {e : Expr} {es : List Expr} :
    RowFramed K site index step (e :: es) ↔
      (∀ env, Framed K (visit env (site.child index) e)) ∧
        RowFramed K site (index + step) step es := by
  have hnext : ∀ i, index + step * (i + 1) = index + step + step * i := fun i ↦ by
    rw [Nat.mul_add_one]
    omega
  refine ⟨fun h ↦ ⟨h 0 e rfl, fun i e' hi env ↦ hnext i ▸ h (i + 1) e' hi env⟩,
    fun h i e' hi env ↦ ?_⟩
  cases i with
  | zero =>
    cases hi
    exact h.1 env
  | succ i =>
    rw [hnext]
    exact h.2 i e' hi env

theorem framed_visitAll {index : Nat} {es : List Expr} (h : RowFramed K site index 1 es) :
    Framed K (visitAll env site index es) := by
  induction es generalizing index with
  | nil => exact framed_pure _
  | cons e es ih =>
    rw [rowFramed_cons] at h
    rw [visitAll]
    exact (h.1 env).bind fun _ ↦ ih h.2

theorem framed_visitElements {index : Nat} {es : List Expr} (h : RowFramed K site index 1 es)
    (first : Option Mention) (t : Ty) : Framed K (visitElements env site index first t es) := by
  induction es generalizing index first t with
  | nil => exact framed_pure _
  | cons e es ih =>
    rw [rowFramed_cons] at h
    rw [visitElements]
    exact (h.1 env).bind fun _ ↦ (framed_unify ..).bind fun _ ↦ ih h.2 ..

theorem framed_visitSequence {index : Nat} {es : List Expr}
    (h : RowFramed K site index 1 es) (t : Ty) : Framed K (visitSequence env site index t es) := by
  induction es generalizing index t with
  | nil => exact framed_pure _
  | cons e es ih =>
    rw [rowFramed_cons] at h
    rw [visitSequence]
    exact (h.1 env).bind fun _ ↦ ih h.2 _

theorem framed_visitArgs {c : CallSite} {index : Nat} {args : List Expr}
    (h : RowFramed K c.site (index + 1) 1 args) (t : Ty) :
    Framed K (visitArgs env c index t args) := by
  induction args generalizing index t with
  | nil => exact framed_pure _
  | cons arg args ih =>
    rw [rowFramed_cons] at h
    rw [visitArgs]
    refine (framed_applied t).bind fun current ↦ framed_ite ?_ (framed_ite (framed_fail _) ?_)
    · exact (h.1 env).bind fun _ ↦ (framed_visitAll h.2).bind fun _ ↦ framed_pure _
    · exact (h.1 env).bind fun _ ↦ (framed_newUnknown _).bind fun _ ↦ (framed_unify ..).bind fun _ ↦
        (framed_applied _).bind fun _ ↦ ih h.2 _

theorem framed_visitCases {index : Nat} {cases : List (Expr × Expr)}
    (hc : RowFramed K site index 2 (cases.map (·.1)))
    (hv : RowFramed K site (index + 1) 2 (cases.map (·.2))) (whole : Mention) (t : Ty) :
    Framed K (visitCases env site whole index t cases) := by
  induction cases generalizing index t with
  | nil => exact framed_pure _
  | cons c cs ih =>
    rw [List.map_cons, rowFramed_cons] at hc hv
    rw [visitCases]
    exact (hc.1 env).bind fun _ ↦ (hv.1 env).bind fun _ ↦
      (framed_unify ..).bind fun _ ↦ ih hc.2 hv.2 _

theorem framed_visitLetValues {index : Nat} {bindings : List (Expr × Expr)}
    (h : RowFramed K site (index + 1) 2 (bindings.map (·.2))) :
    Framed K (visitLetValues env site index bindings) := by
  induction bindings generalizing index with
  | nil => exact framed_pure _
  | cons b bs ih =>
    rw [List.map_cons, rowFramed_cons] at h
    rw [visitLetValues]
    refine (h.1 env).bind fun _ ↦ (framed_valueType ..).bind fun _ ↦ framed_ite (ih h.2) ?_
    exact (framed_generalize ..).bind fun _ ↦
      (framed_identifier _).bind fun _ ↦ (ih h.2).bind fun _ ↦
      framed_pure _

theorem framed_visitRecursiveValues {index : Nat} {bindings : List (Expr × Expr)}
    (h : RowFramed K site (index + 1) 2 (bindings.map (·.2))) (recursive : Env) :
    Framed K (visitRecursiveValues env site recursive index bindings) := by
  induction bindings generalizing index with
  | nil => exact framed_pure _
  | cons b bs ih =>
    rw [List.map_cons, rowFramed_cons] at h
    rw [visitRecursiveValues]
    refine (h.1 env).bind fun _ ↦ framed_ite ?_ (ih h.2)
    exact (framed_identifier _).bind fun _ ↦ (framed_unify ..).bind fun _ ↦ ih h.2

theorem framed_visitNames {index : Nat} {bindings : List (Expr × Expr)}
    (h : RowFramed K site index 2 (bindings.map (·.1))) :
    Framed K (visitNames env site index bindings) := by
  induction bindings generalizing index with
  | nil => exact framed_pure _
  | cons b bs ih =>
    rw [List.map_cons, rowFramed_cons] at h
    rw [visitNames]
    exact (h.1 env).bind fun _ ↦ ih h.2

/-! ## All expressions -/

/-- The keys of the parts of `e` at `site`. -/
def spots (site : Site) (e : Expr) : Set CacheKey :=
  {key | key.tree = site.tree ∧ key.revision = site.revision ∧
    ∃ path, key.path = site.path ++ path ∧ (e.at? path).isSome}

theorem key_mem_spots (site : Site) (e : Expr) : site.key ∈ spots site e :=
  ⟨rfl, rfl, [], (List.append_nil _).symm, rfl⟩

theorem spots_child_subset {e c : Expr} {i : Nat} (hc : e.children[i]? = some c) :
    spots (site.child i) c ⊆ spots site e := by
  rintro key ⟨htree, hrevision, path, hpath, hat⟩
  refine ⟨htree, hrevision, (i : Int) :: path, ?_, ?_⟩
  · rw [hpath, Site.child, Path.child, List.append_assoc]
    rfl
  · rw [Expr.at?, Expr.child?_natCast, hc]
    exact hat

/-- Visiting `e` writes at the keys of its parts only. -/
def Contained (e : Expr) : Prop := ∀ env site, Framed (spots site e) (visit env site e)

theorem Contained.child {e c : Expr} {i : Nat} (h : Contained c) (hc : e.children[i]? = some c)
    (env : Env) (site : Site) : Framed (spots site e) (visit env (site.child i) c) :=
  (h env (site.child i)).mono (spots_child_subset hc)

/-- Children whose numbers increase by `step` from `index` on. -/
theorem rowFramed_children {e : Expr} {es : List Expr} {index step : Nat}
    (ih : ∀ c ∈ es, Contained c)
    (hes : ∀ i c, es[i]? = some c → e.children[index + step * i]? = some c) (site : Site) :
    RowFramed (spots site e) site index step es :=
  fun i c hi env ↦ (ih c (List.mem_of_getElem? hi)).child (hes i c hi) env site

/-- The names and values of bindings, or the conditions and values of cases. -/
theorem rowFramed_pairs {e : Expr} {bs : List (Expr × Expr)} {rest : List Expr}
    (ih : ∀ b ∈ bs, Contained b.1 ∧ Contained b.2)
    (hbs : e.children = (bs.flatMap fun b ↦ [b.1, b.2]) ++ rest) (site : Site) :
    RowFramed (spots site e) site 0 2 (bs.map (·.1)) ∧
      RowFramed (spots site e) site 1 2 (bs.map (·.2)) := by
  refine ⟨rowFramed_children (List.forall_mem_map.2 fun b hb ↦ (ih b hb).1) (fun i c hi ↦ ?_) site,
    rowFramed_children (List.forall_mem_map.2 fun b hb ↦ (ih b hb).2) (fun i c hi ↦ ?_) site⟩
  · rw [← (Expr.getElem?_pairs bs i).1] at hi
    rw [hbs, Nat.zero_add, List.getElem?_append_left (List.getElem?_eq_some_iff.1 hi).1, hi]
  · rw [← (Expr.getElem?_pairs bs i).2] at hi
    rw [hbs, Nat.add_comm 1, List.getElem?_append_left (List.getElem?_eq_some_iff.1 hi).1, hi]

theorem framed_recorded {e : Expr} (t : Ty) : Framed (spots site e) (do record site t; return t) :=
  (framed_record (key_mem_spots site e) t).bind fun _ ↦ framed_pure t

theorem contained_call {called : Expr} {args : List Expr} (ihc : Contained called)
    (ih : ∀ e ∈ args, Contained e) : Contained (.call called args) := by
  intro env site
  have hargs : RowFramed (spots site (.call called args)) site 1 1 args :=
    rowFramed_children ih (fun i c hi ↦ by rw [Nat.one_mul, Nat.add_comm]; exact hi) site
  rw [visit]
  refine (ihc.child rfl env site).bind fun _ ↦ (framed_applied _).bind fun _ ↦
    (framed_plan _).bind fun p ↦ ?_
  cases p with
  | done t => exact framed_recorded t
  | ignore t => exact (framed_visitAll hargs).bind fun _ ↦ framed_recorded t
  | consume t => exact (framed_visitArgs (c := ⟨_, _, _, _, _, _⟩) hargs t).bind framed_recorded

theorem contained_letIn {bindings : List (Expr × Expr)} {body : Expr}
    (ih : ∀ b ∈ bindings, Contained b.1 ∧ Contained b.2) (ihb : Contained body) :
    Contained (.letIn bindings body) := by
  intro env site
  obtain ⟨hnames, hvalues⟩ := rowFramed_pairs (e := .letIn bindings body) ih rfl site
  rw [visit]
  exact (framed_visitLetValues hvalues).bind fun _ ↦ (framed_visitNames hnames).bind fun _ ↦
    (ihb.child (Expr.getElem?_body bindings body) _ site).bind framed_recorded

theorem contained_letrec {bindings : List (Expr × Expr)} {body : Expr}
    (ih : ∀ b ∈ bindings, Contained b.1 ∧ Contained b.2) (ihb : Contained body) :
    Contained (.letrec bindings body) := by
  intro env site
  obtain ⟨hnames, hvalues⟩ := rowFramed_pairs (e := .letrec bindings body) ih rfl site
  rw [visit]
  exact (framed_recursiveTypes ..).bind fun _ ↦ (framed_visitRecursiveValues hvalues _).bind fun _ ↦
    (framed_generalizeAll ..).bind fun _ ↦ (framed_visitNames hnames).bind fun _ ↦
      (ihb.child (Expr.getElem?_body bindings body) _ site).bind framed_recorded

theorem contained_lambda {params : List Expr} {body : Expr} (ih : ∀ e ∈ params, Contained e)
    (ihb : Contained body) : Contained (.lambda params body) := by
  intro env site
  have hparams : RowFramed (spots site (.lambda params body)) site 0 1 params := by
    refine rowFramed_children ih (fun i c hi ↦ ?_) site
    rw [Nat.zero_add, Nat.one_mul, Expr.children,
      List.getElem?_append_left (List.getElem?_eq_some_iff.1 hi).1, hi]
  rw [visit]
  exact (framed_paramTypes params).bind fun _ ↦ (framed_visitAll hparams).bind fun _ ↦
    (ihb.child List.getElem?_concat_length _ site).bind fun _ ↦ framed_recorded _

theorem contained (e : Expr) : Contained e := by
  induction e with
  | list es ih =>
    intro env site
    rw [visit]
    exact (framed_newUnknown _).bind fun _ ↦ (framed_visitElements (rowFramed_children ih
      (fun i c hi ↦ by rw [Nat.zero_add, Nat.one_mul]; exact hi) site) ..).bind fun _ ↦
        framed_recorded _
  | sequence es ih =>
    intro env site
    rw [visit]
    exact (framed_newUnknown _).bind fun _ ↦ (framed_visitSequence (rowFramed_children ih
      (fun i c hi ↦ by rw [Nat.zero_add, Nat.one_mul]; exact hi) site) ..).bind framed_recorded
  | call called args ihc ih => exact contained_call ihc ih
  | letIn bindings body ih ihb => exact contained_letIn ih ihb
  | letrec bindings body ih ihb => exact contained_letrec ih ihb
  | lambda params body ih ihb => exact contained_lambda ih ihb
  | define name value ihn ih =>
    intro env site
    rw [visit]
    exact (framed_identifier name).bind fun _ ↦ (framed_binderType ..).bind fun _ ↦
      (ih.child rfl _ site).bind fun _ ↦ (framed_unify ..).bind fun _ ↦
        (ihn.child rfl _ site).bind fun _ ↦ framed_recorded _
  | branch c t e ihc iht ihe =>
    intro env site
    rw [visit]
    exact (ihc.child rfl _ site).bind fun _ ↦ (iht.child rfl _ site).bind fun _ ↦
      (ihe.child rfl _ site).bind fun _ ↦ (framed_unify ..).bind framed_recorded
  | cond cases ih =>
    intro env site
    obtain ⟨hconditions, hvalues⟩ :=
      rowFramed_pairs (e := .cond cases) ih (List.append_nil _).symm site
    rw [visit]
    exact (framed_newUnknown _).bind fun _ ↦ (framed_visitCases hconditions hvalues ..).bind
      framed_recorded
  | number | bool | string | null =>
    intro env site
    rw [visit]
    exact framed_recorded _
  | hole =>
    intro env site
    rw [visit]
    exact (framed_newUnknown _).bind framed_recorded
  | binding name | var name =>
    intro env site
    rw [visit]
    split
    · exact (framed_instantiate _).bind framed_recorded
    · exact (framed_fail _).bind framed_recorded

end SchemeTyping.Infer
