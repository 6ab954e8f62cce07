import Mathlib.Data.List.Forall2

/-!
# Specifications of stateful steps with failures

The forest, the generalisation, the inference, the checker and the edits run in the same kind of
monad, `ExceptT ε (StateM σ)`: failures keep the state.  `Ensures x s Q E` says of the step `x`
started in the state `s` that a result satisfies `Q` together with the state it leaves, and a
failure satisfies `E`.

Every construct of the monad has one law here, an equivalence that rewriting can use.  Nothing after
this file unfolds the monad.
-/

set_option autoImplicit false

namespace SchemeTyping

variable {ε σ α β : Type}

/-- A result of `x` from `s` satisfies `Q` with the state it leaves, and a failure satisfies `E`. -/
def Ensures (x : ExceptT ε (StateM σ) α) (s : σ) (Q : α → σ → Prop) (E : ε → σ → Prop) : Prop :=
  match x.run s with
  | (.ok a, s') => Q a s'
  | (.error e, s') => E e s'

theorem ensures_ok {x : ExceptT ε (StateM σ) α} {s s' : σ} {a : α} {Q : α → σ → Prop}
    {E : ε → σ → Prop} (h : x.run s = (.ok a, s')) : Ensures x s Q E ↔ Q a s' := by
  rw [Ensures, h]

theorem ensures_error {x : ExceptT ε (StateM σ) α} {s s' : σ} {e : ε} {Q : α → σ → Prop}
    {E : ε → σ → Prop} (h : x.run s = (.error e, s')) : Ensures x s Q E ↔ E e s' := by
  rw [Ensures, h]

@[simp] theorem ensures_pure (a : α) (s : σ) (Q : α → σ → Prop) (E : ε → σ → Prop) :
    Ensures (pure a) s Q E ↔ Q a s := Iff.rfl

@[simp] theorem ensures_throw (e : ε) (s : σ) (Q : α → σ → Prop) (E : ε → σ → Prop) :
    Ensures (throw e) s Q E ↔ E e s := Iff.rfl

@[simp] theorem ensures_get (s : σ) (Q : σ → σ → Prop) (E : ε → σ → Prop) :
    Ensures get s Q E ↔ Q s s := Iff.rfl

@[simp] theorem ensures_set (s s' : σ) (Q : PUnit → σ → Prop) (E : ε → σ → Prop) :
    Ensures (set s') s Q E ↔ Q ⟨⟩ s' := Iff.rfl

@[simp] theorem ensures_modify (f : σ → σ) (s : σ) (Q : PUnit → σ → Prop) (E : ε → σ → Prop) :
    Ensures (modify f) s Q E ↔ Q ⟨⟩ (f s) := Iff.rfl

theorem run_bind (x : ExceptT ε (StateM σ) α) (f : α → ExceptT ε (StateM σ) β) (s : σ) :
    (x >>= f).run s = ExceptT.bindCont f (x.run s).1 (x.run s).2 := rfl

theorem run_bind_ok {x : ExceptT ε (StateM σ) α} {s s' : σ} {a : α} (h : x.run s = (.ok a, s'))
    (f : α → ExceptT ε (StateM σ) β) : (x >>= f).run s = (f a).run s' := by
  rw [run_bind, h]
  rfl

theorem run_bind_error {x : ExceptT ε (StateM σ) α} {s s' : σ} {e : ε}
    (h : x.run s = (.error e, s')) (f : α → ExceptT ε (StateM σ) β) :
    (x >>= f).run s = (.error e, s') := by
  rw [run_bind, h]
  rfl

theorem run_get_bind (f : σ → ExceptT ε (StateM σ) α) (s : σ) : (get >>= f).run s = (f s).run s :=
  rfl

@[simp] theorem ensures_bind (x : ExceptT ε (StateM σ) α) (f : α → ExceptT ε (StateM σ) β) (s : σ)
    (Q : β → σ → Prop) (E : ε → σ → Prop) :
    Ensures (x >>= f) s Q E ↔ Ensures x s (fun a s' ↦ Ensures (f a) s' Q E) E := by
  rw [Ensures, run_bind]
  rcases h : x.run s with ⟨e | a, s'⟩
  · rw [ensures_error h]; rfl
  · rw [ensures_ok h]; rfl

@[simp] theorem ensures_map (f : α → β) (x : ExceptT ε (StateM σ) α) (s : σ)
    (Q : β → σ → Prop) (E : ε → σ → Prop) :
    Ensures (f <$> x) s Q E ↔ Ensures x s (fun a s' ↦ Q (f a) s') E := by
  rw [map_eq_pure_bind, ensures_bind]
  rfl

@[simp] theorem ensures_ite (c : Prop) [Decidable c] (x y : ExceptT ε (StateM σ) α) (s : σ)
    (Q : α → σ → Prop) (E : ε → σ → Prop) :
    Ensures (if c then x else y) s Q E ↔
      (c → Ensures x s Q E) ∧ (¬ c → Ensures y s Q E) := by
  by_cases hc : c
  · simp [hc]
  · simp [hc]

theorem ensures_true (x : ExceptT ε (StateM σ) α) (s : σ) :
    Ensures x s (fun _ _ ↦ True) (fun _ _ ↦ True) := by
  rcases hrun : x.run s with ⟨e | a, s'⟩
  · exact (ensures_error hrun).2 trivial
  · exact (ensures_ok hrun).2 trivial

/-- `Ensures` is monotone in both postconditions. -/
theorem Ensures.mono {x : ExceptT ε (StateM σ) α} {s : σ} {Q Q' : α → σ → Prop}
    {E E' : ε → σ → Prop} (h : Ensures x s Q E) (hQ : ∀ a s', Q a s' → Q' a s')
    (hE : ∀ e s', E e s' → E' e s') : Ensures x s Q' E' := by
  rcases hr : x.run s with ⟨e | a, s'⟩
  · exact (ensures_error hr).2 (hE _ _ ((ensures_error hr).1 h))
  · exact (ensures_ok hr).2 (hQ _ _ ((ensures_ok hr).1 h))

theorem Ensures.and {x : ExceptT ε (StateM σ) α} {s : σ} {Q Q' : α → σ → Prop}
    {E E' : ε → σ → Prop} (h : Ensures x s Q E) (h' : Ensures x s Q' E') :
    Ensures x s (fun a s' ↦ Q a s' ∧ Q' a s') fun e s' ↦ E e s' ∧ E' e s' := by
  rcases hr : x.run s with ⟨e | a, s'⟩
  · exact (ensures_error hr).2 ⟨(ensures_error hr).1 h, (ensures_error hr).1 h'⟩
  · exact (ensures_ok hr).2 ⟨(ensures_ok hr).1 h, (ensures_ok hr).1 h'⟩

/-- `Ensures` for `mapM`.  A step for a member of `l` preserves `I` and establishes `Q`, and it
preserves what the steps before have established. -/
theorem ensures_mapM {f : α → ExceptT ε (StateM σ) β} {I : σ → Prop} {Q : α → β → σ → Prop}
    {E : ε → σ → Prop} {l : List α} (h : ∀ a ∈ l, ∀ s, I s → Ensures (f a) s
      (fun b s' ↦ I s' ∧ Q a b s' ∧ ∀ a b, Q a b s → Q a b s') E) {s : σ} (hs : I s) :
    Ensures (l.mapM f) s
      (fun bs s' ↦ I s' ∧ List.Forall₂ (Q · · s') l bs ∧ ∀ a b, Q a b s → Q a b s') E := by
  induction l generalizing s with
  | nil => simpa using hs
  | cons a l ih =>
    rw [List.forall_mem_cons] at h
    rw [List.mapM_cons, ensures_bind]
    refine (h.1 s hs).mono (fun b s₁ ⟨hI, hb, hkeep⟩ ↦ ?_) fun _ _ ↦ id
    rw [ensures_bind]
    refine (ih h.2 hI).mono (fun bs s₂ ⟨hI, hbs, hkeep'⟩ ↦ ?_) fun _ _ ↦ id
    rw [ensures_pure]
    exact ⟨hI, .cons (hkeep' a b hb) hbs, fun a b h ↦ hkeep' a b (hkeep a b h)⟩

theorem exists_mem_of_forall₂ {R : α → β → Prop} {as : List α} {bs : List β}
    (h : List.Forall₂ R as bs) {a : α} (ha : a ∈ as) : ∃ b ∈ bs, R a b := by
  induction h with
  | nil => cases ha
  | cons hab _ ih =>
    rcases List.mem_cons.1 ha with rfl | ha
    · exact ⟨_, List.mem_cons_self, hab⟩
    · obtain ⟨b, hb, hab⟩ := ih ha
      exact ⟨b, List.mem_cons_of_mem _ hb, hab⟩

theorem mapM_eq_some_iff {f : α → Option β} {as : List α} {bs : List β} :
    as.mapM f = some bs ↔ List.Forall₂ (f · = some ·) as bs := by
  induction as generalizing bs with
  | nil => simp [eq_comm]
  | cons a as ih =>
    simp only [List.mapM_cons, Option.bind_eq_bind, Option.bind_eq_some_iff, Option.pure_def,
      Option.some.injEq, List.forall₂_cons_left_iff, ih]
    grind

/-- `mapM` succeeds, with results in `Q`, if `f` does for every member. -/
theorem exists_mapM_eq_some {f : α → Option β} {Q : β → Prop} {as : List α}
    (h : ∀ a ∈ as, ∃ b, f a = some b ∧ Q b) : ∃ bs, as.mapM f = some bs ∧ ∀ b ∈ bs, Q b := by
  induction as with
  | nil => exact ⟨[], rfl, nofun⟩
  | cons a as ih =>
    rw [List.forall_mem_cons] at h
    obtain ⟨⟨b, hb, hQ⟩, hrest⟩ := h
    obtain ⟨bs, hbs, hQs⟩ := ih hrest
    exact ⟨b :: bs, by simp [List.mapM_cons, hb, hbs], List.forall_mem_cons.2 ⟨hQ, hQs⟩⟩

theorem run_tryCatch (x : ExceptT ε (StateM σ) α) (handle : ε → ExceptT ε (StateM σ) α) (s : σ) :
    (tryCatch x handle).run s = (match (x.run s).1 with
      | .ok a => (pure (.ok a) : StateM σ (Except ε α))
      | .error e => (handle e).run) (x.run s).2 := rfl

/-- `Ensures` for a handled failure: the handler is run in the state that the failure leaves. -/
@[simp] theorem ensures_tryCatch (x : ExceptT ε (StateM σ) α)
    (handle : ε → ExceptT ε (StateM σ) α) (s : σ) (Q : α → σ → Prop) (E : ε → σ → Prop) :
    Ensures (tryCatch x handle) s Q E ↔ Ensures x s Q (fun e s' ↦ Ensures (handle e) s' Q E) := by
  rw [Ensures, run_tryCatch]
  rcases h : x.run s with ⟨e | a, s'⟩
  · rw [ensures_error h]; rfl
  · rw [ensures_ok h]; rfl

end SchemeTyping
