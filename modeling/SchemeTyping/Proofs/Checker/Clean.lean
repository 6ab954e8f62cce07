import SchemeTyping.Proofs.Checker.Frame
import SchemeTyping.Proofs.Checker.Mirror
import SchemeTyping.Proofs.Checker.Typing

/-!
# Checks without diagnostics

`Clean Γ e t g` describes a check of `e` that records no diagnostic: names have the types of `Γ`,
the type of `e` is `t`, and `g` gives the types that are found at `e` and below it.  It has one
constructor for every kind of expression, with lists of the types of the children, and no state:
only the rules that the checker follows when nothing goes wrong.

`checked` says that the checker returns for every expression without definitions whose names are in
slots, and that what it has done is described by `Clean` unless it has recorded a diagnostic.  There
is one lemma for every loop of the rules and one for every kind of expression with children.

The names and values of bindings alternate as children, so a loop works at children whose numbers
increase by one or by two (`Steps`).
-/

set_option autoImplicit false

namespace SchemeTyping.Check

open Ty

/-! ## Clean checks -/

/-- The slots of a list of bindings. -/
abbrev slots (bindings : List (Expr × Expr)) : List Expr := bindings.map (·.1)

/-- The types of the names of a `letrec` once their values have the types `ts`: declared names keep
theirs. -/
def settled (Γ : Env) : List Expr → List Ty → Env
  | .binding name none :: slots, t :: ts => settled (Γ.insert name t) slots ts
  | _ :: slots, _ :: ts => settled Γ slots ts
  | _, _ => Γ

theorem settled_of_declared {Γ : Env} {slots : List Expr} {ts : List Ty}
    (h : ∀ slot ∈ slots, slot.declared?.isSome) : settled Γ slots ts = Γ := by
  fun_induction settled Γ slots ts with
  | case1 Γ name slots t ts ih => cases (List.forall_mem_cons.1 h).1
  | case2 Γ slot slots t ts hslot ih => exact ih (List.forall_mem_cons.1 h).2
  | case3 => rfl

/-- The type `t` of a value is a subtype of the declared type of its slot, if there is one. -/
def Fits (slot : Expr) (t : Ty) : Prop := ∀ d ∈ slot.declared?, t.isSubtype d = true

theorem fits_of_none {slot : Expr} (h : slot.declared? = none) (t : Ty) : Fits slot t := by
  simp [Fits, h]

/-- `Clean Γ e t g`: a check of `e` in `Γ` without diagnostics finds `t`, and leaves `g` at `e` and
below it. -/
inductive Clean : Env → Expr → Ty → (Path → Option Ty) → Prop
  | literal {Γ : Env} {e : Expr} {t : Ty} {g : Path → Option Ty} (hg : g [] = some t)
    (h : literalType? e = some t) : Clean Γ e t g
  | hole {Γ : Env} {g : Path → Option Ty} (hg : g [] = some untyped) : Clean Γ .hole untyped g
  | name {Γ : Env} {e : Expr} {name : String} {t : Ty} {g : Path → Option Ty} (hg : g [] = some t)
    (hname : e.name? = some name) (h : Γ.get? name = some t) : Clean Γ e t g
  | list {Γ : Env} {es : List Expr} {ts : List Ty} {g : Path → Option Ty}
    (hg : g [] = some (list (ts.foldl join never))) (hlen : ts.length = es.length)
    (hes : ∀ i e t, es[i]? = some e → ts[i]? = some t → Clean Γ e t (under g i)) :
    Clean Γ (.list es) (list (ts.foldl join never)) g
  | sequence {Γ : Env} {es : List Expr} {ts : List Ty} {g : Path → Option Ty}
    (hg : g [] = some (ts.getLast?.getD untyped)) (hlen : ts.length = es.length)
    (hes : ∀ i e t, es[i]? = some e → ts[i]? = some t → Clean Γ e t (under g i)) :
    Clean Γ (.sequence es) (ts.getLast?.getD untyped) g
  | branch {Γ : Env} {c a b : Expr} {u t t' : Ty} {g : Path → Option Ty}
    (hg : g [] = some (t.join t')) (hc : Clean Γ c u (under g 0)) (ha : Clean Γ a t (under g 1))
    (hb : Clean Γ b t' (under g 2)) :
    Clean Γ (.branch c a b) (t.join t') g
  | cond {Γ : Env} {cases : List (Expr × Expr)} {us ts : List Ty} {g : Path → Option Ty}
    (hg : g [] = some (ts.foldl join never)) (hlen : us.length = cases.length)
    (hlen' : ts.length = cases.length)
    (hconds : ∀ i c u, cases[i]? = some c → us[i]? = some u → Clean Γ c.1 u (under g (2 * i)))
    (hvalues : ∀ i c t, cases[i]? = some c → ts[i]? = some t →
      Clean Γ c.2 t (under g (2 * i + 1))) :
    Clean Γ (.cond cases) (ts.foldl join never) g
  /-- `ts` are the expected types of the parameters; a declared type takes precedence. -/
  | lambda {Γ : Env} {params : List Expr} {body : Expr} {ts us : List Ty} {r : Ty}
    {g : Path → Option Ty} (hg : g [] = some (function (paramTypes params ts ++ [r])))
    (hlen : ts.length = params.length) (hlen' : us.length = params.length)
    (hparams : ∀ i p u, params[i]? = some p → us[i]? = some u →
      Clean (bindSlots Γ params (paramTypes params ts)) p u (under g i))
    (hbody : Clean (bindSlots Γ params (paramTypes params ts)) body r (under g params.length)) :
    Clean Γ (.lambda params body) (function (paramTypes params ts ++ [r])) g
  /-- The arguments of a call whose type does not depend on them. -/
  | ignore {Γ : Env} {f : Expr} {args : List Expr} {m : Mention} {T R : Ty} {ts : List Ty}
    {g : Path → Option Ty} (hg : g [] = some R) (hf : Clean Γ f T (under g 0))
    (hplan : plan m args.length (asFunction (unquantified T).2) = .ignore R)
    (hlen : ts.length = args.length)
    (hargs : ∀ i e t, args[i]? = some e → ts[i]? = some t → Clean Γ e t (under g (i + 1))) :
    Clean Γ (.call f args) R g
  /-- Arguments are checked as long as there are parameters. -/
  | call {Γ : Env} {f : Expr} {args : List Expr} {m : Mention} {T r R : Ty} {params ts : List Ty}
    {g : Path → Option Ty} (hg : g [] = some R) (hf : Clean Γ f T (under g 0))
    (hplan : plan m args.length (asFunction (unquantified T).2) = .solve params r)
    (hlen : ts.length = min args.length params.length)
    (hargs : ∀ i e t, args[i]? = some e → ts[i]? = some t → Clean Γ e t (under g (i + 1)))
    (hrest : ∀ i, ts.length ≤ i → i < args.length → ∀ path, under g (i + 1) path = none)
    (hresult : callResult (unquantified T).1 ts params r = .result R) : Clean Γ (.call f args) R g
  | letIn {Γ : Env} {bindings : List (Expr × Expr)} {body : Expr} {ts us : List Ty} {t : Ty}
    {g : Path → Option Ty} (hg : g [] = some t) (hfits : List.Forall₂ Fits (slots bindings) ts)
    (hlen : us.length = bindings.length)
    (hvalues : ∀ i b u, bindings[i]? = some b → ts[i]? = some u →
      Clean Γ b.2 u (under g (2 * i + 1)))
    (hnames : ∀ i b u, bindings[i]? = some b → us[i]? = some u →
      Clean (bindSlots Γ (slots bindings) (paramTypes (slots bindings) ts)) b.1 u (under g (2 * i)))
    (hbody : Clean (bindSlots Γ (slots bindings) (paramTypes (slots bindings) ts)) body t
      (under g (2 * bindings.length))) :
    Clean Γ (.letIn bindings body) t g
  /-- A value is checked with the types that were found for the values before it. -/
  | letrec {Γ Δ : Env} {bindings : List (Expr × Expr)} {body : Expr} {ts us : List Ty} {t : Ty}
    {g : Path → Option Ty} (hg : g [] = some t)
    (hΔ : Δ = bindSlots Γ (slots bindings)
      (paramTypes (slots bindings) (List.replicate bindings.length untyped)))
    (hfits : List.Forall₂ Fits (slots bindings) ts) (hlen : us.length = bindings.length)
    (hvalues : ∀ i b u, bindings[i]? = some b → ts[i]? = some u →
      Clean (settled Δ (slots (bindings.take i)) ts) b.2 u (under g (2 * i + 1)))
    (hnames : ∀ i b u, bindings[i]? = some b → us[i]? = some u →
      Clean (settled Δ (slots bindings) ts) b.1 u (under g (2 * i)))
    (hbody : Clean (settled Δ (slots bindings) ts) body t (under g (2 * bindings.length))) :
    Clean Γ (.letrec bindings body) t g

variable {α β : Type} {w : Surroundings} {context : Context} {spot : Spot} {s : CheckerState}

/-! ## Single children -/

/-- Wherever the checker meets `e`, it returns, and the check is `Clean` unless a diagnostic was
recorded. -/
def Checked (w : Surroundings) (e : Expr) : Prop :=
  ∀ (context : Context) (spot : Spot) (expected : Option Ty) (s : CheckerState),
    Ready (region w spot) s →
    Ensures (synth w context spot expected e) s
      (fun t s' ↦ Frame (region w spot) s s' ∧
        (s'.errors = ∅ → Clean context.types e t (foundAt w s'.cache spot))) fun _ _ ↦ False

theorem Checked.child {e : Expr} (h : Checked w e) {expected : Option Ty} {i : Nat}
    (hs : Ready (childRegion w spot (· = i)) s) :
    Works w spot (· = i) (synth w context (spot.child i) expected e) s fun t g ↦
      Clean context.types e t (under g i) := by
  rw [← region_child_eq] at hs
  refine Ensures.mono (h context (spot.child i) expected s hs) ?_ fun _ _ ↦ False.elim
  rw [region_child_eq]
  refine fun t s' ⟨hframe, hclean⟩ ↦ ⟨hframe, fun he g hg ↦ ?_⟩
  dsimp only
  rw [hg i rfl, ← foundAt_child]
  exact hclean he

/-- `i` is one of the `n` numbers from `k` on that increase by `step`. -/
def Steps (k step n i : Nat) : Prop := ∃ j < n, i = k + step * j

theorem Checked.first {e : Expr} (h : Checked w e) {k step n : Nat} {expected : Option Ty}
    {f : Ty → Check β} {R : β → (Path → Option Ty) → Prop} (hstep : 0 < step)
    (hs : Ready (childRegion w spot (Steps k step (n + 1))) s)
    (hf : ∀ t s', Ready (childRegion w spot (Steps (k + step) step n)) s' →
      Works w spot (Steps (k + step) step n) (f t) s' fun b g ↦
        Clean context.types e t (under g k) → R b g) :
    Works w spot (Steps k step (n + 1)) (synth w context (spot.child k) expected e >>= f) s R := by
  refine Works.next hs h.child ?_ ?_ hf
  · rintro i rfl
    exact ⟨0, Nat.succ_pos n, rfl⟩
  · rintro i ⟨j, hj, rfl⟩
    exact ⟨⟨j + 1, Nat.succ_lt_succ hj, by rw [Nat.mul_succ]; omega⟩, by omega⟩

/-! ## Lists of children -/

/-- Clean checks of `es` at the children whose numbers increase by `step` from `k` on, the one at
`i` in `Γ i`. -/
def CleanRow (Γ : Nat → Env) (g : Path → Option Ty) (k step : Nat) (es : List Expr)
    (ts : List Ty) : Prop :=
  ts.length = es.length ∧
    ∀ i e t, es[i]? = some e → ts[i]? = some t → Clean (Γ i) e t (under g (k + step * i))

variable {Γ : Nat → Env} {g : Path → Option Ty} {k step : Nat} {e : Expr}
  {es : List Expr} {t T : Ty}
  {ts : List Ty} {bindings : List (Expr × Expr)}

theorem cleanRow_nil : CleanRow Γ g k step [] [] := ⟨rfl, nofun⟩

theorem cleanRow_cons (he : Clean (Γ 0) e t (under g k))
    (hes : CleanRow (fun i ↦ Γ (i + 1)) g (k + step) step es ts) :
    CleanRow Γ g k step (e :: es) (t :: ts) := by
  refine ⟨congrArg Nat.succ hes.1, fun i e' t' he' ht' ↦ ?_⟩
  cases i with
  | zero =>
    cases he'
    cases ht'
    exact he
  | succ i =>
    rw [Nat.mul_succ, Nat.add_comm _ step, ← Nat.add_assoc]
    exact hes.2 i e' t' he' ht'

theorem works_synthRow (hstep : 0 < step) (h : ∀ e ∈ es, Checked w e)
    (hs : Ready (childRegion w spot (Steps k step es.length)) s) :
    Works w spot (Steps k step es.length) (synthRow w context spot step k es) s fun ts g ↦
      CleanRow (fun _ ↦ context.types) g k step es ts := by
  induction es generalizing k s with
  | nil => exact .pure fun _ _ ↦ cleanRow_nil
  | cons e es ih =>
    rw [List.forall_mem_cons] at h
    exact h.1.first hstep hs fun t s₁ hs₁ ↦ Works.last ((ih h.2 hs₁).imp fun ts g hts ht ↦
      cleanRow_cons ht hts)

theorem works_joinCases (h : ∀ c ∈ bindings, Checked w c.1 ∧ Checked w c.2)
    (hs : Ready (childRegion w spot (Steps k 1 (2 * bindings.length))) s) :
    Works w spot (Steps k 1 (2 * bindings.length)) (joinCases w context spot k T bindings) s
      fun R g ↦
      ∃ us ts, CleanRow (fun _ ↦ context.types) g k 2 (slots bindings) us ∧
        CleanRow (fun _ ↦ context.types) g (k + 1) 2 (bindings.map (·.2)) ts ∧
        R = ts.foldl join T := by
  induction bindings generalizing k s T with
  | nil =>
    rw [joinCases]
    exact .pure fun _ _ ↦ ⟨[], [], cleanRow_nil, cleanRow_nil, rfl⟩
  | cons c cases ih =>
    obtain ⟨c, e⟩ := c
    rw [List.forall_mem_cons] at h
    rw [List.length_cons, Nat.mul_add] at hs ⊢
    rw [joinCases]
    refine h.1.1.first Nat.one_pos hs fun u s₁ hs₁ ↦ h.1.2.first Nat.one_pos hs₁ fun t s₂ hs₂ ↦ ?_
    refine (ih h.2 hs₂).imp ?_
    rintro _ g ⟨us, ts, hus, hts, hR⟩ ht hu
    exact ⟨u :: us, t :: ts, cleanRow_cons hu hus, cleanRow_cons ht hts, hR⟩

/-- `synthArgs` finds types for the arguments that have parameters and leaves the others alone. -/
theorem works_synthArgs {vars : List String} {params : List Ty} (h : ∀ e ∈ es, Checked w e)
    (hs : Ready (childRegion w spot (Steps k 1 es.length)) s) :
    Works w spot (Steps k 1 es.length) (synthArgs w context spot vars k es params) s fun ts g ↦
      ts.length = min es.length params.length ∧
      (∀ i e t, es[i]? = some e → ts[i]? = some t → Clean context.types e t (under g (k + i))) ∧
      ∀ i, ts.length ≤ i → i < es.length → ∀ path, under g (k + i) path = none := by
  induction es generalizing k s params with
  | nil =>
    rw [synthArgs]
    · exact .pure fun _ _ ↦ by simp
    · simp
  | cons e es ih =>
    rw [List.forall_mem_cons] at h
    cases params with
    | nil =>
      rw [synthArgs]
      · refine .pure fun g hg ↦ ⟨by simp, by simp, fun i _ hi path ↦ ?_⟩
        have hi : Steps k 1 (e :: es).length (k + i) := ⟨i, hi, by rw [Nat.one_mul]⟩
        rw [hg _ hi, under_eq_none hs hi]
      · simp
    | cons p params =>
      rw [synthArgs]
      refine h.1.first Nat.one_pos hs fun t s₁ hs₁ ↦
        Works.last ((ih h.2 hs₁).imp fun ts g hts ht ↦ ?_)
      obtain ⟨hlen, hrow, hrest⟩ := hts
      refine ⟨by simp [hlen, Nat.succ_min_succ], fun i e' t' he' ht' ↦ ?_, fun i hle hlt path ↦ ?_⟩
      · cases i with
        | zero =>
          cases he'
          cases ht'
          exact ht
        | succ i =>
          rw [Nat.add_comm i, ← Nat.add_assoc]
          exact hrow i e' t' he' ht'
      · obtain ⟨i, rfl⟩ :=
          Nat.exists_eq_add_one_of_ne_zero (Nat.ne_of_gt (Nat.lt_of_lt_of_le (by simp) hle))
        rw [Nat.add_comm i, ← Nat.add_assoc]
        exact hrest i (Nat.le_of_succ_le_succ hle) (Nat.lt_of_succ_lt_succ hlt) path

/-! ## Bindings -/

theorem works_synthLetValues {Δ : Env} (h : ∀ b ∈ bindings, Checked w b.2)
    (hslots : ∀ b ∈ bindings, b.1.identifier?.isSome)
    (hs : Ready (childRegion w spot (Steps (k + 1) 2 bindings.length)) s) :
    Works w spot (Steps (k + 1) 2 bindings.length) (synthLetValues w context spot Δ k bindings) s
      fun inner g ↦ ∃ ts, CleanRow (fun _ ↦ context.types) g (k + 1) 2 (bindings.map (·.2)) ts ∧
        List.Forall₂ Fits (slots bindings) ts ∧
        inner = bindSlots Δ (slots bindings) (paramTypes (slots bindings) ts) := by
  induction bindings generalizing k s Δ with
  | nil =>
    rw [synthLetValues]
    exact .pure fun _ _ ↦ ⟨[], cleanRow_nil, .nil, rfl⟩
  | cons b bindings ih =>
    obtain ⟨slot, value⟩ := b
    rw [List.forall_mem_cons] at h hslots
    rw [synthLetValues]
    refine h.1.first Nat.two_pos hs fun t s₁ hs₁ ↦ ?_
    cases slot with
    | hole =>
      refine (ih h.2 hslots.2 hs₁).imp ?_
      rintro _ g ⟨ts, hts, hfits, hinner⟩ ht
      exact ⟨t :: ts, cleanRow_cons ht hts, .cons (fits_of_none rfl t) hfits, hinner⟩
    | binding name declared =>
      cases declared with
      | none =>
        refine (ih h.2 hslots.2 hs₁).imp ?_
        rintro _ g ⟨ts, hts, hfits, hinner⟩ ht
        exact ⟨t :: ts, cleanRow_cons ht hts, .cons (fits_of_none rfl t) hfits, hinner⟩
      | some d =>
        refine Works.still hs₁ (works_demand value t d) fun _ s₂ hs₂ ↦ (ih h.2 hslots.2 hs₂).imp ?_
        rintro _ g ⟨ts, hts, hfits, hinner⟩ hle ht
        exact ⟨t :: ts, cleanRow_cons ht hts, .cons (by rintro _ ⟨⟩; exact hle) hfits, hinner⟩
    | _ => cases hslots.1

/-- `settle` inserts the type of a name, and nothing else if no definition waits. -/
theorem works_settle {I : Nat → Prop} (hs : Ready (childRegion w spot I) s) (context : Context)
    (name : String) (t : Ty) :
    Works w spot (fun _ ↦ False) (settle context name t) s fun c _ ↦ c = context.insert name t := by
  refine ⟨⟨id, ?_, rfl, rfl, fun _ _ ↦ rfl⟩, fun _ _ _ ↦ rfl⟩
  change (s.settle context.group name t).definitions = s.definitions
  rw [CheckerState.settle, hs.definitions]
  rfl

theorem works_newGroup (types : Env) :
    Works w spot (fun _ ↦ False) (newGroup types) s fun c _ ↦ c.types = types :=
  ⟨⟨id, rfl, rfl, rfl, fun _ _ ↦ rfl⟩, fun _ _ _ ↦ rfl⟩

theorem works_synthRecursiveValues (h : ∀ b ∈ bindings, Checked w b.2)
    (hslots : ∀ b ∈ bindings, b.1.identifier?.isSome)
    (hs : Ready (childRegion w spot (Steps (k + 1) 2 bindings.length)) s) :
    Works w spot (Steps (k + 1) 2 bindings.length)
      (synthRecursiveValues w spot context k bindings) s
      fun inner g ↦ ∃ ts,
        CleanRow (fun i ↦ settled context.types (slots (bindings.take i)) ts) g (k + 1) 2
          (bindings.map (·.2)) ts ∧
        List.Forall₂ Fits (slots bindings) ts ∧
        inner.types = settled context.types (slots bindings) ts := by
  induction bindings generalizing k s context with
  | nil =>
    rw [synthRecursiveValues]
    exact .pure fun _ _ ↦ ⟨[], cleanRow_nil, .nil, rfl⟩
  | cons b bindings ih =>
    obtain ⟨slot, value⟩ := b
    rw [List.forall_mem_cons] at h hslots
    rw [synthRecursiveValues]
    refine h.1.first Nat.two_pos hs fun t s₁ hs₁ ↦ ?_
    cases slot with
    | hole =>
      refine (ih h.2 hslots.2 hs₁).imp ?_
      rintro _ g ⟨ts, hts, hfits, hinner⟩ ht
      exact ⟨t :: ts, cleanRow_cons ht hts, .cons (fits_of_none rfl t) hfits, hinner⟩
    | binding name declared =>
      cases declared with
      | none =>
        refine Works.still (f := fun c ↦ synthRecursiveValues w spot c (k + 2) bindings) hs₁
          (works_settle hs₁ context name t) fun c s₂ hs₂ ↦ (ih h.2 hslots.2 hs₂).imp ?_
        rintro _ g ⟨ts, hts, hfits, hinner⟩ rfl ht
        exact ⟨t :: ts, cleanRow_cons ht hts, .cons (fits_of_none rfl t) hfits, hinner⟩
      | some d =>
        refine Works.still hs₁ (works_demand value t d) fun _ s₂ hs₂ ↦ (ih h.2 hslots.2 hs₂).imp ?_
        rintro _ g ⟨ts, hts, hfits, hinner⟩ hle ht
        exact ⟨t :: ts, cleanRow_cons ht hts, .cons (by rintro _ ⟨⟩; exact hle) hfits, hinner⟩
    | _ => cases hslots.1

/-- The children of a form with bindings: the values, the names, and last the body. -/
theorem works_bindings {body : Expr} {values : Check α} {P : α → (Path → Option Ty) → Prop}
    {R : Ty → (Path → Option Ty) → Prop} (inner : α → Context)
    (hs : Ready (childRegion w spot fun _ ↦ True) s)
    (hvalues : Ready (childRegion w spot (Steps 1 2 bindings.length)) s →
      Works w spot (Steps 1 2 bindings.length) values s P)
    (hslots : ∀ b ∈ bindings, Checked w b.1) (hbody : Checked w body)
    (hR : ∀ a t g us, P a g → CleanRow (fun _ ↦ (inner a).types) g 0 2 (slots bindings) us →
      Clean (inner a).types body t (under g (2 * bindings.length)) → R t g) :
    Works w spot (fun _ ↦ True) (do
      let a ← values
      synthNames w (inner a) spot 0 bindings
      synth w (inner a) (spot.child (2 * bindings.length)) none body) s R := by
  refine Works.next (J := fun i ↦ ¬ Steps 1 2 bindings.length i) hs hvalues (fun _ _ ↦ trivial)
    (fun i hi ↦ ⟨trivial, hi⟩) fun a s₁ hs₁ ↦ ?_
  rw [synthNames_eq, bind_assoc]
  refine Works.next (J := (· = 2 * bindings.length)) hs₁
    (works_synthRow Nat.two_pos (List.forall_mem_map.2 hslots)) ?_ ?_
    fun us s₂ hs₂ ↦ (hbody.child hs₂).imp fun t g ht hus ha ↦ hR a t g us ha hus ht
  · -- Names have even numbers and values odd ones.
    rintro i ⟨j, -, rfl⟩ ⟨j', -, h⟩
    omega
  · rintro i rfl
    refine ⟨fun ⟨j, hj, h⟩ ↦ by omega, fun ⟨j, hj, h⟩ ↦ ?_⟩
    rw [List.length_map] at hj
    omega

/-! ## All expressions -/

/-- `w.typeOf` finds no definition in a state that is `Ready`. -/
def Closed (w : Surroundings) : Prop :=
  ∀ (K : Set CacheKey) (s : CheckerState) (name : String), Ready K s →
    (w.typeOf name).run s = (.ok none, s)

theorem closed_typeOfDefinition (revision : Nat → Nat) (depth : Nat) :
    Closed ⟨revision, typeOfDefinition revision depth⟩ := by
  intro K s name hs
  have hcomputed : s.computed.get? name = none := by rw [hs.computed]; rfl
  have hcomputing : name ∉ s.computing := by simp [hs.computing]
  have hdefinitions : s.definitions.get? name = none := by rw [hs.definitions]; rfl
  cases depth with
  | zero => exact run_fetch_unknown hcomputed hcomputing hdefinitions
  | succ depth => exact run_fetch_unknown hcomputed hcomputing hdefinitions

theorem works_name (hw : Closed w) {name : String} {K : Set CacheKey} {I : Nat → Prop}
    (hs : Ready K s) (context : Context) (m : Mention) :
    Works w spot I (do
      match ← typeOfName w context name with
      | some t => pure t
      | none =>
        throw (.diagnosed (.unboundVariable m))) s fun t _ ↦ context.types.get? name = some t := by
  have hrun : (typeOfName w context name).run s = (.ok (context.types.get? name), s) := by
    rw [typeOfName]
    cases context.types.get? name with
    | some t => rfl
    | none => exact hw K s name hs
  rw [Works, ensures_bind, ensures_ok hrun]
  cases context.types.get? name with
  | some t => exact Works.pure fun _ _ ↦ rfl
  | none => exact Works.throw _

theorem checked_list (h : ∀ e ∈ es, Checked w e) : Checked w (.list es) := by
  intro context spot expected s hs
  rw [synth, joinAll_eq]
  refine ensures_cached hs fun hs ↦ Works.last (Works.last ?_)
  refine (works_synthRow Nat.one_pos h (hs.mono (childRegion_mono fun _ _ ↦ trivial))).mono
    (fun _ _ ↦ trivial) fun ts g hts hg ↦ .list hg hts.1 (by simpa using hts.2)

theorem checked_sequence (h : ∀ e ∈ es, Checked w e) : Checked w (.sequence es) := by
  intro context spot expected s hs
  rw [synth, synthSequence_eq]
  refine ensures_cached hs fun hs ↦ Works.last ?_
  refine (works_synthRow Nat.one_pos h (hs.mono (childRegion_mono fun _ _ ↦ trivial))).mono
    (fun _ _ ↦ trivial) fun ts g hts hg ↦ .sequence hg hts.1 (by simpa using hts.2)

theorem checked_branch {c a b : Expr} (hc : Checked w c) (ha : Checked w a) (hb : Checked w b) :
    Checked w (.branch c a b) := by
  intro context spot expected s hs
  rw [synth]
  refine ensures_cached hs fun hs ↦ Works.mono (I := Steps 0 1 3) ?_ (fun _ _ ↦ trivial)
    fun _ _ ↦ id
  refine hc.first Nat.one_pos (hs.mono (childRegion_mono fun _ _ ↦ trivial)) fun u s₁ hs₁ ↦
    ha.first Nat.one_pos hs₁ fun t s₂ hs₂ ↦ hb.first Nat.one_pos hs₂ fun t' s₃ _ ↦ ?_
  exact .pure fun g _ hb ha hc hg ↦ .branch hg hc ha hb

theorem CleanRow.fst {us : List Ty} (h : CleanRow Γ g 0 2 (slots bindings) us) :
    us.length = bindings.length ∧
      ∀ i b u, bindings[i]? = some b → us[i]? = some u → Clean (Γ i) b.1 u (under g (2 * i)) := by
  refine ⟨h.1.trans (List.length_map _), fun i b u hb hu ↦ ?_⟩
  simpa using h.2 i b.1 u (by rw [List.getElem?_map, hb]; rfl) hu

theorem CleanRow.snd (h : CleanRow Γ g 1 2 (bindings.map (·.2)) ts) :
    ts.length = bindings.length ∧
      ∀ i b t, bindings[i]? = some b → ts[i]? = some t →
        Clean (Γ i) b.2 t (under g (2 * i + 1)) := by
  refine ⟨h.1.trans (List.length_map _), fun i b t hb ht ↦ ?_⟩
  rw [Nat.add_comm]
  exact h.2 i b.2 t (by rw [List.getElem?_map, hb]; rfl) ht

theorem checked_cond {cases : List (Expr × Expr)} (h : ∀ c ∈ cases, Checked w c.1 ∧ Checked w c.2) :
    Checked w (.cond cases) := by
  intro context spot expected s hs
  rw [synth]
  refine ensures_cached hs fun hs ↦ ?_
  refine (works_joinCases h (hs.mono (childRegion_mono fun _ _ ↦ trivial))).mono
    (fun _ _ ↦ trivial) ?_
  rintro _ g ⟨us, ts, hus, hts, rfl⟩ hg
  exact .cond hg hus.fst.1 hts.snd.1 hus.fst.2 hts.snd.2

theorem checked_lambda {params : List Expr} {body : Expr} (h : ∀ p ∈ params, Checked w p)
    (hbody : Checked w body) (hparams : ∀ p ∈ params, p.identifier?.isSome) :
    Checked w (.lambda params body) := by
  intro context spot expected s hs
  rw [synth]
  refine ensures_cached hs fun hs ↦ ?_
  dsimp only
  rw [bindParams_eq _ _ hparams, pure_bind, synthAll_eq, bind_assoc]
  refine Works.next (J := (· = params.length)) hs (works_synthRow Nat.one_pos h)
    (fun _ _ ↦ trivial) ?_
    fun us s₁ hs₁ ↦ Works.last ((hbody.child hs₁).imp fun r g hr hus hg ↦ ?_)
  · rintro i rfl
    simp [Steps]
  · exact .lambda hg (length_expected expected params.length) hus.1
      (by simpa [Context.fixed] using hus.2) hr

theorem checked_call {f : Expr} {args : List Expr} (hf : Checked w f)
    (h : ∀ e ∈ args, Checked w e) : Checked w (.call f args) := by
  intro context spot expected s hs
  rw [synth]
  refine ensures_cached hs fun hs ↦ ?_
  refine Works.next (J := Steps 1 1 args.length) hs hf.child (fun _ _ ↦ trivial) ?_
    fun T s₁ hs₁ ↦ ?_
  · rintro i ⟨j, -, rfl⟩
    exact ⟨trivial, by omega⟩
  dsimp only
  split
  · rename_i R hplan
    rw [synthAll_eq]
    refine Works.last (Works.last ((works_synthRow Nat.one_pos h hs₁).imp fun ts g hts hT hg ↦ ?_))
    exact .ignore hg hT hplan hts.1 (by simpa [Nat.add_comm] using hts.2)
  · exact Works.still (P := fun _ _ ↦ False) hs₁ (works_report _ _) fun _ _ _ ↦
      .pure fun _ _ ↦ False.elim
  · exact .throw _
  · rename_i params r hplan
    refine Works.next (J := fun _ ↦ False) hs₁ (works_synthArgs h) (fun _ ↦ id) (fun _ ↦ False.elim)
      fun ts s₂ _ ↦ ?_
    split
    · rename_i R hR
      refine .pure fun g _ hts hT hg ↦ .call hg hT hplan hts.1 ?_ ?_ hR
      all_goals simp only [Nat.add_comm _ 1]
      · exact hts.2.1
      · exact hts.2.2
    · exact .throw _
    · exact .throw _

theorem checked_letIn {body : Expr} (h : ∀ b ∈ bindings, Checked w b.1 ∧ Checked w b.2)
    (hbody : Checked w body) (hslots : ∀ b ∈ bindings, b.1.identifier?.isSome) :
    Checked w (.letIn bindings body) := by
  intro context spot expected s hs
  rw [synth]
  refine ensures_cached hs fun hs ↦ works_bindings .fixed hs
    (works_synthLetValues (fun b hb ↦ (h b hb).2) hslots) (fun b hb ↦ (h b hb).1) hbody ?_
  rintro _ t g us ⟨ts, hts, hfits, rfl⟩ hus ht hg
  exact .letIn hg hfits hus.fst.1 hts.snd.2 hus.fst.2 ht

theorem checked_letrec {body : Expr} (h : ∀ b ∈ bindings, Checked w b.1 ∧ Checked w b.2)
    (hbody : Checked w body) (hslots : ∀ b ∈ bindings, b.1.identifier?.isSome) :
    Checked w (.letrec bindings body) := by
  intro context spot expected s hs
  rw [synth]
  refine ensures_cached hs fun hs ↦ ?_
  rw [bindRecursive_eq _ hslots, pure_bind]
  refine Works.still hs (works_newGroup _) fun group s₁ hs₁ ↦ works_bindings id hs₁
    (works_synthRecursiveValues (fun b hb ↦ (h b hb).2) hslots) (fun b hb ↦ (h b hb).1) hbody ?_
  rintro inner t g us ⟨ts, hts, hfits, hinner⟩ hus ht hgroup hg
  rw [id, hinner] at hus ht
  exact .letrec hg hgroup hfits hus.fst.1 hts.snd.2 hus.fst.2 ht

/-- Every expression without definitions whose names are in slots is `Checked`. -/
theorem checked (hw : Closed w) {e : Expr} (he : e.All fun q ↦ q.Slotted ∧ ¬ q.isDefine) :
    Checked w e := by
  induction e with
  | number | bool | string | null =>
    intro context spot expected s hs
    rw [synth]
    exact ensures_cached hs fun _ ↦ .pure fun g _ hg ↦ .literal hg rfl
  | hole =>
    intro context spot expected s hs
    rw [synth]
    exact ensures_cached hs fun _ ↦ .pure fun g _ hg ↦ .hole hg
  | binding | var =>
    intro context spot expected s hs
    rw [synth]
    exact ensures_cached hs fun hs ↦
      (works_name hw hs context _).imp fun t g ht hg ↦ .name hg rfl ht
  | define name value => exact absurd rfl (Expr.all_iff.1 he).1.2
  | list es ih =>
    obtain ⟨-, hes⟩ := Expr.all_iff.1 he
    exact checked_list fun e he ↦ ih e he (hes e he)
  | sequence es ih =>
    obtain ⟨-, hes⟩ := Expr.all_iff.1 he
    exact checked_sequence fun e he ↦ ih e he (hes e he)
  | call called args ihc ih =>
    obtain ⟨-, hchildren⟩ := Expr.all_iff.1 he
    obtain ⟨hcalled, hargs⟩ := List.forall_mem_cons.1 hchildren
    exact checked_call (ihc hcalled) fun e he ↦ ih e he (hargs e he)
  | letIn bindings body ih ihb =>
    obtain ⟨⟨hslots, -⟩, hchildren⟩ := Expr.all_iff.1 he
    obtain ⟨hbs, hbody⟩ := Expr.All.bindings hchildren
    exact checked_letIn (fun b hb ↦ (ih b hb).imp (· (hbs b hb).1) (· (hbs b hb).2))
      (ihb hbody) hslots
  | letrec bindings body ih ihb =>
    obtain ⟨⟨hslots, -⟩, hchildren⟩ := Expr.all_iff.1 he
    obtain ⟨hbs, hbody⟩ := Expr.All.bindings hchildren
    exact checked_letrec (fun b hb ↦ (ih b hb).imp (· (hbs b hb).1) (· (hbs b hb).2))
      (ihb hbody) hslots
  | lambda params body ih ihb =>
    obtain ⟨⟨hslots, -⟩, hchildren⟩ := Expr.all_iff.1 he
    obtain ⟨hparams, hbody⟩ := List.forall_mem_append.1 hchildren
    exact checked_lambda (fun p hp ↦ ih p hp (hparams p hp))
      (ihb (List.forall_mem_singleton.1 hbody)) hslots
  | branch c a b ihc iha ihb =>
    obtain ⟨-, hchildren⟩ := Expr.all_iff.1 he
    simp only [Expr.children, List.forall_mem_cons] at hchildren
    exact checked_branch (ihc hchildren.1) (iha hchildren.2.1) (ihb hchildren.2.2.1)
  | cond cases ih =>
    have hcases := Expr.forall_mem_pairs.1 (Expr.all_iff.1 he).2
    exact checked_cond fun c hc ↦ (ih c hc).imp (· (hcases c hc).1) (· (hcases c hc).2)

/-- A new checker returns for such a tree, and its check is `Clean` unless it has recorded a
diagnostic. -/
theorem clean_of_typeOfRoot {tree : Tree} (htree : tree.root.All fun q ↦ q.Slotted ∧ ¬ q.isDefine)
    (revision : Nat → Nat) (Γ : Env) :
    ∃ t s, (typeOfRoot (.onDemand revision) Γ tree).run .initial = (.ok t, s) ∧ (s.errors = ∅ →
      Clean Γ tree.root t fun path ↦ s.cache.get? ⟨tree.number, revision tree.number, path⟩) := by
  have hw := closed_typeOfDefinition revision (nesting .initial + tree.root.defineCount)
  have hrun := checked hw htree (.fixed Γ) ⟨tree.rootPlace, true⟩ none .initial
    ⟨rfl, rfl, rfl, fun _ _ ↦ rfl⟩
  change Ensures (typeOfRoot (.onDemand revision) Γ tree) .initial _ _ at hrun
  rcases hx : (typeOfRoot (.onDemand revision) Γ tree).run .initial with ⟨fault | t, s⟩
  · exact ((ensures_error hx).1 hrun).elim
  · exact ⟨t, s, rfl, ((ensures_ok hx).1 hrun).2⟩

end SchemeTyping.Check
