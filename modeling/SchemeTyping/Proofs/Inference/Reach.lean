import SchemeTyping.Proofs.Inference.Finished

/-!
# The way to a place

A visit of an expression visits every place in it.  `approach` are the steps of the visit before one
of the children, and `reach` those before the place at a path; both return the environment in which
that place is visited.  They use the functions on lists with truncated lists, and number the
children by halves and parities, so they are a second description of the order of a visit and of its
numbering.

## What is here

* `Through K x y` — if `x` succeeds, so does `y`, and from then on nothing is written at keys of
  `K`.
* `passes`, `through_reach` — every visit goes through the visits of its children, and so through
  the visit of every place.
* `records_visit`, `exists_reached` — a visit caches the type that it finds, and so this type is in
  the cache at the end.
-/

set_option autoImplicit false

namespace SchemeTyping.Infer

open Ty

/-! ## The steps before a place -/

/-- The steps before the condition or the value of a case. -/
def approachCase (env : Env) (site : Site) (index : Nat) : Option (Expr × Expr) → Infer Unit
  | some (condition, _) => do
    if index % 2 = 1 then
      let _ ← visit env (site.child (index - 1)) condition
  | none => return

/-- The steps of a visit before the child at `index`, with the environment for the child. -/
def approach (env : Env) (site : Site) (e : Expr) (index : Nat) : Infer Env :=
  match e with
  | .list es => do
    let element ← newUnknown "Element"
    let _ ← visitElements env site 0 none element (es.take index)
    return env
  | .call called args => do
    if index = 0 then return env
    let calledType ← visit env (site.child 0) called
    let type ← applied calledType
    let c : CallSite :=
      ⟨site, site.mention e, (site.child 0).mention called, type, stemOf called, args.length⟩
    match ← plan c with
    | .done _ => return env
    | .ignore _ => do
      visitAll env site 1 (args.take (index - 1))
      return env
    | .consume t => do
      let _ ← visitArgs env { c with type := t } 0 t (args.take (index - 1))
      return env
  | .define name value => do
    let id ← identifier name
    let declared ← binderType name id
    let env := if name.isHole then env else env.insert id declared
    if index = 0 then
      let found ← visit env (site.child 1) value
      let _ ← unify declared found (some ((site.child 0).mention name))
        (some ((site.child 1).mention value))
    return env
  | .letIn bindings _ => do
    if index % 2 = 1 then
      let _ ← visitLetValues env site 0 (bindings.take (index / 2))
      return env
    let names ← visitLetValues env site 0 bindings
    let env := env.insertAll names
    visitNames env site 0 (bindings.take (index / 2))
    return env
  | .letrec bindings _ => do
    let recursive ← recursiveTypes bindings ∅
    if index % 2 = 1 then
      visitRecursiveValues (env.insertAll recursive.entries) site recursive 0
        (bindings.take (index / 2))
      return env.insertAll recursive.entries
    visitRecursiveValues (env.insertAll recursive.entries) site recursive 0 bindings
    let env := env.insertAll (← generalizeAll env recursive.entries)
    visitNames env site 0 (bindings.take (index / 2))
    return env
  | .lambda params _ => do
    let (_, names) ← paramTypes params
    let env := env.insertAll names
    visitAll env site 0 (params.take index)
    return env
  | .sequence es => do
    let result ← newUnknown "EmptySequence"
    let _ ← visitSequence env site 0 result (es.take index)
    return env
  | .branch c t e => do
    visitAll env site 0 ([c, t, e].take index)
    return env
  | .cond cases => do
    let overall ← newUnknown "Cond"
    let _ ← visitCases env site (site.mention e) 0 overall (cases.take (index / 2))
    approachCase env site index cases[index / 2]?
    return env
  | _ => return env

/-- The steps of a visit before the place at a path, with the environment there. -/
def reach (env : Env) (site : Site) (e : Expr) : Path → Infer Env
  | [] => return env
  | i :: path =>
    match e.child? i with
    | some c => do
      let env ← approach env site e i.toNat
      reach env (site.child i.toNat) c path
    | none => throw (.invalidPath (i :: path))

/-! ## Going through -/

variable {α β γ : Type} {K L : Set CacheKey} {site : Site} {env : Env}

/-- If `x` succeeds, so does `y`, and from then on `x` writes nothing at keys of `K`. -/
def Through (K : Set CacheKey) (x : Infer α) (y : Infer β) : Prop :=
  ∀ s, Ensures x s (fun _ s' ↦ Ensures y s
    (fun _ s₁ ↦ ∀ key ∈ K, s'.types.get? key = s₁.types.get? key) (fun _ _ ↦ False))
      (fun _ _ ↦ True)

theorem Through.refl (x : Infer α) : Through K x x := by
  intro s
  rcases hrun : x.run s with ⟨f | a, s'⟩
  · exact (ensures_error hrun).2 trivial
  · exact (ensures_ok hrun).2 ((ensures_ok hrun).2 fun _ _ ↦ rfl)

theorem Through.mono {x : Infer α} {y : Infer β} (h : Through L x y) (hKL : K ⊆ L) :
    Through K x y :=
  fun s ↦ (h s).mono (fun _ _ h ↦ h.mono (fun _ _ h key hkey ↦ h key (hKL hkey)) fun _ _ ↦ id)
    fun _ _ ↦ id

theorem Through.trans {x : Infer α} {y : Infer β} {z : Infer γ} (h : Through K x y)
    (h' : Through K y z) : Through K x z := by
  refine fun s ↦ (h s).mono (fun a s' hy ↦ ?_) fun _ _ ↦ id
  rcases hrun : y.run s with ⟨f | b, s₁⟩
  · exact ((ensures_error hrun).1 hy).elim
  · rw [ensures_ok hrun] at hy
    exact ((ensures_ok hrun).1 (h' s)).mono
      (fun _ _ hz key hkey ↦ (hy key hkey).trans (hz key hkey)) fun _ _ ↦ id

/-- `Through` is preserved by later steps that write nothing at keys of `K`. -/
theorem Through.extend {x : Infer α} {y : Infer γ} {f : α → Infer β} (h : Through K x y)
    (hf : ∀ a, Framed Kᶜ (f a)) : Through K (x >>= f) y := by
  intro s
  rw [ensures_bind]
  refine (h s).mono (fun a s₁ hy ↦ ((hf a).ensures_cache s₁).mono (fun b s₂ hcache ↦ ?_)
    fun _ _ ↦ id) fun _ _ ↦ id
  exact hy.mono (fun _ _ hy key hkey ↦ (hcache key (not_not_intro hkey)).trans (hy key hkey))
    fun _ _ ↦ id

/-- `Through` is preserved by the same earlier step on both sides. -/
theorem Through.bind {x : Infer α} {f : α → Infer β} {g : α → Infer γ} {P : α → Prop}
    (hx : ∀ s, Ensures x s (fun a _ ↦ P a) (fun _ _ ↦ True))
    (h : ∀ a, P a → Through K (f a) (g a)) : Through K (x >>= f) (x >>= g) := by
  intro s
  have hP := hx s
  rw [ensures_bind]
  rcases hrun : x.run s with ⟨e | a, s₁⟩
  · exact (ensures_error hrun).2 trivial
  · rw [ensures_ok hrun] at hP ⊢
    refine (h a hP s₁).mono (fun b s₂ hg ↦ ?_) fun _ _ ↦ id
    rw [ensures_bind, ensures_ok hrun]
    exact hg

theorem Through.after (x : Infer α) {f : α → Infer β} {g : α → Infer γ}
    (h : ∀ a, Through K (f a) (g a)) : Through K (x >>= f) (x >>= g) :=
  .bind (ensures_true x) fun a _ ↦ h a

/-- `applied` does not change the state. -/
theorem through_applied {t : Ty} {f : Ty → Infer α} {y : Infer β} (h : ∀ w, Through K (f w) y) :
    Through K (applied t >>= f) y := by
  intro s
  rw [ensures_bind, ensures_applied]
  exact ⟨fun _ ↦ h _ s, fun _ ↦ trivial⟩

theorem through_fail {f : Failure} {y : Infer β} : Through K (fail f : Infer α) y := by
  intro s
  exact ensures_fail fun _ ↦ trivial

/-! ## Regions -/

/-- The keys at a site and below it. -/
def region (site : Site) : Set CacheKey :=
  {key | key.tree = site.tree ∧ key.revision = site.revision ∧ site.path <+: key.path}

theorem spots_subset_region (site : Site) (e : Expr) : spots site e ⊆ region site := by
  rintro key ⟨htree, hrevision, path, hpath, -⟩
  exact ⟨htree, hrevision, hpath ▸ List.prefix_append ..⟩

theorem exists_path_of_mem_region {n : Nat} {key : CacheKey} (h : key ∈ region (site.child n)) :
    ∃ path, key.path = site.path ++ (n : Int) :: path := by
  obtain ⟨path, hpath⟩ := h.2.2
  refine ⟨path, hpath.symm.trans ?_⟩
  rw [Site.child, Path.child, List.append_assoc]
  rfl

/-- The visit of one child does not write at the keys of another. -/
theorem framed_sibling {n i : Nat} (h : i ≠ n) (env : Env) (e : Expr) :
    Framed (region (site.child n))ᶜ (visit env (site.child i) e) := by
  refine (contained e env (site.child i)).mono fun key hkey hn ↦ ?_
  obtain ⟨path, hpath⟩ := exists_path_of_mem_region (spots_subset_region _ _ hkey)
  obtain ⟨path', hpath'⟩ := exists_path_of_mem_region hn
  rw [hpath, List.append_cancel_left_eq, List.cons.injEq, Int.natCast_inj] at hpath'
  exact h hpath'.1

/-- The type of an expression is not recorded at the keys of its children. -/
theorem framed_recorded_above {n : Nat} (t : Ty) :
    Framed (region (site.child n))ᶜ (do record site t; return t) := by
  have habove : site.key ∈ (region (site.child n))ᶜ := by
    intro h
    obtain ⟨path, hpath⟩ := exists_path_of_mem_region h
    have hlen := congrArg List.length hpath
    rw [List.length_append, List.length_cons] at hlen
    exact absurd hlen (by simp only [Site.key]; omega)
  exact (framed_record habove t).bind fun _ ↦ framed_pure t

/-- The visit of a list of children without the one at `n`. -/
theorem rowFramed_apart {n index step : Nat} {es : List Expr}
    (h : ∀ i < es.length, index + step * i ≠ n) :
    RowFramed (region (site.child n))ᶜ site index step es :=
  fun i e hi env ↦ framed_sibling (h i (List.getElem?_eq_some_iff.1 hi).1) env e

/-! ## Lists of expressions -/

variable {c : Expr} {i n index : Nat}

theorem through_visitAll {es : List Expr} (hi : es[i]? = some c) (hn : n = index + i) :
    Through (region (site.child n)) (visitAll env site index es)
      (visitAll env site index (es.take i) >>= fun _ ↦ visit env (site.child n) c) := by
  induction es generalizing i index with
  | nil => cases hi
  | cons e es ih =>
    cases i with
    | zero =>
      cases hi
      subst hn
      simp only [visitAll, List.take_zero, pure_bind]
      exact (Through.refl _).extend fun _ ↦ framed_visitAll (rowFramed_apart fun i _ ↦ by omega)
    | succ i =>
      simp only [visitAll, List.take_succ_cons, bind_assoc]
      exact .after _ fun _ ↦ ih hi (by omega)

theorem through_visitElements {es : List Expr} {first : Option Mention} {t : Ty}
    (hi : es[i]? = some c) (hn : n = index + i) :
    Through (region (site.child n)) (visitElements env site index first t es)
      (visitElements env site index first t (es.take i) >>= fun _ ↦
        visit env (site.child n) c) := by
  induction es generalizing i index first t with
  | nil => cases hi
  | cons e es ih =>
    cases i with
    | zero =>
      cases hi
      subst hn
      simp only [visitElements, List.take_zero, pure_bind]
      exact (Through.refl _).extend fun _ ↦ (framed_unify ..).bind fun _ ↦
        framed_visitElements (rowFramed_apart fun i _ ↦ by omega) ..
    | succ i =>
      simp only [visitElements, List.take_succ_cons, bind_assoc]
      exact .after _ fun _ ↦ .after _ fun _ ↦ ih hi (by omega)

theorem through_visitSequence {es : List Expr} {t : Ty} (hi : es[i]? = some c)
    (hn : n = index + i) :
    Through (region (site.child n)) (visitSequence env site index t es)
      (visitSequence env site index t (es.take i) >>= fun _ ↦ visit env (site.child n) c) := by
  induction es generalizing i index t with
  | nil => cases hi
  | cons e es ih =>
    cases i with
    | zero =>
      cases hi
      subst hn
      simp only [visitSequence, List.take_zero, pure_bind]
      exact (Through.refl _).extend fun _ ↦
        framed_visitSequence (rowFramed_apart fun i _ ↦ by omega) _
    | succ i =>
      simp only [visitSequence, List.take_succ_cons, bind_assoc]
      exact .after _ fun _ ↦ ih hi (by omega)

theorem through_visitArgs {k : CallSite} {args : List Expr} {t : Ty} (hi : args[i]? = some c)
    (hn : n = index + 1 + i) :
    Through (region (k.site.child n)) (visitArgs env k index t args)
      (visitArgs env k index t (args.take i) >>= fun _ ↦ visit env (k.site.child n) c) := by
  induction args generalizing i index t with
  | nil => cases hi
  | cons arg args ih =>
    cases i with
    | zero =>
      cases hi
      subst hn
      have hrest : RowFramed (region (k.site.child (index + 1 + 0)))ᶜ k.site (index + 2) 1 args :=
        rowFramed_apart fun i _ ↦ by omega
      simp only [visitArgs, List.take_zero, pure_bind]
      refine through_applied fun current ↦ ?_
      split
      · exact (Through.refl _).extend fun _ ↦ (framed_visitAll hrest).bind fun _ ↦ framed_pure _
      · split
        · exact through_fail
        · exact (Through.refl _).extend fun _ ↦ (framed_newUnknown _).bind fun _ ↦
            (framed_unify ..).bind fun _ ↦ (framed_applied _).bind fun _ ↦ framed_visitArgs hrest _
    | succ i =>
      have hi : args[i]? = some c := hi
      simp only [visitArgs, List.take_succ_cons, bind_assoc]
      refine .after _ fun current ↦ ?_
      split
      · simp only [bind_assoc, pure_bind]
        exact .after _ fun _ ↦ (through_visitAll hi (by omega)).extend fun _ ↦ framed_pure _
      · split
        · exact through_fail
        · simp only [bind_assoc]
          exact .after _ fun _ ↦ .after _ fun _ ↦ .after _ fun _ ↦ .after _ fun _ ↦ ih hi (by omega)

theorem through_visitNames {bindings : List (Expr × Expr)} {b : Expr × Expr}
    (hi : bindings[i]? = some b) (hn : n = index + 2 * i) :
    Through (region (site.child n)) (visitNames env site index bindings)
      (visitNames env site index (bindings.take i) >>= fun _ ↦ visit env (site.child n) b.1) := by
  induction bindings generalizing i index with
  | nil => cases hi
  | cons b' bs ih =>
    cases i with
    | zero =>
      cases hi
      subst hn
      simp only [visitNames, List.take_zero, pure_bind]
      exact (Through.refl _).extend fun _ ↦ framed_visitNames (rowFramed_apart fun i _ ↦ by omega)
    | succ i =>
      simp only [visitNames, List.take_succ_cons, bind_assoc]
      exact .after _ fun _ ↦ ih hi (by omega)

theorem through_visitLetValues {bindings : List (Expr × Expr)} {b : Expr × Expr}
    (hi : bindings[i]? = some b) (hn : n = index + 2 * i + 1) :
    Through (region (site.child n)) (visitLetValues env site index bindings)
      (visitLetValues env site index (bindings.take i) >>= fun _ ↦
        visit env (site.child n) b.2) := by
  induction bindings generalizing i index with
  | nil => cases hi
  | cons b' bs ih =>
    cases i with
    | zero =>
      cases hi
      subst hn
      have hrest : Framed (region (site.child (index + 2 * 0 + 1)))ᶜ
          (visitLetValues env site (index + 2) bs) :=
        framed_visitLetValues (rowFramed_apart fun i _ ↦ by omega)
      simp only [visitLetValues, List.take_zero, pure_bind]
      exact (Through.refl _).extend fun _ ↦ (framed_valueType ..).bind fun _ ↦ framed_ite hrest
        ((framed_generalize ..).bind fun _ ↦ (framed_identifier _).bind fun _ ↦
          hrest.bind fun _ ↦ framed_pure _)
    | succ i =>
      simp only [visitLetValues, List.take_succ_cons, bind_assoc]
      refine .after _ fun _ ↦ .after _ fun _ ↦ ?_
      split
      · exact ih hi (by omega)
      · simp only [bind_assoc, pure_bind]
        exact .after _ fun _ ↦ .after _ fun _ ↦ (ih hi (by omega)).extend fun _ ↦ framed_pure _

theorem through_visitRecursiveValues {bindings : List (Expr × Expr)} {b : Expr × Expr}
    {recursive : Env} (hi : bindings[i]? = some b) (hn : n = index + 2 * i + 1) :
    Through (region (site.child n)) (visitRecursiveValues env site recursive index bindings)
      (visitRecursiveValues env site recursive index (bindings.take i) >>= fun _ ↦
        visit env (site.child n) b.2) := by
  induction bindings generalizing i index with
  | nil => cases hi
  | cons b' bs ih =>
    cases i with
    | zero =>
      cases hi
      subst hn
      have hrest : Framed (region (site.child (index + 2 * 0 + 1)))ᶜ
          (visitRecursiveValues env site recursive (index + 2) bs) :=
        framed_visitRecursiveValues (rowFramed_apart fun i _ ↦ by omega) _
      simp only [visitRecursiveValues, List.take_zero, pure_bind]
      exact (Through.refl _).extend fun _ ↦ framed_ite ((framed_identifier _).bind fun _ ↦
        (framed_unify ..).bind fun _ ↦ hrest) hrest
    | succ i =>
      simp only [visitRecursiveValues, List.take_succ_cons, bind_assoc]
      refine .after _ fun _ ↦ ?_
      split
      · simp only [bind_assoc]
        exact .after _ fun _ ↦ .after _ fun _ ↦ ih hi (by omega)
      · exact ih hi (by omega)

/-- The cases before the one at `i` are visited before its condition. -/
theorem through_visitCases {cases : List (Expr × Expr)} {b : Expr × Expr} {whole : Mention} {t : Ty}
    {m : Nat} (hi : cases[i]? = some b) (hm : m = index + 2 * i) (hn : n = m ∨ n = m + 1) :
    Through (region (site.child n)) (visitCases env site whole index t cases)
      (visitCases env site whole index t (cases.take i) >>= fun _ ↦
        visit env (site.child m) b.1 >>= fun _ ↦ visit env (site.child (m + 1)) b.2) := by
  induction cases generalizing i index t with
  | nil => cases hi
  | cons b' bs ih =>
    cases i with
    | zero =>
      cases hi
      subst hm
      simp only [visitCases, List.take_zero, pure_bind]
      refine .after _ fun _ ↦ (Through.refl _).extend fun _ ↦ (framed_unify ..).bind fun _ ↦
        framed_visitCases (rowFramed_apart fun i _ ↦ by omega)
          (rowFramed_apart fun i _ ↦ by omega) ..
    | succ i =>
      simp only [visitCases, List.take_succ_cons, bind_assoc]
      exact .after _ fun _ ↦ .after _ fun _ ↦ .after _ fun _ ↦ ih hi (by omega)

/-! ## Children -/

/-- `plan` ends a call at once only if it has no arguments. -/
theorem ensures_plan_done (call : CallSite) (s : InferenceState) :
    Ensures (plan call) s (fun p _ ↦ ∀ t, p = .done t → call.argCount = 0) (fun _ _ ↦ True) := by
  rw [plan]
  split
  · rw [ensures_ite]
    exact ⟨fun h ↦ (ensures_true _ s).mono (fun _ _ _ _ _ ↦ h) fun _ _ ↦ id, fun _ ↦ by simp⟩
  · rw [ensures_ite]
    refine ⟨fun _ t h ↦ ?_, fun _ ↦ ensures_fail fun _ ↦ trivial⟩
    split at h
    · assumption
    · cases h
  · split
    · rw [ensures_ite]
      exact ⟨fun h _ _ ↦ h, fun _ ↦ ensures_fail fun _ ↦ trivial⟩
    · simp
    · simp
    · rw [ensures_ite, ensures_ite]
      exact ⟨fun _ ↦ ensures_fail fun _ ↦ trivial,
        fun _ ↦ ⟨fun _ ↦ ensures_fail fun _ ↦ trivial, fun _ ↦ by simp⟩⟩
  · rw [ensures_ite]
    exact ⟨fun _ ↦ ensures_fail fun _ ↦ trivial, fun _ ↦ by simp⟩

/-- The visit of `e` goes through that of the child `c` at `n`. -/
def Passes (env : Env) (site : Site) (e : Expr) (n : Nat) (c : Expr) : Prop :=
  Through (region (site.child n)) (visit env site e)
    (approach env site e n >>= fun env ↦ visit env (site.child n) c)

theorem passes_list {es : List Expr} (h : es[n]? = some c) : Passes env site (.list es) n c := by
  simp only [Passes, visit, approach, bind_assoc, pure_bind]
  exact .after _ fun _ ↦ (through_visitElements h (Nat.zero_add n).symm).extend fun _ ↦
    framed_recorded_above _

theorem passes_sequence {es : List Expr} (h : es[n]? = some c) :
    Passes env site (.sequence es) n c := by
  simp only [Passes, visit, approach, bind_assoc, pure_bind]
  exact .after _ fun _ ↦ (through_visitSequence h (Nat.zero_add n).symm).extend fun _ ↦
    framed_recorded_above _

theorem passes_define {name value : Expr} (h : [name, value][n]? = some c) :
    Passes env site (.define name value) n c := by
  rw [Passes, visit, approach]
  obtain ⟨hn, rfl⟩ | ⟨hn, rfl⟩ : (n = 0 ∧ name = c) ∨ n = 1 ∧ value = c := by grind
  · simp only [hn, bind_assoc, pure_bind, if_true]
    exact .after _ fun _ ↦ .after _ fun _ ↦ .after _ fun _ ↦ .after _ fun _ ↦
      (Through.refl _).extend fun _ ↦ framed_recorded_above _
  · simp only [hn, bind_assoc, pure_bind, Nat.one_ne_zero, if_false]
    exact .after _ fun _ ↦ .after _ fun _ ↦ (Through.refl _).extend fun _ ↦
      (framed_unify ..).bind fun _ ↦ (framed_sibling (by omega) _ _).bind fun _ ↦
        framed_recorded_above _

theorem passes_call {called : Expr} {args : List Expr} (h : (called :: args)[n]? = some c) :
    Passes env site (.call called args) n c := by
  cases n with
  | zero =>
    cases h
    have hargs : RowFramed (region (site.child 0))ᶜ site 1 1 args :=
      rowFramed_apart fun i _ ↦ by omega
    simp only [Passes, visit, approach, if_true, pure_bind]
    refine (Through.refl _).extend fun _ ↦ (framed_applied _).bind fun _ ↦
      (framed_plan _).bind fun p ↦ ?_
    cases p with
    | done t => exact framed_recorded_above t
    | ignore t => exact (framed_visitAll hargs).bind fun _ ↦ framed_recorded_above t
    | consume t =>
      exact (framed_visitArgs (c := ⟨_, _, _, _, _, _⟩) hargs t).bind fun _ ↦
        framed_recorded_above _
  | succ n =>
    have hn : args[n]? = some c := h
    have hlen : args.length ≠ 0 := fun h0 ↦ by
      rw [List.length_eq_zero_iff.1 h0] at hn
      cases hn
    simp only [Passes, visit, approach, Nat.succ_ne_zero, if_false, bind_assoc, Nat.add_sub_cancel]
    refine .after _ fun _ ↦ .after _ fun _ ↦ .bind (ensures_plan_done _) fun p hp ↦ ?_
    cases p with
    | done t => exact absurd (hp t rfl) hlen
    | ignore t =>
      simp only [bind_assoc, pure_bind]
      exact (through_visitAll hn (Nat.add_comm n 1)).extend fun _ ↦ framed_recorded_above _
    | consume t =>
      simp only [bind_assoc, pure_bind]
      exact (through_visitArgs (k := ⟨site, _, _, _, _, _⟩) hn (by omega)).extend fun _ ↦
        framed_recorded_above _

/-- After the values, the names and the body are visited. -/
theorem through_scope {bindings : List (Expr × Expr)} {body : Expr}
    (h : (∃ i b, bindings[i]? = some b ∧ n = 2 * i ∧ c = b.1) ∨ n = 2 * bindings.length ∧
      c = body) :
    Through (region (site.child n))
      (do
        visitNames env site 0 bindings
        let type ← visit env (site.child (2 * bindings.length)) body
        record site type
        return type)
      (do
        visitNames env site 0 (bindings.take (n / 2))
        visit env (site.child n) c) := by
  rcases h with ⟨i, b, hi, hn, rfl⟩ | ⟨hn, rfl⟩
  · have hlt := (List.getElem?_eq_some_iff.1 hi).1
    rw [show n / 2 = i by omega]
    exact (through_visitNames hi (by omega)).extend fun _ ↦
      (framed_sibling (by omega) _ _).bind fun _ ↦
      framed_recorded_above _
  · subst hn
    rw [Nat.mul_div_cancel_left _ (by omega), List.take_length]
    exact .after _ fun _ ↦ (Through.refl _).extend fun _ ↦ framed_recorded_above _

/-- The visits of the names and the body do not write at the keys of the values. -/
theorem framed_scope {bindings : List (Expr × Expr)} {body : Expr} (hodd : n % 2 = 1) :
    Framed (region (site.child n))ᶜ (do
      visitNames env site 0 bindings
      let type ← visit env (site.child (2 * bindings.length)) body
      record site type
      return type) :=
  (framed_visitNames (rowFramed_apart fun i _ ↦ by omega)).bind fun _ ↦
    (framed_sibling (by omega) _ _).bind fun _ ↦ framed_recorded_above _

/-- The children of a form with bindings: a name or the body, or a value. -/
theorem getElem?_scope_cases {bs : List (Expr × Expr)} {body : Expr}
    (h : ((bs.flatMap fun b ↦ [b.1, b.2]) ++ [body])[n]? = some c) :
    ((∃ i b, bs[i]? = some b ∧ n = 2 * i ∧ c = b.1) ∨ n = 2 * bs.length ∧ c = body) ∨
      ∃ i b, bs[i]? = some b ∧ n = 2 * i + 1 ∧ c = b.2 := by
  rcases Expr.getElem?_pairs_cases h with ⟨i, b, hi, hn | hn⟩ | ⟨hle, hrest⟩
  · exact .inl (.inl ⟨i, b, hi, hn⟩)
  · exact .inr ⟨i, b, hi, hn⟩
  · obtain ⟨hlt, rfl⟩ := List.getElem?_eq_some_iff.1 hrest
    rw [List.length_singleton] at hlt
    exact .inl (.inr ⟨by omega, List.getElem_singleton hlt⟩)

theorem even_of_scope {bs : List (Expr × Expr)} {body : Expr}
    (h : (∃ i b, bs[i]? = some b ∧ n = 2 * i ∧ c = b.1) ∨ n = 2 * bs.length ∧ c = body) :
    ¬ n % 2 = 1 := by
  rcases h with ⟨i, b, -, hn, -⟩ | ⟨hn, -⟩ <;> omega

theorem passes_letIn {bindings : List (Expr × Expr)} {body : Expr}
    (h : ((bindings.flatMap fun b ↦ [b.1, b.2]) ++ [body])[n]? = some c) :
    Passes env site (.letIn bindings body) n c := by
  rw [Passes, visit, approach]
  rcases getElem?_scope_cases h with h | ⟨i, b, hi, hn, rfl⟩
  · simp only [if_neg (even_of_scope h), bind_assoc, pure_bind]
    exact .after _ fun _ ↦ through_scope h
  · have hodd : n % 2 = 1 := by omega
    rw [if_pos hodd, show n / 2 = i by omega]
    simp only [bind_assoc, pure_bind]
    exact (through_visitLetValues hi (by omega)).extend fun _ ↦ framed_scope hodd

theorem passes_letrec {bindings : List (Expr × Expr)} {body : Expr}
    (h : ((bindings.flatMap fun b ↦ [b.1, b.2]) ++ [body])[n]? = some c) :
    Passes env site (.letrec bindings body) n c := by
  rw [Passes, visit, approach]
  rcases getElem?_scope_cases h with h | ⟨i, b, hi, hn, rfl⟩
  · simp only [if_neg (even_of_scope h), bind_assoc, pure_bind]
    exact .after _ fun _ ↦ .after _ fun _ ↦ .after _ fun _ ↦ through_scope h
  · have hodd : n % 2 = 1 := by omega
    simp only [if_pos hodd, show n / 2 = i by omega, bind_assoc, pure_bind]
    exact .after _ fun _ ↦ (through_visitRecursiveValues hi (by omega)).extend fun _ ↦
      (framed_generalizeAll ..).bind fun _ ↦ framed_scope hodd

theorem passes_lambda {params : List Expr} {body : Expr} (h : (params ++ [body])[n]? = some c) :
    Passes env site (.lambda params body) n c := by
  simp only [Passes, visit, approach, bind_assoc, pure_bind]
  refine .after _ fun r ↦ ?_
  by_cases hlt : n < params.length
  · rw [List.getElem?_append_left hlt] at h
    exact (through_visitAll h (Nat.zero_add n).symm).extend fun _ ↦
      (framed_sibling (by omega) _ _).bind fun _ ↦ framed_recorded_above _
  · rw [List.getElem?_append_right (by omega)] at h
    obtain ⟨hlen, rfl⟩ := List.getElem?_eq_some_iff.1 h
    rw [List.length_singleton] at hlen
    obtain rfl : n = params.length := by omega
    rw [List.getElem_singleton, List.take_length]
    exact .after _ fun _ ↦ (Through.refl _).extend fun _ ↦ framed_recorded_above _

theorem passes_branch {d t e : Expr} (h : [d, t, e][n]? = some c) :
    Passes env site (.branch d t e) n c := by
  rw [Passes, visit, approach]
  obtain ⟨rfl, rfl⟩ | ⟨rfl, rfl⟩ | ⟨rfl, rfl⟩ : (n = 0 ∧ d = c) ∨ (n = 1 ∧ t = c) ∨
      n = 2 ∧ e = c := by
    grind
  · simp only [List.take_zero, visitAll, pure_bind]
    exact (Through.refl _).extend fun _ ↦ (framed_sibling (by omega) _ _).bind fun _ ↦
      (framed_sibling (by omega) _ _).bind fun _ ↦ (framed_unify ..).bind fun _ ↦
        framed_recorded_above _
  · simp only [List.take_succ_cons, List.take_zero, visitAll, bind_assoc, pure_bind]
    exact .after _ fun _ ↦ (Through.refl _).extend fun _ ↦
      (framed_sibling (by omega) _ _).bind fun _ ↦
      (framed_unify ..).bind fun _ ↦ framed_recorded_above _
  · simp only [List.take_succ_cons, List.take_zero, visitAll, bind_assoc, pure_bind]
    exact .after _ fun _ ↦ .after _ fun _ ↦ (Through.refl _).extend fun _ ↦
      (framed_unify ..).bind fun _ ↦ framed_recorded_above _

theorem passes_cond {cases : List (Expr × Expr)}
    (h : (cases.flatMap fun b ↦ [b.1, b.2])[n]? = some c) : Passes env site (.cond cases) n c := by
  rw [← List.append_nil (cases.flatMap fun b ↦ [b.1, b.2])] at h
  rw [Passes, visit, approach]
  simp only [bind_assoc, pure_bind]
  refine .after _ fun _ ↦ ?_
  rcases Expr.getElem?_pairs_cases h with ⟨i, b, hi, ⟨hn, rfl⟩ | ⟨hn, rfl⟩⟩ | ⟨-, hrest⟩
  · rw [show n / 2 = i by omega, hi]
    simp only [approachCase, if_neg (show ¬ n % 2 = 1 by omega), pure_bind]
    refine ((through_visitCases hi (hn.trans (Nat.zero_add _).symm) (.inl rfl)).trans
      (.after _ fun _ ↦ ?_)).extend fun _ ↦ framed_recorded_above _
    exact (Through.refl _).extend fun _ ↦ framed_sibling (by omega) _ _
  · rw [show n / 2 = i by omega, hi]
    simp only [approachCase, if_pos (show n % 2 = 1 by omega), bind_assoc, pure_bind]
    subst hn
    exact (through_visitCases hi (Nat.zero_add _).symm (.inr rfl)).extend fun _ ↦
      framed_recorded_above _
  · cases hrest

/-- The visit of an expression goes through that of every child. -/
theorem passes {e : Expr} (h : e.children[n]? = some c) : Passes env site e n c := by
  cases e with
  | list es => exact passes_list h
  | call called args => exact passes_call h
  | define name value => exact passes_define h
  | letIn bindings body => exact passes_letIn h
  | letrec bindings body => exact passes_letrec h
  | lambda params body => exact passes_lambda h
  | sequence es => exact passes_sequence h
  | branch d t e => exact passes_branch h
  | cond cases => exact passes_cond h
  | _ => cases h

/-! ## Places -/

/-- The site at a path below `site`. -/
def below (site : Site) (path : Path) : Site := { site with path := site.path ++ path }

theorem below_child (site : Site) (n : Nat) (path : Path) :
    below (site.child n) path = below site ((n : Int) :: path) := by
  rw [below, below, Site.child, Path.child, List.append_assoc]
  rfl

/-- The visit of an expression goes through that of every place in it. -/
theorem through_reach {e : Expr} {path : Path} (h : e.at? path = some c) :
    Through {(below site path).key} (visit env site e)
      (reach env site e path >>= fun env ↦ visit env (below site path) c) := by
  induction path generalizing e site env with
  | nil =>
    cases h
    rw [reach, pure_bind, below, List.append_nil]
    exact .refl _
  | cons i path ih =>
    obtain ⟨d, hd, hc⟩ := Option.bind_eq_some_iff.1 h
    have hi : 0 ≤ i := by
      refine Int.not_lt.1 fun hlt ↦ ?_
      rw [Expr.child?, if_pos hlt] at hd
      cases hd
    obtain ⟨n, rfl⟩ := Int.eq_ofNat_of_zero_le hi
    simp only [reach, hd, Int.toNat_natCast, bind_assoc]
    have hkey : (below site ((n : Int) :: path)).key ∈ region (site.child n) := by
      rw [← below_child]
      exact ⟨rfl, rfl, List.prefix_append ..⟩
    refine ((passes (Expr.child?_natCast e n ▸ hd)).mono (Set.singleton_subset_iff.2 hkey)).trans
      (.after _ fun env ↦ ?_)
    rw [← below_child]
    exact ih hc

/-- The result of `x` is in the cache at `site` afterwards. -/
def Records (site : Site) (x : Infer Ty) : Prop :=
  ∀ s, Ensures x s (fun t s' ↦ s'.types.get? site.key = some t) (fun _ _ ↦ True)

theorem Records.after (x : Infer α) {f : α → Infer Ty} (h : ∀ a, Records site (f a)) :
    Records site (x >>= f) := by
  intro s
  rw [ensures_bind]
  exact (ensures_true x s).mono (fun a s' _ ↦ h a s') fun _ _ ↦ id

theorem records_recorded (site : Site) (t : Ty) : Records site (do record site t; return t) :=
  fun _ ↦ OrdMap.get?_insert_self ..

/-- A visit caches the type that it finds. -/
theorem records_visit (env : Env) (site : Site) (e : Expr) : Records site (visit env site e) := by
  have hrecorded := records_recorded site
  cases e with
  | number | bool | string | null =>
    rw [visit]
    exact hrecorded _
  | hole =>
    rw [visit]
    exact .after _ hrecorded
  | list es =>
    rw [visit]
    exact .after _ fun _ ↦ .after _ fun _ ↦ hrecorded _
  | sequence es | cond cases =>
    rw [visit]
    exact .after _ fun _ ↦ .after _ hrecorded
  | binding name | var name =>
    rw [visit]
    split <;> exact .after _ hrecorded
  | call called args =>
    rw [visit]
    refine .after _ fun _ ↦ .after _ fun _ ↦ .after _ fun p ↦ ?_
    cases p with
    | done t => exact hrecorded t
    | ignore t => exact .after _ fun _ ↦ hrecorded t
    | consume t => exact .after _ hrecorded
  | define name value =>
    rw [visit]
    exact .after _ fun _ ↦ .after _ fun _ ↦ .after _ fun _ ↦ .after _ fun _ ↦ .after _ fun _ ↦
      hrecorded _
  | letIn bindings body =>
    rw [visit]
    exact .after _ fun _ ↦ .after _ fun _ ↦ .after _ hrecorded
  | letrec bindings body =>
    rw [visit]
    exact .after _ fun _ ↦ .after _ fun _ ↦ .after _ fun _ ↦ .after _ fun _ ↦ .after _ hrecorded
  | lambda params body =>
    rw [visit]
    exact .after _ fun _ ↦ .after _ fun _ ↦ .after _ fun _ ↦ hrecorded _
  | branch d t e =>
    rw [visit]
    exact .after _ fun _ ↦ .after _ fun _ ↦ .after _ fun _ ↦ .after _ hrecorded

/-- The cache has for every place at the end the type that was found there. -/
theorem exists_reached {e : Expr} {path : Path} {s s₁ : InferenceState} {R : Ty}
    (hrun : (visit env site e).run s = (.ok R, s₁)) (h : e.at? path = some c) :
    ∃ t s₂, (do let env ← reach env site e path; visit env (below site path) c).run s =
      (.ok t, s₂) ∧
      s₁.types.get? (below site path).key = some t := by
  have hthrough := (ensures_ok hrun).1 (through_reach h s)
  have hrecords := Records.after (reach env site e path)
    (fun env ↦ records_visit env (below site path) c) s
  rcases hreach : (reach env site e path >>= fun env ↦ visit env (below site path) c).run s
    with ⟨f | t, s₂⟩
  · exact ((ensures_error hreach).1 hthrough).elim
  · rw [ensures_ok hreach] at hthrough hrecords
    exact ⟨t, s₂, rfl, (hthrough _ rfl).trans hrecords⟩

/-- Nothing is written at a path that does not exist. -/
theorem get?_below_of_missing {e : Expr} {path : Path} {s s₁ : InferenceState} {R : Ty}
    (hrun : (visit env site e).run s = (.ok R, s₁)) (h : e.at? path = none) :
    s₁.types.get? (below site path).key = s.types.get? (below site path).key := by
  have hcache := (contained e env site).cache s (below site path).key
  rw [hrun] at hcache
  refine hcache ?_
  rintro ⟨-, -, path', hpath, hsome⟩
  rw [← List.append_cancel_left hpath, h] at hsome
  cases hsome

end SchemeTyping.Infer
