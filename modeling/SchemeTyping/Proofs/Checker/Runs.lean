import SchemeTyping.Checker.Definitions
import SchemeTyping.Proofs.Outcome

/-!
# Runs of single steps

The use of the cache: `synth` does not find a type again that is cached, and caches what it finds.
There is one law for every way in which `fetch` gets a definition.

Names get their types through their slots (`bindSlots`), those of parameters and of bindings alike.
-/

set_option autoImplicit false

namespace SchemeTyping.Check

open Ty

/-! ## Cached types -/

section

variable {w : Surroundings} {c : Context} {spot : Spot} {expected : Option Ty} {e : Expr}
  {s s' : CheckerState} {T : Ty}

/-- `synth` applies a rule only if there is no type in the cache, and caches the result. -/
theorem exists_rule (w : Surroundings) (c : Context) (spot : Spot) (expected : Option Ty)
    (e : Expr) :
    ∃ rule : Check Ty, synth w c spot expected e = do
      match (← get).cache.get? (cacheKey w spot) with
      | some t => return t
      | none =>
        let type ← reporting spot.place rule
        modify fun s ↦ { s with cache := s.cache.insert (cacheKey w spot) type }
        return type :=
  ⟨_, synth.eq_def w c spot expected e⟩

theorem run_synth_of_cached (h : s.cache.get? (cacheKey w spot) = some T) :
    (synth w c spot expected e).run s = (.ok T, s) := by
  obtain ⟨rule, hrule⟩ := exists_rule w c spot expected e
  rw [hrule, run_get_bind, h]
  rfl

theorem cached_of_run_synth (h : (synth w c spot expected e).run s = (.ok T, s')) :
    s'.cache.get? (cacheKey w spot) = some T := by
  obtain ⟨rule, hrule⟩ := exists_rule w c spot expected e
  rw [hrule, run_get_bind] at h
  cases hget : s.cache.get? (cacheKey w spot) with
  | some t =>
    rw [hget] at h
    cases h
    exact hget
  | none =>
    rw [hget] at h
    dsimp only at h
    rcases hrun : (reporting spot.place rule).run s with ⟨fault | t, u⟩
    · rw [run_bind_error hrun] at h
      cases h
    · rw [run_bind_ok hrun] at h
      cases h
      exact OrdMap.get?_insert_self _ _ _

/-- `synth` does not type a definition: it postpones it. -/
theorem run_synth_define {name : String} {declared : Option Ty} {value : Expr}
    (h : s.cache.get? (cacheKey w spot) = none) :
    (synth w c spot expected (.define (.binding name declared) value)).run s = (.ok empty, { s with
      definitions := s.definitions.insert name
        ⟨spot.mention (.define (.binding name declared) value), declared, c, spot.place⟩
      cache := s.cache.insert (cacheKey w spot) empty }) := by
  rw [synth, run_get_bind, h]
  rfl

theorem run_typeOfRoot (revision : Nat → Nat) (Γ : Env) (tree : Tree) (s : CheckerState) :
    (typeOfRoot (.onDemand revision) Γ tree).run s =
      (synth ⟨revision, typeOfDefinition revision (nesting s + tree.root.defineCount)⟩ (.fixed Γ)
        ⟨tree.rootPlace, true⟩ none tree.root).run s := rfl

theorem cacheKey_root {revision : Nat → Nat} {tree : Tree}
    (h : revision tree.number = tree.revision) (find : String → Check (Option Ty))
    (attached : Bool) : cacheKey ⟨revision, find⟩ ⟨tree.rootPlace, attached⟩ = tree.key [] := by
  rw [Tree.key, ← h]
  rfl

theorem cached_of_run_typeOfRoot {revision : Nat → Nat} {tree : Tree} {Γ : Env}
    (hrevision : revision tree.number = tree.revision)
    (h : (typeOfRoot (.onDemand revision) Γ tree).run s = (.ok T, s')) :
    s'.cache.get? (tree.key []) = some T := by
  have hcached := cached_of_run_synth (run_typeOfRoot .. ▸ h)
  rwa [cacheKey_root hrevision] at hcached

theorem run_typeOfRoot_of_cached {revision : Nat → Nat} {tree : Tree}
    (hrevision : revision tree.number = tree.revision) (h : s.cache.get? (tree.key []) = some T)
    (Γ : Env) : (typeOfRoot (.onDemand revision) Γ tree).run s = (.ok T, s) := by
  rw [run_typeOfRoot]
  exact run_synth_of_cached (by rwa [cacheKey_root hrevision])

end

/-! ## Lists of children -/

section

variable (w : Surroundings) (c : Context) (spot : Spot)

/-- The types of children whose numbers increase by `step`. -/
def synthRow (step : Nat) : Nat → List Expr → Check (List Ty)
  | _, [] => pure []
  | k, e :: es => do
    let t ← synth w c (spot.child k) none e
    let ts ← synthRow step (k + step) es
    pure (t :: ts)

theorem synthAll_eq (k : Nat) (es : List Expr) :
    synthAll w c spot k es = (do let _ ← synthRow w c spot 1 k es) := by
  induction es generalizing k with
  | nil => rfl
  | cons e es ih => simp [synthAll, synthRow, ih]

theorem synthNames_eq (k : Nat) (bindings : List (Expr × Expr)) :
    synthNames w c spot k bindings = (do let _ ← synthRow w c spot 2 k (bindings.map (·.1))) := by
  induction bindings generalizing k with
  | nil => rfl
  | cons b bindings ih => simp [synthNames, synthRow, ih]

theorem joinAll_eq (k : Nat) (T : Ty) (es : List Expr) :
    joinAll w c spot k T es = (do return (← synthRow w c spot 1 k es).foldl join T) := by
  induction es generalizing k T with
  | nil => rfl
  | cons e es ih => simp [joinAll, synthRow, ih]

theorem synthSequence_eq (k : Nat) (T : Ty) (es : List Expr) :
    synthSequence w c spot k T es = (do return (← synthRow w c spot 1 k es).getLast?.getD T) := by
  induction es generalizing k T with
  | nil => rfl
  | cons e es ih => simp [synthSequence, synthRow, ih, List.getLast?_cons]

end

/-! ## Slots of names -/

/-- Gives types to the names in slots, and skips holes. -/
def bindSlots (Γ : Env) : List Expr → List Ty → Env
  | .binding name _ :: slots, t :: ts => bindSlots (Γ.insert name t) slots ts
  | _ :: slots, _ :: ts => bindSlots Γ slots ts
  | _, _ => Γ

theorem bindParams_eq (Γ : Env) {params : List Expr} (ts : List Ty)
    (hparams : ∀ p ∈ params, p.identifier?.isSome) :
    bindParams Γ params ts = pure (bindSlots Γ params ts) := by
  induction params generalizing Γ ts with
  | nil => rfl
  | cons p params ih =>
    rw [List.forall_mem_cons] at hparams
    cases ts with
    | nil =>
      rw [bindParams, bindSlots]
      all_goals simp
    | cons t ts =>
      cases p with
      | hole => exact ih Γ ts hparams.2
      | binding name declared => exact ih (Γ.insert name t) ts hparams.2
      | _ => cases hparams.1

theorem bindRecursive_eq (Γ : Env) {bindings : List (Expr × Expr)}
    (hslots : ∀ b ∈ bindings, b.1.identifier?.isSome) :
    bindRecursive Γ bindings = pure (bindSlots Γ (bindings.map (·.1))
      (paramTypes (bindings.map (·.1)) (List.replicate bindings.length untyped))) := by
  induction bindings generalizing Γ with
  | nil => rfl
  | cons b bindings ih =>
    obtain ⟨slot, value⟩ := b
    rw [List.forall_mem_cons] at hslots
    cases slot with
    | hole => exact ih Γ hslots.2
    | binding name declared => exact ih (Γ.insert name (declared.getD untyped)) hslots.2
    | _ => cases hslots.1

/-! ## Fetching and marking -/

section

variable {name : String} {step : Pending → Check Ty} {s s' : CheckerState} {T : Ty} {d : Pending}

theorem run_fetch (name : String) (step : Pending → Check Ty) (s : CheckerState) :
    (fetch name step).run s =
      match s.computed.get? name with
      | some T => (.ok (some T), s)
      | none =>
        if s.computing.contains name then
          (.ok (some untyped), { s with log := s.log.push (.circular name) })
        else
          match s.definitions.get? name with
          | none => (.ok none, s)
          | some d => (some <$> step d).run s := by
  rw [fetch, run_get_bind]
  cases s.computed.get? name with
  | some T => rfl
  | none =>
    cases s.computing.contains name with
    | true => rfl
    | false => cases s.definitions.get? name <;> rfl

theorem run_fetch_computed (h : s.computed.get? name = some T) :
    (fetch name step).run s = (.ok (some T), s) := by
  rw [run_fetch, h]

theorem run_fetch_computing (h : s.computed.get? name = none) (hc : name ∈ s.computing) :
    (fetch name step).run s =
      (.ok (some untyped), { s with log := s.log.push (.circular name) }) := by
  rw [run_fetch, h, List.contains_iff_mem.2 hc]
  rfl

theorem run_fetch_unknown (h : s.computed.get? name = none) (hc : name ∉ s.computing)
    (hd : s.definitions.get? name = none) : (fetch name step).run s = (.ok none, s) := by
  rw [run_fetch, h, hd, Bool.eq_false_iff.2 (mt List.contains_iff_mem.1 hc)]
  rfl

theorem run_fetch_waiting (h : s.computed.get? name = none) (hc : name ∉ s.computing)
    (hd : s.definitions.get? name = some d) (hstep : (step d).run s = (.ok T, s')) :
    (fetch name step).run s = (.ok (some T), s') := by
  rw [run_fetch, h, hd, Bool.eq_false_iff.2 (mt List.contains_iff_mem.1 hc)]
  change (some <$> step d).run s = _
  rw [map_eq_pure_bind, run_bind_ok hstep]
  rfl

/-- `Ensures` for `fetch`, in each of the four cases. -/
theorem ensures_fetch {Q : Option Ty → CheckerState → Prop} {E : Fault → CheckerState → Prop}
    (hcomputed : ∀ T, s.computed.get? name = some T → Q (some T) s)
    (hcomputing : name ∈ s.computing →
      Q (some untyped) { s with log := s.log.push (.circular name) })
    (hunknown : s.definitions.get? name = none → Q none s)
    (hwaiting : ∀ d, s.computed.get? name = none → name ∉ s.computing →
      s.definitions.get? name = some d →
      Ensures (step d) s (fun T s' ↦ Q (some T) s') E) : Ensures (fetch name step) s Q E := by
  cases hT : s.computed.get? name with
  | some T => exact (ensures_ok (run_fetch_computed hT)).2 (hcomputed T hT)
  | none =>
    by_cases hbusy : name ∈ s.computing
    · exact (ensures_ok (run_fetch_computing hT hbusy)).2 (hcomputing hbusy)
    · cases hd : s.definitions.get? name with
      | none => exact (ensures_ok (run_fetch_unknown hT hbusy hd)).2 (hunknown hd)
      | some d =>
        rw [Ensures, run_fetch, hT, hd, Bool.eq_false_iff.2 (mt List.contains_iff_mem.1 hbusy)]
        exact (ensures_map some (step d) s Q E).2 (hwaiting d hT hbusy hd)

/-- `marked` removes the mark of a computation that returns, and keeps its type. -/
theorem run_marked {step : Check Ty}
    (h : step.run { s with computing := name :: s.computing } = (.ok T, s')) :
    (marked name step).run s = (.ok T, { s' with
      computing := s'.computing.erase name
      computed := s'.computed.insert name T }) := by
  -- The first bind is the mark; what is left runs in the marked state.
  rw [marked, run_bind]
  change ((tryCatch step _ >>= _ : Check Ty).run { s with computing := name :: s.computing }) = _
  rw [run_bind, run_tryCatch, h]
  rfl

/-- `Ensures` for `marked`, if the computation does not fail. -/
theorem ensures_marked {step : Check Ty} {Q : Ty → CheckerState → Prop}
    (h : Ensures step { s with computing := name :: s.computing } (fun T s' ↦ Q T { s' with
      computing := s'.computing.erase name
      computed := s'.computed.insert name T }) fun _ _ ↦ False) :
    Ensures (marked name step) s Q fun _ _ ↦ False := by
  rcases hrun : step.run { s with computing := name :: s.computing } with ⟨fault | T, s'⟩
  · exact ((ensures_error hrun).1 h).elim
  · exact (ensures_ok (run_marked hrun)).2 ((ensures_ok hrun).1 h)

end

end SchemeTyping.Check
