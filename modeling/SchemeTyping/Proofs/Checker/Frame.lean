import Mathlib.Data.Set.Basic
import SchemeTyping.Checker.Rules
import SchemeTyping.Proofs.Outcome

/-!
# What checking leaves alone

The checker caches the type of every spot at its key.  `region w spot` are the keys of a spot and of
everything below it, and `childRegion w spot I` those of the children whose numbers are in `I`.

## What is here

* `Frame K s s'` — between the two states, the cache changes in the region `K` only, diagnostics are
  not removed, and the definitions do not change.
* `foundAt` — the types in the cache at a spot and below it.
* `Works w spot I x s P` — the step `x` from the state `s` works at the children whose numbers are
  in `I`, and its result and what is found there satisfy `P` unless a diagnostic was recorded.  So
  nothing is left to show of a step that records one.  The laws of `Works` are those of the
  constructs that the rules are made of.
-/

set_option autoImplicit false

namespace SchemeTyping.Check

open Ty

variable {α β : Type} {w : Surroundings} {spot : Spot} {I J : Nat → Prop} {K L M : Set CacheKey}
  {s s₁ s₂ : CheckerState}

/-! ## Regions -/

/-- The keys of a spot and of everything below it. -/
def region (w : Surroundings) (spot : Spot) : Set CacheKey :=
  {key | key.tree = spot.place.tree ∧ key.revision = w.revision spot.place.tree ∧
    spot.place.path <+: key.path}

/-- The keys of the children of a spot whose numbers are in `I`, and of everything below them. -/
def childRegion (w : Surroundings) (spot : Spot) (I : Nat → Prop) : Set CacheKey :=
  {key | ∃ i, I i ∧ key ∈ region w (spot.child i)}

theorem cacheKey_mem_region (w : Surroundings) (spot : Spot) : cacheKey w spot ∈ region w spot :=
  ⟨rfl, rfl, List.prefix_rfl⟩

theorem mem_region_child {i : Nat} {key : CacheKey} : key ∈ region w (spot.child i) ↔
    key.tree = spot.place.tree ∧ key.revision = w.revision spot.place.tree ∧
      ∃ rest, key.path = spot.place.path ++ (i : Int) :: rest := by
  refine and_congr_right fun _ ↦ and_congr_right fun _ ↦ ?_
  simp only [Spot.child, Place.child, Path.child, List.prefix_iff_eq_append, List.append_assoc,
    List.cons_append, List.nil_append]
  exact ⟨fun h ↦ ⟨_, h.symm⟩, fun ⟨rest, h⟩ ↦ by simp [h]⟩

theorem childRegion_subset_region (w : Surroundings) (spot : Spot) (I : Nat → Prop) :
    childRegion w spot I ⊆ region w spot := by
  rintro key ⟨i, -, h⟩
  obtain ⟨htree, hrevision, rest, hpath⟩ := mem_region_child.1 h
  exact ⟨htree, hrevision, hpath ▸ List.prefix_append _ _⟩

theorem childRegion_mono (h : ∀ i, I i → J i) : childRegion w spot I ⊆ childRegion w spot J :=
  fun _ ⟨i, hi, hkey⟩ ↦ ⟨i, h i hi, hkey⟩

/-- Different children have different keys. -/
theorem notMem_childRegion {key : CacheKey} (h : ∀ i, I i → ¬ J i)
    (hkey : key ∈ childRegion w spot I) : key ∉ childRegion w spot J := by
  obtain ⟨i, hi, hkey⟩ := hkey
  rintro ⟨j, hj, hkey'⟩
  obtain ⟨-, -, rest, hpath⟩ := mem_region_child.1 hkey
  obtain ⟨-, -, rest', hpath'⟩ := mem_region_child.1 hkey'
  rw [hpath, List.append_cancel_left_eq, List.cons.injEq, Int.natCast_inj] at hpath'
  exact h i hi (hpath'.1 ▸ hj)

theorem region_child_eq (i : Nat) : region w (spot.child i) = childRegion w spot (· = i) := by
  ext key
  exact ⟨fun h ↦ ⟨i, rfl, h⟩, fun ⟨_, rfl, h⟩ ↦ h⟩

/-! ## States -/

/-- A state without definitions in which no type of the region is cached. -/
structure Ready (K : Set CacheKey) (s : CheckerState) : Prop where
  definitions : s.definitions = ∅
  computed : s.computed = ∅
  computing : s.computing = []
  fresh : ∀ key ∈ K, s.cache.get? key = none

/-- What is the same before and after work in a region. -/
structure Frame (K : Set CacheKey) (s s' : CheckerState) : Prop where
  errors : s'.errors = ∅ → s.errors = ∅
  definitions : s'.definitions = s.definitions
  computed : s'.computed = s.computed
  computing : s'.computing = s.computing
  cache : ∀ key ∉ K, s'.cache.get? key = s.cache.get? key

theorem Ready.mono (h : Ready K s) (hLK : L ⊆ K) : Ready L s :=
  ⟨h.definitions, h.computed, h.computing, fun key hkey ↦ h.fresh key (hLK hkey)⟩

theorem Frame.refl (K : Set CacheKey) (s : CheckerState) : Frame K s s :=
  ⟨id, rfl, rfl, rfl, fun _ _ ↦ rfl⟩

theorem Frame.mono (h : Frame K s s₁) (hKL : K ⊆ L) : Frame L s s₁ :=
  ⟨h.errors, h.definitions, h.computed, h.computing,
    fun key hkey ↦ h.cache key fun hK ↦ hkey (hKL hK)⟩

theorem Frame.trans (h : Frame K s s₁) (h' : Frame K s₁ s₂) : Frame K s s₂ where
  errors he := h.errors (h'.errors he)
  definitions := h'.definitions.trans h.definitions
  computed := h'.computed.trans h.computed
  computing := h'.computing.trans h.computing
  cache key hkey := (h'.cache key hkey).trans (h.cache key hkey)

/-- Work in another region keeps a region ready. -/
theorem Ready.frame (h : Ready L s) (hf : Frame K s s₁) (hKL : ∀ key ∈ L, key ∉ K) :
    Ready L s₁ where
  definitions := hf.definitions.trans h.definitions
  computed := hf.computed.trans h.computed
  computing := hf.computing.trans h.computing
  fresh key hkey := (hf.cache key (hKL key hkey)).trans (h.fresh key hkey)

/-- After a diagnostic was recorded, `errors` is not empty. -/
theorem insert_errors_ne (s : CheckerState) (place : Place) (d : Diagnostic) :
    s.errors.insert place d ≠ ∅ := fun h ↦ by
  have := congrArg (·.get? place) h
  simp at this

theorem Frame.report (K : Set CacheKey) (s : CheckerState) (place : Place) (d : Diagnostic) :
    Frame K s { s with errors := s.errors.insert place d } :=
  ⟨fun h ↦ absurd h (insert_errors_ne s place d), rfl, rfl, rfl, fun _ _ ↦ rfl⟩

/-! ## What is found below a spot -/

/-- The types in a cache at a spot and below it. -/
def foundAt (w : Surroundings) (cache : Cache) (spot : Spot) (path : Path) : Option Ty :=
  cache.get? ⟨spot.place.tree, w.revision spot.place.tree, spot.place.path ++ path⟩

/-- What `g` gives below the child at `i`. -/
def under (g : Path → Option Ty) (i : Nat) : Path → Option Ty := fun path ↦ g (i :: path)

theorem foundAt_nil (w : Surroundings) (cache : Cache) (spot : Spot) :
    foundAt w cache spot [] = cache.get? (cacheKey w spot) := by
  rw [foundAt, List.append_nil]
  rfl

theorem foundAt_child (w : Surroundings) (cache : Cache) (spot : Spot) (i : Nat) :
    foundAt w cache (spot.child i) = under (foundAt w cache spot) i := by
  funext path
  simp [foundAt, under, Spot.child, Place.child, Path.child]

theorem mem_childRegion {i : Nat} (hi : I i) (path : Path) :
    (⟨spot.place.tree, w.revision spot.place.tree, spot.place.path ++ (i : Int) :: path⟩ :
      CacheKey) ∈
      childRegion w spot I :=
  ⟨i, hi, mem_region_child.2 ⟨rfl, rfl, path, rfl⟩⟩

theorem under_eq_none (hs : Ready (childRegion w spot I) s) {i : Nat} (hi : I i) (path : Path) :
    under (foundAt w s.cache spot) i path = none :=
  hs.fresh _ (mem_childRegion hi path)

/-- Work at some children does not change what is found below the others. -/
theorem under_of_frame (h : Frame (childRegion w spot I) s s₁) {i : Nat} (hi : ¬ I i) :
    under (foundAt w s₁.cache spot) i = under (foundAt w s.cache spot) i := by
  funext path
  exact h.cache _ (notMem_childRegion (I := (· = i)) (fun _ hj ↦ hj ▸ hi)
    (mem_childRegion (I := (· = i)) rfl path))

/-! ## Steps -/

/-- `x` works at the children of `spot` whose numbers are in `I`.  Unless a diagnostic was recorded,
`P` holds of its result and of every `g` that agrees with what is found at these children then.  A
failure of `x` is a diagnostic. -/
def Works (w : Surroundings) (spot : Spot) (I : Nat → Prop) (x : Check α) (s : CheckerState)
    (P : α → (Path → Option Ty) → Prop) : Prop :=
  Ensures x s
    (fun a s' ↦ Frame (childRegion w spot I) s s' ∧ (s'.errors = ∅ →
      ∀ g, (∀ i, I i → under g i = under (foundAt w s'.cache spot) i) → P a g))
    fun fault s' ↦ Frame (childRegion w spot I) s s' ∧ ∃ d, fault = .diagnosed d

variable {N : Nat → Prop} {x : Check α} {f : α → Check β} {P P' : α → (Path → Option Ty) → Prop}
  {R : β → (Path → Option Ty) → Prop}

theorem Works.mono (h : Works w spot I x s P) (hIJ : ∀ i, I i → J i) (hP : ∀ a g, P a g → P' a g) :
    Works w spot J x s P' :=
  Ensures.mono h
    (fun a _ h ↦
      ⟨h.1.mono (childRegion_mono hIJ), fun he g hg ↦ hP a g (h.2 he g fun i hi ↦ hg i (hIJ i hi))⟩)
    fun _ _ h ↦ ⟨h.1.mono (childRegion_mono hIJ), h.2⟩

theorem Works.imp (h : Works w spot I x s P) (hP : ∀ a g, P a g → P' a g) : Works w spot I x s P' :=
  h.mono (fun _ ↦ id) hP

theorem Works.pure {a : α}
    (h : ∀ g, (∀ i, I i → under g i = under (foundAt w s.cache spot) i) → P a g) :
    Works w spot I (Pure.pure a) s P :=
  ⟨.refl _ s, fun _ ↦ h⟩

theorem Works.throw (d : Diagnostic) :
    Works w spot I (MonadExcept.throw (.diagnosed d) : Check α) s P :=
  ⟨.refl _ s, d, rfl⟩

/-- A step at some of the children, followed by one at others. -/
theorem Works.next (hs : Ready (childRegion w spot I) s)
    (hx : Ready (childRegion w spot N) s → Works w spot N x s P) (hN : ∀ i, N i → I i)
    (hJ : ∀ i, J i → I i ∧ ¬ N i)
    (hf : ∀ a s', Ready (childRegion w spot J) s' →
      Works w spot J (f a) s' fun b g ↦ P a g → R b g) :
    Works w spot I (x >>= f) s R := by
  have hNI : childRegion w spot N ⊆ childRegion w spot I := childRegion_mono hN
  have hJI : childRegion w spot J ⊆ childRegion w spot I := childRegion_mono fun i hi ↦ (hJ i hi).1
  rw [Works, ensures_bind]
  refine Ensures.mono (hx (hs.mono hNI)) (fun a s₁ ⟨h, hP⟩ ↦ ?_) fun _ _ h ↦ ⟨h.1.mono hNI, h.2⟩
  have hs₁ := (hs.mono hJI).frame h fun _ ↦ notMem_childRegion fun i hi ↦ (hJ i hi).2
  refine Ensures.mono (hf a s₁ hs₁) (fun b s₂ ⟨h', hR⟩ ↦ ⟨?_, fun he g hg ↦ ?_⟩)
    fun _ s₂ ⟨h', hd⟩ ↦ ⟨?_, hd⟩
  · exact (h.mono hNI).trans (h'.mono hJI)
  · refine hR he g (fun i hi ↦ hg i (hJ i hi).1) (hP (h'.errors he) g fun i hi ↦ ?_)
    exact (hg i (hN i hi)).trans (under_of_frame h' fun hj ↦ (hJ i hj).2 hi)
  · exact (h.mono hNI).trans (h'.mono hJI)

/-- A step that works at no child leaves everything ready. -/
theorem Works.still (hs : Ready (childRegion w spot I) s) (hx : Works w spot (fun _ ↦ False) x s P)
    (hf : ∀ a s', Ready (childRegion w spot I) s' →
      Works w spot I (f a) s' fun b g ↦ P a g → R b g) :
    Works w spot I (x >>= f) s R :=
  Works.next hs (fun _ ↦ hx) (fun _ ↦ False.elim) (fun _ hi ↦ ⟨hi, id⟩) hf

/-- A step whose result is only passed on. -/
theorem Works.last {b : α → β} (hx : Works w spot I x s fun a ↦ R (b a)) :
    Works w spot I (x >>= fun a ↦ Pure.pure (b a)) s R := by
  rw [Works, ensures_bind]
  exact hx

/-- After `report` there is nothing left to show. -/
theorem works_report (place : Place) (d : Diagnostic) {P : Unit → (Path → Option Ty) → Prop} :
    Works w spot I (report place d) s P :=
  ⟨.report _ s place d, fun h ↦ absurd h (insert_errors_ne s place d)⟩

theorem works_demand {spot' : Spot} (e : Expr) (found wanted : Ty) :
    Works w spot I (demand spot' e found wanted) s fun _ _ ↦ found.isSubtype wanted = true := by
  rw [demand]
  split
  · rename_i h
    exact .pure fun _ _ ↦ h
  · exact works_report _ _

/-- The type of a spot that is not cached is found by its rule and then cached. -/
theorem ensures_cached {step : Check Ty} {P : Ty → (Path → Option Ty) → Prop}
    (hs : Ready (region w spot) s) (h : Ready (childRegion w spot fun _ ↦ True) s →
      Works w spot (fun _ ↦ True) step s fun t g ↦ g [] = some t → P t g) :
    Ensures (do
      match (← get).cache.get? (cacheKey w spot) with
      | some t => return t
      | none =>
        let type ← Check.reporting spot.place step
        modify fun s ↦ { s with cache := s.cache.insert (cacheKey w spot) type }
        return type) s
      (fun t s' ↦ Frame (region w spot) s s' ∧ (s'.errors = ∅ → P t (foundAt w s'.cache spot)))
      fun _ _ ↦ False := by
  have hsub := childRegion_subset_region w spot fun _ ↦ True
  -- Once there is a type at the spot, only what is found below it matters.
  have hrecord (t : Ty) {s₁ : CheckerState} (h₁ : Frame (childRegion w spot fun _ ↦ True) s s₁)
      (hP : s₁.errors = ∅ → ∀ g, (∀ i, True → under g i = under (foundAt w s₁.cache spot) i) →
        g [] = some t → P t g) :
      Frame (region w spot) s { s₁ with cache := s₁.cache.insert (cacheKey w spot) t } ∧
        (s₁.errors = ∅ → P t (foundAt w (s₁.cache.insert (cacheKey w spot) t) spot)) := by
    refine ⟨(h₁.mono hsub).trans ⟨id, rfl, rfl, rfl, fun key hkey ↦ ?_⟩,
      fun he ↦ hP he _ (fun i _ ↦ ?_) ?_⟩
    · refine (OrdMap.get?_insert ..).trans (if_neg ?_)
      rintro rfl
      exact hkey (cacheKey_mem_region w spot)
    · funext path
      rw [under, under, foundAt, foundAt, OrdMap.get?_insert, if_neg]
      simp [cacheKey]
    · rw [foundAt_nil, OrdMap.get?_insert, if_pos rfl]
  rw [ensures_bind, ensures_get, hs.fresh _ (cacheKey_mem_region w spot)]
  refine (ensures_bind ..).2 ?_
  rw [Check.reporting, ensures_tryCatch]
  refine Ensures.mono (h (hs.mono hsub)) (fun t s₁ ⟨h₁, hP⟩ ↦ hrecord t h₁ hP) ?_
  rintro _ s₁ ⟨h₁, d, rfl⟩
  exact hrecord untyped (h₁.trans (.report _ s₁ spot.place d))
    fun he ↦ absurd he (insert_errors_ne s₁ spot.place d)

end SchemeTyping.Check
