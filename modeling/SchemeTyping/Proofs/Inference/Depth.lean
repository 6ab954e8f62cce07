import SchemeTyping.Proofs.Inference.Solution

/-!
# The depth of unification

Unification goes into the parameters of two types, and these may be parameters of solutions it has
just found.  So the height of the types alone does not bound the depth of the recursion.  An unknown
that is solved by one of the types at most doubles the heights of all of them, and there is then one
unknown less to solve.  `Store.depth` is the height of a type, doubled for every unknown without a
solution.

## What is here

* `keepsDepth_of_bind` — solving an unknown does not raise a depth above that of its solution,
  unless it was above that before.
* `keepsDepth_of_solves` — neither does writing back a solution that the store has already.
-/

set_option autoImplicit false

namespace SchemeTyping

namespace Ty

mutual

/-- The number of constructors on a longest path of a type. -/
def height : Ty → Nat
  | .var _ => 0
  | .unknown _ => 0
  | .con _ ps => 1 + heightList ps
  | .variadic _ _ ps => 1 + heightList ps
  | .all _ body => 1 + body.height

/-- The greatest height of the types of a list. -/
def heightList : List Ty → Nat
  | [] => 0
  | t :: ts => Nat.max t.height (heightList ts)

end

variable {t q : Ty} {ps : List Ty} {f : String → Ty} {n : Nat}

theorem heightList_le_iff : heightList ps ≤ n ↔ ∀ p ∈ ps, p.height ≤ n := by
  induction ps with
  | nil => simp [heightList]
  | cons p ps ih => rw [heightList, Nat.max_le, ih, List.forall_mem_cons]

theorem height_le_heightList (h : q ∈ ps) : q.height ≤ heightList ps :=
  heightList_le_iff.1 (Nat.le_refl _) q h

theorem height_lt_of_mem_params (h : q ∈ t.params) : q.height < t.height := by
  cases t with
  | con tag ps =>
    have : q.height ≤ heightList ps := height_le_heightList h
    rw [height]
    omega
  | variadic min max ps =>
    have : q.height ≤ heightList ps := height_le_heightList h
    rw [height]
    omega
  | _ => cases h

/-- If the types put in have height at most `n`, `fill` adds at most `n` to the height. -/
theorem height_fill_le (h : ∀ id ∈ t.unknowns, (f id).height ≤ n) :
    (t.fill f).height ≤ t.height + n := by
  have hrow : ∀ {ps : List Ty}, (∀ q ∈ ps, (∀ id ∈ q.unknowns, (f id).height ≤ n) →
      (q.fill f).height ≤ q.height + n) → (∀ id ∈ ps.flatMap unknowns, (f id).height ≤ n) →
      heightList (ps.map (fill f)) ≤ heightList ps + n := by
    intro ps ih hps
    rw [heightList_le_iff, List.forall_mem_map]
    intro q hq
    have hle := ih q hq fun id hid ↦ hps id (List.mem_flatMap.2 ⟨q, hq, hid⟩)
    have := height_le_heightList hq
    omega
  induction t with
  | var => simp [height]
  | unknown id =>
    rw [height, Nat.zero_add]
    exact h id (by simp)
  | con tag ps ih =>
    have := hrow ih (unknowns_con tag ps ▸ h)
    rw [fill_con, height, height]
    omega
  | variadic min max ps ih =>
    have := hrow ih (unknowns_variadic ps min max ▸ h)
    rw [fill_variadic, height, height]
    omega
  | all bound body ih =>
    have := ih h
    rw [fill_all, height, height]
    omega

theorem height_le_height_fill (f : String → Ty) (t : Ty) : t.height ≤ (t.fill f).height := by
  have hrow : ∀ {ps : List Ty}, (∀ q ∈ ps, q.height ≤ (q.fill f).height) →
      heightList ps ≤ heightList (ps.map (fill f)) := fun ih ↦
    heightList_le_iff.2 fun q hq ↦ (ih q hq).trans (height_le_heightList (List.mem_map_of_mem hq))
  induction t with
  | var | unknown => simp [height]
  | con tag ps ih =>
    rw [fill_con, height, height]
    exact Nat.add_le_add_left (hrow ih) 1
  | variadic min max ps ih =>
    rw [fill_variadic, height, height]
    exact Nat.add_le_add_left (hrow ih) 1
  | all bound body ih =>
    rw [fill_all, height, height]
    exact Nat.add_le_add_left ih 1

theorem height_core (t : Ty) : t.core.height = t.height := by
  have hrow : ∀ {ps : List Ty}, (∀ q ∈ ps, q.core.height = q.height) →
      heightList (ps.map core) = heightList ps := by
    intro ps ih
    induction ps with
    | nil => rfl
    | cons q ps ih' =>
      rw [List.forall_mem_cons] at ih
      rw [List.map_cons, heightList, heightList, ih.1, ih' ih.2]
  induction t with
  | var | unknown => rfl
  | con tag ps ih => rw [core_con, height, height, hrow ih]
  | variadic min max ps ih => rw [core_variadic, height, height, hrow ih]
  | all bound body ih => rw [core_all, height, height, ih]

theorem size_pos (t : Ty) : 0 < t.size := by
  cases t <;> rw [size] <;> omega

theorem height_le_size (t : Ty) : t.height ≤ t.size := by
  have hrow : ∀ {ps : List Ty}, (∀ q ∈ ps, q.height ≤ q.size) → heightList ps ≤ sizeList ps :=
    fun ih ↦ heightList_le_iff.2 fun q hq ↦ (ih q hq).trans (size_le_sizeList _ hq)
  induction t with
  | var | unknown => simp [height]
  | con tag ps ih =>
    rw [height, size]
    exact Nat.add_le_add_left (hrow ih) 1
  | variadic min max ps ih =>
    rw [height, size]
    exact Nat.add_le_add_left (hrow ih) 1
  | all bound body ih =>
    rw [height, size]
    exact Nat.add_le_add_left ih 1

theorem params_core_fill (h : ∀ id, t ≠ unknown id) :
    (t.core.fill f).params = t.params.map fun q ↦ q.core.fill f := by
  cases t with
  | con tag ps =>
    rw [core_con, fill_con]
    exact List.map_map
  | variadic min max ps =>
    rw [core_variadic, fill_variadic]
    exact List.map_map
  | unknown id => exact absurd rfl (h id)
  | _ => rfl

theorem mem_params_core_fill (h : q ∈ t.params) : q.core.fill f ∈ (t.core.fill f).params := by
  rw [params_core_fill]
  · exact List.mem_map_of_mem h
  · rintro id rfl
    cases h

end Ty

namespace Store

variable {store store' store'' : Store} {θ : String → Ty} {id : String} {t u q : Ty} {m n : Nat}

/-- The unknowns without a solution. -/
def unsolved (store : Store) : Finset String :=
  store.keys.toFinset.filter fun k ↦ store.value? k = some (.unknown k)

theorem mem_unsolved : id ∈ store.unsolved ↔ store.value? id = some (.unknown id) := by
  rw [unsolved, Finset.mem_filter, List.mem_toFinset]
  exact ⟨And.right, fun h ↦ ⟨mem_keys_of_value? h, h⟩⟩

/-- The height of `store.apply t`, doubled for every unknown without a solution. -/
def depth (store : Store) (t : Ty) : Nat :=
  Nat.pow 2 store.unsolved.card * (t.core.fill store.solution).height

theorem depth_resolve (hs : store.Acyclic) (t : Ty) :
    store.depth (store.resolve t) = store.depth t := by
  rw [depth, (solves_solution hs).fill_resolve, depth]

theorem depth_lt_of_mem_params (store : Store) (h : q ∈ t.params) : store.depth q < store.depth t :=
  Nat.mul_lt_mul_of_pos_left (Ty.height_lt_of_mem_params (Ty.mem_params_core_fill h))
    (Nat.pow_pos (by omega))

theorem card_unsolved_le (store : Store) : store.unsolved.card ≤ store.size :=
  calc store.unsolved.card ≤ store.keys.toFinset.card := Finset.card_filter_le _ _
    _ ≤ store.keys.length := List.toFinset_card_le _
    _ = store.size := by rw [Forest.keys, OrdMap.keys, List.length_map]; rfl

/-- The size of `store.apply t` gives a bound for the depth. -/
theorem depth_le (store : Store) (t : Ty) :
    store.depth t ≤ Nat.pow 2 store.size * (store.apply t).size := by
  rw [depth, ← core_apply, Ty.height_core]
  exact Nat.mul_le_mul (Nat.pow_le_pow_right (by omega) store.card_unsolved_le)
    (Ty.height_le_size _)

/-! ## Changing a store -/

/-- No depth is raised above `n`, unless it was above that before. -/
def KeepsDepth (n : Nat) (store store' : Store) : Prop :=
  ∀ m, n ≤ m → ∀ t, store.depth t ≤ m → store'.depth t ≤ m

theorem KeepsDepth.refl (n : Nat) (store : Store) : KeepsDepth n store store := fun _ _ _ ↦ id

theorem KeepsDepth.trans (h : KeepsDepth n store store') (h' : KeepsDepth n store' store'') :
    KeepsDepth n store store'' :=
  fun m hm t ht ↦ h' m hm t (h m hm t ht)

theorem KeepsDepth.mono (h : KeepsDepth m store store') (hmn : m ≤ n) : KeepsDepth n store store' :=
  fun k hk ↦ h k (hmn.trans hk)

/-- The most general solution makes a type no higher than any other solution does. -/
theorem Solves.height_le (hθ : store.Solves θ) (t : Ty) :
    (t.core.fill store.solution).height ≤ (t.core.fill θ).height := by
  have hfactor : (t.core.fill store.solution).fill θ = t.core.fill θ := by
    rw [Ty.fill_fill]
    exact Ty.fill_congr fun id _ ↦ (hθ.eq_fill_solution id).symm
  exact hfactor ▸ Ty.height_le_height_fill θ _

theorem Solves.fill (hθ : store.Solves θ) (ρ : String → Ty) :
    store.Solves fun k ↦ (θ k).fill ρ := by
  intro k t ht
  exact (congrArg (Ty.fill ρ) (hθ k t ht)).trans (Ty.fill_fill ..)

theorem keepsDepth_of_solves (n : Nat) (hunsolved : store'.unsolved ⊆ store.unsolved)
    (hsol : store'.Solves store.solution) : KeepsDepth n store store' := by
  intro m _ t ht
  refine Nat.le_trans (Nat.mul_le_mul ?_ (hsol.height_le t)) ht
  exact Nat.pow_le_pow_right (by omega) (Finset.card_le_card hunsolved)

theorem keepsDepth_of_bind (hs : store.Acyclic) (hunsolved : store'.unsolved ⊂ store.unsolved)
    (hid : store.next? id = none) (hocc : id ∉ (store.apply u).unknowns)
    (hsol : ∀ θ, store.Solves θ → θ id = u.core.fill θ → store'.Solves θ) (hu : store.depth u ≤ n) :
    KeepsDepth n store store' := by
  intro m hm t ht
  -- A solution of the new store: the most general one of the old, with the new solution put in.
  let T := u.core.fill store.solution
  let ρ : String → Ty := fun k ↦ if k = id then T else .unknown k
  have hT : T.fill ρ = T := by
    refine (Ty.fill_congr fun k hk ↦ if_neg ?_).trans (Ty.fill_self T)
    rintro rfl
    rw [show T = (store.apply u).core from (core_apply store u).symm, Ty.unknowns_core] at hk
    exact hocc hk
  have hθ : store'.Solves fun k ↦ (store.solution k).fill ρ := by
    refine hsol _ ((solves_solution hs).fill ρ) ?_
    rw [solution_of_none hid, Ty.fill_unknown, ← Ty.fill_fill]
    exact (if_pos rfl).trans hT.symm
  have hheight : (t.core.fill store'.solution).height ≤
      (t.core.fill store.solution).height + T.height := by
    refine (hθ.height_le t).trans ?_
    rw [← Ty.fill_fill]
    refine Ty.height_fill_le fun k _ ↦ ?_
    simp only [ρ]
    split
    · exact Nat.le_refl _
    · exact Nat.zero_le _
  have hpow : 2 * Nat.pow 2 store'.unsolved.card ≤ Nat.pow 2 store.unsolved.card := by
    rw [Nat.mul_comm]
    exact Nat.pow_le_pow_right (n := 2) (by omega) (Finset.card_lt_card hunsolved)
  replace hu : Nat.pow 2 store.unsolved.card * T.height ≤ n := hu
  rw [depth] at ht ⊢
  generalize Nat.pow 2 store'.unsolved.card = a' at hpow ⊢
  generalize Nat.pow 2 store.unsolved.card = a at hpow ht hu
  have hdouble : 2 * (a' * (t.core.fill store'.solution).height) ≤
      a * (t.core.fill store.solution).height + a * T.height :=
    calc 2 * (a' * (t.core.fill store'.solution).height)
        = 2 * a' * (t.core.fill store'.solution).height := (Nat.mul_assoc ..).symm
      _ ≤ a * ((t.core.fill store.solution).height + T.height) := Nat.mul_le_mul hpow hheight
      _ = _ := Nat.mul_add ..
  omega

end Store

end SchemeTyping
