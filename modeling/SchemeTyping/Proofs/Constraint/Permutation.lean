import Mathlib.Data.List.TakeWhile
import Mathlib.Order.MinMax
import SchemeTyping.Proofs.Constraint.Comparisons
import SchemeTyping.Proofs.Constraint.Intersection

/-!
# The order of meets

Every argument of a call gives a set of constraints, and `ConstraintSet.meetAll` meets the sets one
by one.  Its result does not depend on their order: on each variable it is the intersection of the
constraints, or `untyped` if one of them is.

Whether there is a result may depend on the order.  `meetAll` stops at the first meet that fails,
but a meet with `untyped` does not fail.  So of the constraints on a variable only those before the
first untyped one must have a common solution (`ConstraintSet.meetAll_eq_none_of_late_untyped`).

## What is here

* `Constraint.isSome_meetAll_iff_takeWhile` — which constraints must have a common solution.
* `ConstraintSet.on_meetAll` — sets are met variable by variable.
* `ConstraintSet.meetAll_perm` — what a permutation of the sets can and cannot change.
-/

set_option autoImplicit false

namespace SchemeTyping

open Ty

namespace Constraint

variable {c c' d m m' : Constraint} {cs ds : List Constraint} {absent : String}

/-! ## The result -/

/-- The kind of a constraint.  The kind of a meet is the larger one of the two. -/
def rank : Constraint → Nat
  | .between _ _ => 0
  | .equal _ => 1
  | .untyped => 2

theorem rank_le_one_iff : c.rank ≤ 1 ↔ c ≠ .untyped := by
  cases c <;> simp [rank]

theorem Meets.rank_eq (h : Meets c c' d) : d.rank = max c.rank c'.rank := by
  cases h with
  | untypedLeft => cases c' <;> rfl
  | untypedRight => cases c <;> rfl
  | _ => rfl

theorem rank_le_iff_of_foldlM {k : Nat} (h : cs.foldlM meet c = some m) :
    m.rank ≤ k ↔ c.rank ≤ k ∧ ∀ d ∈ cs, d.rank ≤ k := by
  induction cs generalizing c with
  | nil =>
    cases h
    simp
  | cons c' cs ih =>
    obtain ⟨d, hd, h⟩ := foldlM_meet_cons_iff.1 h
    rw [ih h, hd.rank_eq, max_le_iff, List.forall_mem_cons, and_assoc]

theorem rank_le_iff_of_meetAll {k : Nat} (h : meetAll cs = some m) :
    m.rank ≤ k ↔ ∀ d ∈ cs, d.rank ≤ k := by
  rw [meetAll_eq_foldlM] at h
  rw [rank_le_iff_of_foldlM h]
  exact and_iff_right (Nat.zero_le k)

/-- `meetAll cs` is `untyped` exactly if one of `cs` is. -/
theorem ne_untyped_iff_of_meetAll (h : meetAll cs = some m) :
    m ≠ .untyped ↔ ∀ c ∈ cs, c ≠ .untyped := by
  simpa only [rank_le_one_iff] using rank_le_iff_of_meetAll (k := 1) h

/-- Two satisfiable constraints of one `rank` that the same tidy types satisfy are equal. -/
theorem eq_of_holds_iff (hc : c.Typed (Tidy absent)) (hd : d.Typed (Tidy absent))
    (hcsat : c.isSatisfiable = true) (hdsat : d.isSatisfiable = true) (hrank : c.rank = d.rank)
    (h : ∀ t : Ty, t.Tidy absent → (c.Holds t ↔ d.Holds t)) : c = d := by
  cases c with
  | untyped => exact absurd rfl hc.ne_untyped
  | equal s =>
    cases d with
    | equal s' =>
      obtain rfl : s = s' := (h s (hc.types s List.mem_cons_self)).1 rfl
      rfl
    | between | untyped => simp [rank] at hrank
  | between lower upper =>
    cases d with
    | between lower' upper' =>
      obtain ⟨hlower, hupper⟩ : lower.Tidy absent ∧ upper.Tidy absent := by
        simpa [types] using hc.types
      obtain ⟨hlower', hupper'⟩ : lower'.Tidy absent ∧ upper'.Tidy absent := by
        simpa [types] using hd.types
      -- Each bound satisfies its own constraint, hence the other one.
      have hl := (h lower hlower).1 ⟨isSubtype_refl lower, hcsat⟩
      have hl' := (h lower' hlower').2 ⟨isSubtype_refl lower', hdsat⟩
      have hu := (h upper hupper).1 ⟨hcsat, isSubtype_refl upper⟩
      have hu' := (h upper' hupper').2 ⟨hdsat, isSubtype_refl upper'⟩
      rw [isSubtype_antisymm hlower.proper hlower'.proper hl'.1 hl.1,
        isSubtype_antisymm hupper.proper hupper'.proper hu.2 hu'.2]
    | equal | untyped => simp [rank] at hrank

/-- `meetAll` does not depend on the order of the constraints where it succeeds. -/
theorem meetAll_eq_of_perm (habsent : absent = "Empty" ∨ absent = "Null")
    (hcs : ∀ c ∈ cs, ∀ t ∈ c.types, t.Tidy absent) (hperm : cs.Perm ds) (hm : meetAll cs = some m)
    (hm' : meetAll ds = some m') : m = m' := by
  have hrank : ∀ k, m.rank ≤ k ↔ m'.rank ≤ k := by
    intro k
    rw [rank_le_iff_of_meetAll hm, rank_le_iff_of_meetAll hm']
    simp only [hperm.mem_iff]
  by_cases huntyped : m = .untyped
  · have huntyped' : m' = .untyped := by
      by_contra hne
      exact rank_le_one_iff.1 ((hrank 1).2 (rank_le_one_iff.2 hne)) huntyped
    rw [huntyped, huntyped']
  · have htyped : ∀ c ∈ cs, c.Typed (Tidy absent) := fun c hc ↦
      ⟨(ne_untyped_iff_of_meetAll hm).1 huntyped c hc, hcs c hc⟩
    have htyped' : ∀ c ∈ ds, c.Typed (Tidy absent) := fun c hc ↦ htyped c (hperm.mem_iff.2 hc)
    obtain ⟨hmtyped, hmsat⟩ := typed_meetAll habsent htyped hm
    obtain ⟨hmtyped', hmsat'⟩ := typed_meetAll habsent htyped' hm'
    refine eq_of_holds_iff hmtyped hmtyped' hmsat hmsat'
      (le_antisymm ((hrank _).2 le_rfl) ((hrank _).1 le_rfl)) fun t ht ↦ ?_
    rw [holds_meetAll_iff habsent htyped hm ht, holds_meetAll_iff habsent htyped' hm' ht]
    simp only [hperm.mem_iff]

/-! ## Whether there is a result -/

theorem foldlM_untyped (cs : List Constraint) : cs.foldlM meet .untyped = some .untyped := by
  induction cs with
  | nil => rfl
  | cons c cs ih => exact foldlM_meet_cons_iff.2 ⟨.untyped, .untypedLeft, ih⟩

/-- The constraints after the first untyped one do not matter for whether `foldlM meet` succeeds. -/
theorem isSome_foldlM_takeWhile :
    (cs.foldlM meet c).isSome = ((cs.takeWhile (· ≠ .untyped)).foldlM meet c).isSome := by
  induction cs generalizing c with
  | nil => rfl
  | cons c' cs ih =>
    by_cases hc' : c' = .untyped
    · subst hc'
      have hfold : (.untyped :: cs).foldlM meet c = some .untyped :=
        foldlM_meet_cons_iff.2 ⟨.untyped, .untypedRight, foldlM_untyped cs⟩
      rw [hfold, List.takeWhile_cons_of_neg (by simp)]
      rfl
    · rw [List.takeWhile_cons_of_pos (by simpa using hc'), List.foldlM_cons, List.foldlM_cons]
      cases c.meet c' with
      | none => rfl
      | some d => exact ih

/-- `meetAll cs` succeeds exactly if the constraints before the first untyped one have a common
solution. -/
theorem isSome_meetAll_iff_takeWhile (habsent : absent = "Empty" ∨ absent = "Null")
    (hcs : ∀ c ∈ cs, ∀ t ∈ c.types, t.Tidy absent) : (meetAll cs).isSome = true ↔
      ∃ t : Ty, t.Tidy absent ∧ ∀ c ∈ cs.takeWhile (· ≠ .untyped), c.Holds t := by
  rw [meetAll_eq_foldlM, isSome_foldlM_takeWhile, ← meetAll_eq_foldlM]
  refine isSome_meetAll_iff habsent fun c hc ↦ ⟨?_, hcs c ((List.takeWhile_subset _) hc)⟩
  simpa using List.mem_takeWhile_imp hc

end Constraint

namespace ConstraintSet

variable {S T V W : ConstraintSet} {Ss Ts : List ConstraintSet} {absent x : String}

/-! ## Variable by variable -/

theorem on_foldlM (h : Ss.foldlM meet T = some V) (x : String) :
    (Ss.map (·.on x)).foldlM Constraint.meet (T.on x) = some (V.on x) := by
  induction Ss generalizing T with
  | nil =>
    cases h
    rfl
  | cons S Ss ih =>
    obtain ⟨U, hU, h⟩ := foldlM_meet_cons_iff.1 h
    exact Constraint.foldlM_meet_cons_iff.2
      ⟨U.on x, Constraint.meet_eq_some_iff.1 (on_meet hU x), ih h⟩

/-- `meetAll Ss` has on every variable the meet of the constraints. -/
theorem on_meetAll (h : meetAll Ss = some V) (x : String) :
    Constraint.meetAll (Ss.map (·.on x)) = some (V.on x) := by
  rw [meetAll_eq_foldlM] at h
  rw [Constraint.meetAll_eq_foldlM]
  exact on_foldlM h x

theorem exists_meet_of_on (h : ∀ x, ∃ d, (S.on x).meet (T.on x) = some d) :
    ∃ V, S.meet T = some V := by
  obtain ⟨V, hV, -⟩ := exists_meet_of_names (P := fun _ _ ↦ True) fun x _ ↦
    (h x).imp fun _ hd ↦ ⟨hd, trivial⟩
  exact ⟨V, hV⟩

theorem exists_foldlM_of_on
    (h : ∀ x, ∃ m, (Ss.map (·.on x)).foldlM Constraint.meet (T.on x) = some m) :
    ∃ V, Ss.foldlM meet T = some V := by
  induction Ss generalizing T with
  | nil => exact ⟨T, rfl⟩
  | cons S Ss ih =>
    have hstep : ∀ x, ∃ d, (T.on x).meet (S.on x) = some d ∧
        ∃ m, (Ss.map (·.on x)).foldlM Constraint.meet d = some m := by
      intro x
      obtain ⟨m, hm⟩ := h x
      obtain ⟨d, hd, hm⟩ := Constraint.foldlM_meet_cons_iff.1 hm
      exact ⟨d, Constraint.meet_eq_some_iff.2 hd, m, hm⟩
    obtain ⟨U, hU⟩ := exists_meet_of_on fun x ↦ (hstep x).imp fun _ ↦ And.left
    obtain ⟨V, hV⟩ := ih (T := U) fun x ↦ by
      obtain ⟨d, hd, hm⟩ := hstep x
      obtain rfl : d = U.on x := Option.some.inj (hd.symm.trans (on_meet hU x))
      exact hm
    exact ⟨V, foldlM_meet_cons_iff.2 ⟨U, hU, hV⟩⟩

/-- `meetAll Ss` succeeds exactly if it does on every variable. -/
theorem isSome_meetAll_iff_on :
    (meetAll Ss).isSome = true ↔ ∀ x, (Constraint.meetAll (Ss.map (·.on x))).isSome = true := by
  simp only [Option.isSome_iff_exists]
  constructor
  · rintro ⟨V, hV⟩ x
    exact ⟨V.on x, on_meetAll hV x⟩
  · intro h
    simp only [Constraint.meetAll_eq_foldlM] at h
    rw [meetAll_eq_foldlM]
    exact exists_foldlM_of_on h

theorem mem_keys_meet (h : S.meet T = some V) : x ∈ V.keys ↔ x ∈ S.keys ∨ x ∈ T.keys := by
  have hget := get?_meet h x
  rw [← OrdMap.isSome_get?_iff, ← mem_names]
  split at hget
  · rename_i hname
    obtain ⟨c, -, hc⟩ := hget
    simp [hc, hname]
  · rename_i hname
    simp [hget, hname]

theorem mem_keys_foldlM (h : Ss.foldlM meet T = some V) :
    x ∈ V.keys ↔ x ∈ T.keys ∨ ∃ S ∈ Ss, x ∈ S.keys := by
  induction Ss generalizing T with
  | nil =>
    cases h
    simp
  | cons S Ss ih =>
    obtain ⟨U, hU, h⟩ := foldlM_meet_cons_iff.1 h
    rw [ih h, mem_keys_meet hU, or_assoc, List.exists_mem_cons_iff]

/-- `meetAll Ss` has constraints on the variables of all sets. -/
theorem mem_keys_meetAll (h : meetAll Ss = some V) : x ∈ V.keys ↔ ∃ S ∈ Ss, x ∈ S.keys := by
  rw [meetAll_eq_foldlM] at h
  rw [mem_keys_foldlM h]
  exact or_iff_right List.not_mem_nil

theorem get?_eq_ite (S : ConstraintSet) (x : String) :
    S.get? x = if x ∈ S.keys then some (S.on x) else none := by
  rw [ConstraintSet.on]
  cases hc : S.get? x with
  | none => rw [if_neg (OrdMap.get?_eq_none_iff.1 hc)]
  | some c =>
    rw [if_pos (OrdMap.isSome_get?_iff.1 (by rw [hc, Option.isSome_some])), Option.getD_some]

/-! ## Permutations -/

/-- A set whose constraints are made of tidy types. -/
def TidyBounds (absent : String) (S : ConstraintSet) : Prop :=
  ∀ c ∈ S.values, ∀ t ∈ c.types, t.Tidy absent

instance (absent : String) : DecidablePred (TidyBounds absent) := fun S ↦
  inferInstanceAs (Decidable (∀ c ∈ S.values, ∀ t ∈ c.types, t.Tidy absent))

theorem TidyBounds.on (habsent : absent = "Empty" ∨ absent = "Null") (h : S.TidyBounds absent)
    (x : String) : ∀ t ∈ (S.on x).types, t.Tidy absent :=
  on_cases (P := fun c ↦ ∀ t ∈ c.types, t.Tidy absent)
    (Constraint.typed_top (tidy_never habsent) (tidy_any habsent)).types
    fun c hc ↦ h c (OrdMap.mem_values_of_get? hc)

theorem tidyBounds_map_on (habsent : absent = "Empty" ∨ absent = "Null")
    (hSs : ∀ S ∈ Ss, S.TidyBounds absent) (x : String) :
    ∀ c ∈ Ss.map (·.on x), ∀ t ∈ c.types, t.Tidy absent := by
  rw [List.forall_mem_map]
  exact fun S hS ↦ (hSs S hS).on habsent x

/-- `meetAll Ss` succeeds exactly if on every variable the constraints before the first untyped one
have a common solution. -/
theorem isSome_meetAll_iff_takeWhile (habsent : absent = "Empty" ∨ absent = "Null")
    (hSs : ∀ S ∈ Ss, S.TidyBounds absent) :
    (meetAll Ss).isSome = true ↔ ∀ x, ∃ t : Ty, t.Tidy absent ∧
      ∀ c ∈ (Ss.map (·.on x)).takeWhile (· ≠ .untyped), c.Holds t := by
  rw [isSome_meetAll_iff_on]
  exact forall_congr' fun x ↦
    Constraint.isSome_meetAll_iff_takeWhile habsent (tidyBounds_map_on habsent hSs x)

/-- If `meetAll` succeeds for `Ss`, it does for every permutation, provided that the constraints on
each variable with an untyped one have a common solution. -/
theorem isSome_meetAll_of_perm (habsent : absent = "Empty" ∨ absent = "Null")
    (hSs : ∀ S ∈ Ss, S.TidyBounds absent) (hperm : Ss.Perm Ts)
    (huntyped : ∀ x, (∃ S ∈ Ss, S.on x = .untyped) →
      ∃ t : Ty, t.Tidy absent ∧ ∀ S ∈ Ss, (S.on x).Holds t)
    (h : (meetAll Ss).isSome = true) : (meetAll Ts).isSome = true := by
  have hTs : ∀ S ∈ Ts, S.TidyBounds absent := fun S hS ↦ hSs S (hperm.mem_iff.2 hS)
  rw [isSome_meetAll_iff_takeWhile habsent hSs] at h
  rw [isSome_meetAll_iff_takeWhile habsent hTs]
  intro x
  -- All constraints on the variable have a common solution.
  obtain ⟨t, ht, hall⟩ : ∃ t : Ty, t.Tidy absent ∧ ∀ S ∈ Ss, (S.on x).Holds t := by
    by_cases hx : ∃ S ∈ Ss, S.on x = .untyped
    · exact huntyped x hx
    · have hself : (Ss.map (·.on x)).takeWhile (· ≠ .untyped) = Ss.map (·.on x) := by
        rw [List.takeWhile_eq_self_iff]
        simpa using hx
      obtain ⟨t, ht, hall⟩ := h x
      rw [hself, List.forall_mem_map] at hall
      exact ⟨t, ht, hall⟩
  refine ⟨t, ht, fun c hc ↦ ?_⟩
  obtain ⟨S, hS, rfl⟩ := List.mem_map.1 (List.takeWhile_subset _ hc)
  exact hall S (hperm.mem_iff.2 hS)

/-- **The order of meets.**  Let `Ts` be a permutation of `Ss`, sets with `TidyBounds`.
`meetAll Ss` succeeds exactly if on every variable the constraints before the first untyped one have
a common tidy solution.  If it succeeds for both, the results are equal as maps.  And it succeeds
for both or for neither, provided that the constraints on each variable with an untyped one have a
common tidy solution. -/
theorem meetAll_perm (habsent : absent = "Empty" ∨ absent = "Null")
    (hSs : ∀ S ∈ Ss, S.TidyBounds absent) (hperm : Ss.Perm Ts) :
    ((meetAll Ss).isSome = true ↔ ∀ x, ∃ t : Ty, t.Tidy absent ∧
      ∀ c ∈ (Ss.map (·.on x)).takeWhile (· ≠ .untyped), c.Holds t) ∧
    (∀ V W, meetAll Ss = some V → meetAll Ts = some W → ∀ x, V.get? x = W.get? x) ∧
    ((∀ x, (∃ S ∈ Ss, S.on x = .untyped) → ∃ t : Ty, t.Tidy absent ∧ ∀ S ∈ Ss, (S.on x).Holds t) →
      (meetAll Ss = none ↔ meetAll Ts = none)) := by
  refine ⟨isSome_meetAll_iff_takeWhile habsent hSs, fun V W hV hW x ↦ ?_, fun huntyped ↦ ?_⟩
  · have hon : V.on x = W.on x :=
      Constraint.meetAll_eq_of_perm habsent (tidyBounds_map_on habsent hSs x)
      (hperm.map _) (on_meetAll hV x) (on_meetAll hW x)
    have hkeys : x ∈ V.keys ↔ x ∈ W.keys := by
      rw [mem_keys_meetAll hV, mem_keys_meetAll hW]
      simp only [hperm.mem_iff]
    rw [get?_eq_ite V, get?_eq_ite W, hon]
    simp only [hkeys]
  · rw [← not_iff_not, ← ne_eq, ← ne_eq, ← Option.isSome_iff_ne_none, ← Option.isSome_iff_ne_none]
    refine ⟨isSome_meetAll_of_perm habsent hSs hperm huntyped, isSome_meetAll_of_perm habsent
      (fun S hS ↦ hSs S (hperm.mem_iff.2 hS)) hperm.symm fun x hx ↦ ?_⟩
    simp only [← hperm.mem_iff] at hx ⊢
    exact huntyped x hx

/-- `X`, which has an untyped constraint, has a solution, so the sets may as well be met from the
last to the first. -/
theorem meetAll_perm_reverse :
    let Ss : List ConstraintSet :=
      [⟨[("X", .between integer any), ("Y", .between (list integer) any)]⟩,
      ⟨[("Y", .between (list number) any), ("X", .between string any)]⟩, single "X" .untyped]
    ∃ V W, meetAll Ss = some V ∧ meetAll Ss.reverse = some W ∧ ∀ x, V.get? x = W.get? x := by
  intro Ss
  have htidy : ∀ S ∈ Ss, S.TidyBounds "Empty" := by decide +kernel
  have hany : ∀ S ∈ Ss, ∀ c ∈ S.values, c.Holds any := by decide +kernel
  have hsome : (meetAll Ss).isSome = true := by decide +kernel
  obtain ⟨-, heq, hnone⟩ := meetAll_perm (.inl rfl) htidy (List.reverse_perm Ss).symm
  obtain ⟨V, hV⟩ := Option.isSome_iff_exists.1 hsome
  have hsome' : meetAll Ss.reverse ≠ none := by
    rw [ne_eq, ← hnone fun x _ ↦
      ⟨any, by decide, fun S hS ↦ on_cases (Constraint.holds_top any) fun c hc ↦
      hany S hS c (OrdMap.mem_values_of_get? hc)⟩, hV]
    simp
  obtain ⟨W, hW⟩ := Option.ne_none_iff_exists'.1 hsome'
  exact ⟨V, W, hV, hW, heq V W hV hW⟩

/-- Two types for one variable have no common solution, unless `untyped` comes before the second. -/
theorem meetAll_eq_none_of_late_untyped :
    let Ss := [single "X" (.equal integer), single "X" (.equal string)]
    let Us := [single "X" .untyped]
    (∀ S ∈ Ss ++ Us, S.TidyBounds "Empty") ∧ (Ss ++ Us).Perm (Us ++ Ss) ∧
      meetAll (Ss ++ Us) = none ∧
      ∃ V, meetAll (Us ++ Ss) = some V ∧ V.entries = [("X", .untyped)] := by
  intro Ss Us
  have hmap : (meetAll (Us ++ Ss)).map OrdMap.entries = some [("X", .untyped)] := by decide +kernel
  refine ⟨by decide +kernel, List.perm_append_comm, ?_, Option.map_eq_some_iff.1 hmap⟩
  exact Option.isNone_iff_eq_none.1 (by decide +kernel)

end ConstraintSet

end SchemeTyping
