import SchemeTyping.Proofs.Constraint.Comparisons
import SchemeTyping.Proofs.Constraint.Intersection
import SchemeTyping.Proofs.Constraint.Minimal

/-!
# Constraints are complete

On `Choosable` types no solution is lost: if `s.subst τ` is a subtype of `t.subst τ`, then
`generate` succeeds, and `τ` satisfies the constraints and all their meets.

## What is here

* `ConstraintSet.meetAll_complete` — sets with a common solution have a meet.
* `ConstraintSet.generate_complete` — constraints do not ask for more than the subtyping they were
  generated for.
* `callResult_complete` — a polymorphic call that has a solution has a type, and no solution gives
  it a smaller one.
-/

set_option autoImplicit false

namespace SchemeTyping

open Ty

variable {vars : List String} {absent : String} {s t : Ty} {τ : Subst}

/-! ## The types to choose from -/

namespace Ty

/-- A node of a tidy type without quantifiers. -/
def Node.Choosable (absent : String) (n : Node) : Prop := n.Tidy absent ∧ n ≠ .all

instance (absent : String) : DecidablePred (Node.Choosable absent) := fun n ↦
  inferInstanceAs (Decidable (n.Tidy absent ∧ n ≠ .all))

/-- A tidy type without quantifiers. -/
def Choosable (absent : String) (t : Ty) : Prop := t.Built (Node.Choosable absent)

instance (absent : String) : DecidablePred (Choosable absent) := fun t ↦
  inferInstanceAs (Decidable (t.Built (Node.Choosable absent)))

theorem Choosable.tidy (h : t.Choosable absent) : t.Tidy absent := Built.mono h fun _ ↦ And.left

theorem Choosable.static (h : t.Choosable absent) : t.Static := h.tidy.static

theorem Choosable.quantifierFree (h : t.Choosable absent) : t.QuantifierFree :=
  Built.mono h fun _ ↦ And.right

theorem Choosable.not_isVariadic (h : t.Choosable absent) : ¬ t.isVariadic = true := by
  cases t with
  | variadic => exact absurd (built_variadic.1 h).1.1 id
  | _ => simp [isVariadic]

end Ty

/-- A choosable type that does not mention `vars`. -/
structure Given (vars : List String) (absent : String) (t : Ty) : Prop where
  choosable : t.Choosable absent
  notMem : ∀ x ∈ t.freeVars, x ∉ vars

section

variable (habsent : absent = "Empty" ∨ absent = "Null")

include habsent in
theorem supply_given (vars : List String) : Supply vars (Given vars absent) where
  notMem h := h.notMem
  never := ⟨by rcases habsent with rfl | rfl <;> decide, by simp [Ty.never]⟩
  any := ⟨by rcases habsent with rfl | rfl <;> decide, by simp [Ty.any]⟩
  bound b _ _ hs ht :=
    ⟨Built.bound (by rcases habsent with rfl | rfl <;> decide)
      (by rcases habsent with rfl | rfl <;> decide) b hs.choosable ht.choosable,
      fun x hx ↦ (mem_freeVars_bound hx).elim (hs.notMem x) (ht.notMem x)⟩
  param h hp :=
    ⟨h.choosable.of_mem_params hp, fun x hx ↦ h.notMem x (mem_freeVars_of_mem_params hp hx)⟩

theorem Choice.choosable (hτ : Choice vars (Choosable absent) τ) (ht : t.Choosable absent) :
    (t.subst τ).Choosable absent :=
  Built.subst ht fun x u hx ↦ (hτ x u hx).2

theorem Choice.orderly_var (hτ : Choice vars (Choosable absent) τ) (name : String) :
    ((Ty.var name).subst τ).Choosable absent :=
  hτ.choosable (built_var.2 ⟨trivial, nofun⟩)

/-! ## Meets -/

include habsent in
/-- If `t` satisfies two constraints, their meet exists, and `t` satisfies it. -/
theorem Constraint.meet_complete {c c' : Constraint} (hc : c.Among (Given vars absent))
    (hc' : c'.Among (Given vars absent)) (ht : t.Choosable absent) (h : c.Holds t)
    (h' : c'.Holds t) : ∃ d, c.meet c' = some d ∧ d.Among (Given vars absent) ∧ d.Holds t := by
  obtain ⟨d, hd, hdt⟩ := exists_meets_of_holds habsent
    (fun u hu ↦ (hc.forall_mem_types u hu).choosable.tidy)
      (fun u hu ↦ (hc'.forall_mem_types u hu).choosable.tidy)
    ht.tidy h h'
  have hmeet := meet_eq_some_iff.2 hd
  exact ⟨d, hmeet, among_meet (supply_given habsent vars) hc hc' hmeet, hdt⟩

namespace ConstraintSet

variable {S T V : ConstraintSet}

/-- The constraints of `S` are on `vars`, with bounds that do not mention them, and `τ` satisfies
each. -/
def Admits (vars : List String) (absent : String) (S : ConstraintSet) (τ : Subst) : Prop :=
  ∀ e ∈ S.entries, e.1 ∈ vars ∧ e.2.Among (Given vars absent) ∧ e.2.Holds ((Ty.var e.1).subst τ)

theorem Admits.among (h : S.Admits vars absent τ) : S.Among vars (Given vars absent) :=
  fun _ _ hc ↦
    let ⟨hname, hamong, _⟩ := h _ (OrdMap.mem_entries_of_get? hc)
    ⟨hname, hamong⟩

theorem Admits.on (h : S.Admits vars absent τ) (name : String) :
    (S.on name).Holds ((Ty.var name).subst τ) :=
  on_cases (P := (·.Holds _)) (Constraint.holds_top _) fun _ hc ↦
    (h _ (OrdMap.mem_entries_of_get? hc)).2.2

include habsent in
theorem meetClosed_admits (hτ : Choice vars (Choosable absent) τ) : MeetClosed fun name c ↦
    name ∈ vars ∧ c.Among (Given vars absent) ∧ c.Holds ((Ty.var name).subst τ) where
  top h := ⟨h.1, Constraint.among_top (supply_given habsent vars), Constraint.holds_top _⟩
  meet {name c c'} h h' := by
    obtain ⟨d, hd, hd'⟩ :=
      Constraint.meet_complete habsent h.2.1 h'.2.1 (hτ.orderly_var name) h.2.2 h'.2.2
    exact ⟨d, hd, h.1, hd'⟩

include habsent in
/-- If every set of `Ss` admits `τ`, then `meetAll Ss` exists and admits `τ`. -/
theorem meetAll_complete {Ss : List ConstraintSet} (hτ : Choice vars (Choosable absent) τ)
    (hSs : ∀ S ∈ Ss, S.Admits vars absent τ) : ∃ V, meetAll Ss = some V ∧ V.Admits vars absent τ :=
  exists_meetAll (meetClosed_admits habsent hτ) hSs

/-! ## Generation -/

include habsent in
/-- **Constraints are complete.**  If `s.subst τ` is a subtype of `t.subst τ`, and one of `s` and
`t` does not mention `vars`, then `generate` succeeds, and its set admits `τ`. -/
theorem generate_complete (hτ : Choice vars (Choosable absent) τ) (hs : s.Choosable absent)
    (ht : t.Choosable absent) (hside : Given vars absent s ∨ Given vars absent t)
    (hsub : (s.subst τ).isSubtype (t.subst τ) = true) :
    ∃ S, generate vars [] s t = some S ∧ S.Admits vars absent τ := by
  have hG := supply_given habsent vars
  have hτ' : Choice vars Static τ := fun x u hx ↦ (hτ x u hx).imp_right Choosable.static
  have hsolved : Solved τ s t :=
    ⟨⟨hs.static, ht.static⟩, ⟨hs.quantifierFree, ht.quantifierFree⟩, hsub⟩
  have hchoosable :=
    forall_mem_comparisons_of_params (R := fun s t ↦ s.Choosable absent ∧ t.Choosable absent)
    And.symm (fun h hp hq ↦ ⟨h.1.of_mem_params hp, h.2.of_mem_params hq⟩) ⟨hs, ht⟩
  have hgiven := forall_mem_comparisons_of_params
    (R := fun s t ↦ Given vars absent s ∨ Given vars absent t) Or.symm
    (fun h hp hq ↦ h.imp (hG.param · hp) (hG.param · hq)) hside
  refine hsolved.exists_generate (meetClosed_admits habsent hτ) hτ' (fun c hc hvar ↦ ?_)
    (fun name hname u hc ↦ ?_) fun name hname l hc ↦ ?_
  · exact (hchoosable c hc).1.not_isVariadic hvar.1
  · have hu := (hgiven _ hc).resolve_left fun h ↦ h.notMem name (by simp) hname
    have hbelow := (hsolved.of_mem_comparisons hτ' _ hc).1.isSubtype
    rw [hG.subst_eq hu hτ] at hbelow
    exact ⟨hname, ⟨hG.never, hu⟩, never_isSubtype _, hbelow⟩
  · have hl := (hgiven _ hc).resolve_right fun h ↦ h.notMem name (by simp) hname
    have hbelow := (hsolved.of_mem_comparisons hτ' _ hc).1.isSubtype
    rw [hG.subst_eq hl hτ] at hbelow
    exact ⟨hname, ⟨hl, hG.any⟩, hbelow, isSubtype_any _⟩

/-! ## Solutions -/

/-- `S.minimal goal` succeeds if `S` admits some `τ`. -/
theorem exists_minimal (hτ : Choice vars (Choosable absent) τ) (hS : S.Admits vars absent τ)
    (goal : Ty) : ∃ σ, S.minimal goal = some σ := by
  rw [← Option.isSome_iff_exists, isSome_minimal, isSatisfiable, List.all_eq_true]
  intro c hc
  obtain ⟨e, he, rfl⟩ := List.mem_map.1 hc
  obtain ⟨-, hamong, hholds⟩ := hS e he
  generalize e.2 = c at hamong hholds ⊢
  cases c with
  | between l u => exact isSubtype_trans (hτ.orderly_var e.1).static hholds.1 hholds.2
  | equal | untyped => cases hamong

/-- `S.minimal goal` makes the goal a subtype of what `τ` makes of it, if `S` admits `τ` and the
goal uses none of `vars` invariantly. -/
theorem minimal_isSubtype {goal : Ty} {σ : Subst} (hτ : Choice vars (Choosable absent) τ)
    (hS : S.Admits vars absent τ) (h : S.minimal goal = some σ)
    (husage : ∀ x ∈ vars, goal.usage x ≠ .invariant) :
    (goal.subst (σ.filterKeys vars.contains)).isSubtype (goal.subst τ) = true := by
  refine isSubtype_subst_of_usage fun x ↦ ?_
  rw [subst_var, OrdMap.get?_filterKeys]
  by_cases hx : x ∈ vars
  · by_cases hfree : x ∈ goal.freeVars
    · rw [if_pos (by simpa using hx), get?_of_minimal_eq_ite h, if_pos (.inr hfree),
        Option.getD_some]
      exact Constraint.relates_choose (hS.on x) (husage x hx)
    · rw [usage_eq_constant_iff.2 hfree]
      trivial
  · have hget : τ.get? x = none := by
      cases hget : τ.get? x with
      | none => rfl
      | some u => exact absurd (hτ x u hget).1 hx
    rw [if_neg (by simpa using hx), subst_var, hget]
    exact Usage.relates_refl _ _

include habsent in
/-- `ofArguments` succeeds if every argument is a subtype of its parameter under `τ`, and all sets
admit `τ`. -/
theorem ofArguments_complete {qs : List (Ty × Ty)} (i : Nat) (hτ : Choice vars (Choosable absent) τ)
    (hqs : ∀ q ∈ qs, Given vars absent q.1 ∧ q.2.Choosable absent)
    (h : ∀ q ∈ qs, q.1.isSubtype (q.2.subst τ) = true) :
    ∃ Ss, ofArguments vars i qs = .ok Ss ∧ ∀ S ∈ Ss, S.Admits vars absent τ := by
  induction qs generalizing i with
  | nil => exact ⟨[], rfl, nofun⟩
  | cons q qs ih =>
    obtain ⟨a, p⟩ := q
    rw [List.forall_mem_cons] at hqs h
    obtain ⟨ha, hp⟩ := hqs.1
    obtain ⟨S, hS, hS'⟩ := generate_complete habsent hτ ha.choosable hp (.inl ha)
      (by rw [(supply_given habsent vars).subst_eq ha hτ]; exact h.1)
    obtain ⟨Ss, hSs, hadmits⟩ := ih (i + 1) hqs.2 h.2
    refine ⟨S :: Ss, ?_, List.forall_mem_cons.2 ⟨hS', hadmits⟩⟩
    simp only [ofArguments, hS, hSs]
    rfl

end ConstraintSet

end

/-! ## Calls -/

/-- **Polymorphic calls are complete, and their types are minimal.**  Let all types be `Choosable`,
and let those of the arguments not mention the quantified `vars`.  If every argument is a subtype of
its parameter under some `τ`, then the call has a type `R`.  If `result` uses none of `vars`
invariantly, then `R` is a subtype of `result.subst τ` for every such `τ`. -/
theorem callResult_complete {args params : List Ty} (result : Ty)
    (habsent : absent = "Empty" ∨ absent = "Null")
    (hargs : ∀ a ∈ args, a.Choosable absent ∧ ∀ x ∈ a.freeVars, x ∉ vars)
    (hparams : ∀ p ∈ params, p.Choosable absent)
    (hτ : ∀ name t, τ.get? name = some t → name ∈ vars ∧ t.Choosable absent)
    (hfits : ∀ q ∈ args.zip params, q.1.isSubtype (q.2.subst τ) = true) :
    ∃ R, callResult vars args params result = .result R ∧
      ((∀ x ∈ vars, result.usage x ≠ .invariant) → R.isSubtype (result.subst τ) = true) := by
  have hzip : ∀ q ∈ args.zip params, Given vars absent q.1 ∧ q.2.Choosable absent := by
    intro q hq
    obtain ⟨ha, hp⟩ := List.of_mem_zip hq
    exact ⟨⟨(hargs _ ha).1, (hargs _ ha).2⟩, hparams _ hp⟩
  obtain ⟨Ss, hSs, hadmits⟩ := ConstraintSet.ofArguments_complete habsent 0 hτ hzip hfits
  obtain ⟨S, hS, hS'⟩ := ConstraintSet.meetAll_complete habsent hτ hadmits
  obtain ⟨σ, hσ⟩ := ConstraintSet.exists_minimal hτ hS' result
  obtain ⟨-, -, hgone⟩ := ConstraintSet.minimal_sound (supply_given habsent vars) hS'.among hσ
  refine ⟨result.subst (σ.filterKeys vars.contains), ?_,
    ConstraintSet.minimal_isSubtype hτ hS' hσ⟩
  rw [callResult, hSs]
  dsimp only
  rw [hS, Option.bind_some, hσ]
  dsimp only
  rw [eliminateUp, eliminate_eq_self hgone]

/-- `A` is bounded from both sides by two arguments and used contravariantly by the result; the
solution compared with takes the lower bound for it. -/
theorem callResult_complete_function :
    (∀ q ∈ [function [number, string], list integer].zip
      [function [.var "A", .var "B"], list (.var "A")],
      q.1.isSubtype (q.2.subst ⟨[("A", integer), ("B", any)]⟩) = true) ∧
    ∃ R, callResult ["A", "B"] [function [number, string], list integer]
        [function [.var "A", .var "B"], list (.var "A")] (function [.var "A", list (.var "B")]) =
      .result R ∧ R.isSubtype (function [integer, list any]) = true := by
  have hfits : ∀ q ∈ [function [number, string], list integer].zip
      [function [.var "A", .var "B"], list (.var "A")],
      q.1.isSubtype (q.2.subst ⟨[("A", integer), ("B", any)]⟩) = true := by
    decide +kernel
  have hτ : ∀ name t, OrdMap.get? ⟨[("A", integer), ("B", any)]⟩ name = some t →
      name ∈ ["A", "B"] ∧ t.Choosable "Empty" := by
    intro name t h
    simp only [OrdMap.get?, OrdMap.lookup] at h
    split at h
    · obtain rfl := Option.some.inj h
      subst_vars
      decide
    split at h
    · obtain rfl := Option.some.inj h
      subst_vars
      decide
    · cases h
  obtain ⟨R, hR, hmin⟩ := callResult_complete (function [.var "A", list (.var "B")])
    (.inl rfl) (by decide +kernel) (by decide +kernel) hτ hfits
  exact ⟨hfits, R, hR, hmin (by decide +kernel)⟩

end SchemeTyping
