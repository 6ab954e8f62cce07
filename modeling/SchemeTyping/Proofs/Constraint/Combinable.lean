import SchemeTyping.Proofs.Constraint.Comparisons

/-!
# When a solution leads to constraints

Let `σ` be such that `s.subst σ` is a subtype of `t.subst σ`.  Then `generate` may fail all the
same, for two reasons.

* Two variadic functions are only compared as a whole, so their parameters give no constraints.
* Meets and joins are not the best bounds of all types.  So the bounds of one variable may have a
  common solution although their join is not below their meet.

`ConstraintSet.isSome_generate_iff` assumes that the bounds are `Ty.Combinable`, which rules the
second reason out, and says that the first is then the only one.
-/

set_option autoImplicit false

namespace SchemeTyping

open Ty

namespace Ty

variable {s t : Ty} {lower upper : List Ty}

/-! ## Bounds that can be combined -/

/-- The types that `cs` compares with the variable `name` above them. -/
def lowerBounds (name : String) (cs : List (Ty × Ty)) : List Ty :=
  (cs.filter (·.2 = .var name)).map (·.1)

/-- The types that `cs` compares with the variable `name` below them. -/
def upperBounds (name : String) (cs : List (Ty × Ty)) : List Ty :=
  (cs.filter (·.1 = .var name)).map (·.2)

theorem mem_lowerBounds {name : String} {cs : List (Ty × Ty)} :
    t ∈ lowerBounds name cs ↔ (t, .var name) ∈ cs := by
  simp [lowerBounds]

theorem mem_upperBounds {name : String} {cs : List (Ty × Ty)} :
    t ∈ upperBounds name cs ↔ (.var name, t) ∈ cs := by
  simp [upperBounds]

/-- Of any two members of `ts` one is a subtype of the other. -/
def Chained (ts : List Ty) : Prop := ∀ s ∈ ts, ∀ t ∈ ts, s.isSubtype t = true ∨ t.isSubtype s = true

instance : DecidablePred Chained := fun ts ↦
  inferInstanceAs (Decidable (∀ s ∈ ts, ∀ t ∈ ts, _ ∨ _))

/-- Bounds of a variable whose joins and meets do not exclude a solution: there are none on one
side, or they are `Chained` on either side, or all of them are `Tidy`. -/
def Combinable (lower upper : List Ty) : Prop :=
  lower = [] ∨ upper = [] ∨ (Chained lower ∧ Chained upper) ∨
    ∃ absent ∈ ["Empty", "Null"], ∀ t ∈ lower ++ upper, t.Tidy absent

instance (lower upper : List Ty) : Decidable (Combinable lower upper) :=
  inferInstanceAs (Decidable (_ ∨ _ ∨ _ ∨ _))

/-- `L` is closed under joins and `U` under meets, and every type of `L` is a subtype of every one
of `U`. -/
structure Separated (L U : Ty → Prop) : Prop where
  never : L never
  any : U any
  join : ∀ {s t}, L s → L t → L (s.join t)
  meet : ∀ {s t}, U s → U t → U (s.meet t)
  isSubtype : ∀ {l u}, L l → U u → l.isSubtype u = true

/-- If one of `s` and `t` is a subtype of the other, `bound b s t` is one of them. -/
theorem bound_eq_or_eq (b : Bound) (h : s.isSubtype t = true ∨ t.isSubtype s = true) :
    bound b s t = s ∨ bound b s t = t := by
  unfold bound
  split
  · exact .inl rfl
  split
  · exact .inr rfl
  split
  · cases b
    · exact .inl rfl
    · exact .inr rfl
  split
  · cases b
    · exact .inr rfl
    · exact .inl rfl
  · simp_all

/-- A set of `Chained` types is closed under `bound`, also with a type `e` that is comparable to
all. -/
theorem bound_of_chained (b : Bound) {ts : List Ty} {e : Ty} (hts : Chained ts)
    (he : ∀ t : Ty, e.isSubtype t = true ∨ t.isSubtype e = true) (hs : s = e ∨ s ∈ ts)
    (ht : t = e ∨ t ∈ ts) : bound b s t = e ∨ bound b s t ∈ ts := by
  have hst : s.isSubtype t = true ∨ t.isSubtype s = true := by
    rcases hs, ht with ⟨rfl | hs, rfl | ht⟩
    · exact he _
    · exact he _
    · exact (he _).symm
    · exact hts s hs t ht
  rcases bound_eq_or_eq b hst with heq | heq
  · rwa [heq]
  · rwa [heq]

theorem separated_of_chained (hlower : Chained lower) (hupper : Chained upper)
    (h : ∀ l ∈ lower, ∀ u ∈ upper, l.isSubtype u = true) :
    Separated (fun l ↦ l = never ∨ l ∈ lower) fun u ↦ u = any ∨ u ∈ upper where
  never := .inl rfl
  any := .inl rfl
  join := bound_of_chained .upper hlower fun t ↦ .inl (never_isSubtype t)
  meet := bound_of_chained .lower hupper fun t ↦ .inr (isSubtype_any t)
  isSubtype {l u} hl hu := by
    rcases hl, hu with ⟨rfl | hl, rfl | hu⟩
    · exact never_isSubtype _
    · exact never_isSubtype _
    · exact isSubtype_any _
    · exact h l hl u hu

/-- The tidy types below all of `upper`, and the tidy types above all of these, are `Separated`. -/
theorem separated_of_tidy {absent : String} (habsent : absent = "Empty" ∨ absent = "Null")
    (hupper : ∀ u ∈ upper, u.Tidy absent) :
    Separated (fun l ↦ l.Tidy absent ∧ ∀ u ∈ upper, l.isSubtype u = true) fun u ↦ u.Tidy absent ∧
      ∀ l : Ty, (l.Tidy absent ∧ ∀ u ∈ upper, l.isSubtype u = true) → l.isSubtype u = true where
  never := ⟨tidy_never habsent, fun u _ ↦ never_isSubtype u⟩
  any := ⟨tidy_any habsent, fun l _ ↦ isSubtype_any l⟩
  join hs ht := ⟨hs.1.bound habsent .upper ht.1, fun u hu ↦
    holds_bound_of_holds habsent .upper hs.1 ht.1 (hupper u hu) (hs.2 u hu) (ht.2 u hu)⟩
  meet hs ht := ⟨hs.1.bound habsent .lower ht.1, fun l hl ↦
    holds_bound_of_holds habsent .lower hs.1 ht.1 hl.1 (hs.2 l hl) (ht.2 l hl)⟩
  isSubtype hl hu := hu.2 _ hl

/-- `Combinable` bounds, each lower one below each upper one, are in `Separated` sets. -/
theorem Combinable.exists_separated (hcomb : Combinable lower upper)
    (h : ∀ l ∈ lower, ∀ u ∈ upper, l.isSubtype u = true) :
    ∃ L U : Ty → Prop, Separated L U ∧ (∀ l ∈ lower, L l) ∧ ∀ u ∈ upper, U u := by
  rcases hcomb with rfl | rfl | ⟨hlower, hupper⟩ | ⟨absent, habsent, htidy⟩
  · refine ⟨(· = never), fun _ ↦ True, ?_, by simp, by simp⟩
    refine ⟨rfl, trivial, fun hs ht ↦ ?_, fun _ _ ↦ trivial, fun hl _ ↦ ?_⟩
    · subst hs ht
      decide +kernel
    · exact hl ▸ never_isSubtype _
  · refine ⟨fun _ ↦ True, (· = any), ?_, by simp, by simp⟩
    refine ⟨trivial, rfl, fun _ _ ↦ trivial, fun hs ht ↦ ?_, fun _ hu ↦ ?_⟩
    · subst hs ht
      decide +kernel
    · exact hu ▸ isSubtype_any _
  · exact ⟨_, _, separated_of_chained hlower hupper h, fun _ ↦ .inr, fun _ ↦ .inr⟩
  · rw [List.forall_mem_append] at htidy
    refine ⟨_, _, separated_of_tidy (by simpa using habsent) htidy.2, ?_, ?_⟩
    · exact fun l hl ↦ ⟨htidy.1 l hl, h l hl⟩
    · exact fun u hu ↦ ⟨htidy.2 u hu, fun l hl ↦ hl.2 u hu⟩

end Ty

/-! ## Constraints from a solution -/

/-- The constraint is a `between` with the lower bound in `L` and the upper bound in `U`. -/
def Constraint.Between (L U : Ty → Prop) : Constraint → Prop
  | .between lower upper => L lower ∧ U upper
  | _ => False

namespace ConstraintSet

variable {vars : List String} {s t : Ty} {σ : Subst}

theorem meetClosed_between {L U : String → Ty → Prop} (h : ∀ name, Separated (L name) (U name)) :
    MeetClosed fun name c ↦ c.Between (L name) (U name) where
  top _ := ⟨(h _).never, (h _).any⟩
  meet {name c c'} hc hc' := by
    match c, c', hc, hc' with
    | .between l u, .between l' u', ⟨hl, hu⟩, ⟨hl', hu'⟩ =>
      have hlower := (h name).join hl' hl
      have hupper := (h name).meet hu' hu
      exact ⟨_, if_pos ((h name).isSubtype hlower hupper), hlower, hupper⟩

/-- If `σ` solves the comparison, each lower bound of a variable is a subtype of each upper one. -/
theorem isSubtype_of_mem_bounds (hσ : Choice vars Static σ) (h : Solved σ s t)
    (hside : Fixed vars s ∨ Fixed vars t) {name : String} (hname : name ∈ vars) {l u : Ty}
    (hl : l ∈ lowerBounds name (comparisons s t)) (hu : u ∈ upperBounds name (comparisons s t)) :
    l.isSubtype u = true := by
  have hG := (stock_fixed vars).toSupply
  have hstatic : ((Ty.var name).subst σ).Static :=
    Built.subst (built_var.2 (by simp [Node.tag?])) fun x u hx ↦ (hσ x u hx).2
  have hfixed :=
    forall_mem_comparisons_of_params (R := fun s t ↦ Fixed vars s ∨ Fixed vars t) Or.symm
    (fun h hp hq ↦ h.imp (hG.param · hp) (hG.param · hq)) hside
  rw [mem_lowerBounds] at hl
  rw [mem_upperBounds] at hu
  have hbelow := (h.of_mem_comparisons hσ _ hl).1.isSubtype
  have habove := (h.of_mem_comparisons hσ _ hu).1.isSubtype
  rw [hG.subst_eq ((hfixed _ hl).resolve_right fun h ↦ h.notMem name (by simp) hname) hσ] at hbelow
  rw [hG.subst_eq ((hfixed _ hu).resolve_left fun h ↦ h.notMem name (by simp) hname) hσ] at habove
  exact isSubtype_trans hstatic hbelow habove

/-- If `σ` solves the comparison of `s` and `t`, the bounds of every variable are `Combinable` and
no two variadic functions are compared, then `generate` succeeds. -/
theorem Solved.exists_generate_of_combinable (hσ : Choice vars Static σ) (h : Solved σ s t)
    (hside : Fixed vars s ∨ Fixed vars t) (hbounds : ∀ name ∈ vars,
      Combinable (lowerBounds name (comparisons s t)) (upperBounds name (comparisons s t)))
    (hvariadic : ∀ c ∈ comparisons s t, ¬ (c.1.isVariadic = true ∧ c.2.isVariadic = true)) :
    ∃ S, generate vars [] s t = some S := by
  have hseparated : ∀ name, ∃ L U : Ty → Prop, Separated L U ∧ (name ∈ vars →
      (∀ l ∈ lowerBounds name (comparisons s t), L l) ∧
        ∀ u ∈ upperBounds name (comparisons s t), U u) := fun name ↦ by
    by_cases hname : name ∈ vars
    · obtain ⟨L, U, hLU, hmem⟩ := (hbounds name hname).exists_separated fun l hl u hu ↦
        isSubtype_of_mem_bounds hσ h hside hname hl hu
      exact ⟨L, U, hLU, fun _ ↦ hmem⟩
    · have hnone : Combinable [] [] := .inl rfl
      obtain ⟨L, U, hLU, -⟩ := hnone.exists_separated (by simp)
      exact ⟨L, U, hLU, fun h ↦ absurd h hname⟩
  choose L U hLU hmem using hseparated
  obtain ⟨S, hS, -⟩ := h.exists_generate (meetClosed_between hLU) hσ hvariadic
    (fun name hname u hu ↦ ⟨(hLU name).never, (hmem name hname).2 u (mem_upperBounds.2 hu)⟩)
    (fun name hname l hl ↦ ⟨(hmem name hname).1 l (mem_lowerBounds.2 hl), (hLU name).any⟩)
  exact ⟨S, hS⟩

/-- For two variadic functions, `generate` succeeds only if the first is a subtype of the second. -/
theorem isSubtype_of_isVariadic {scope : List String} (hs : s.isVariadic = true)
    (ht : t.isVariadic = true) (h : (generate vars scope s t).isSome = true) :
    s.isSubtype t = true := by
  obtain ⟨S, hS⟩ := Option.isSome_iff_exists.1 h
  cases generates_of_generate hS with
  | untyped hu => cases s <;> cases t <;> simp_all [isVariadic, isUntyped, hasTag, Ty.tag?]
  | isSubtype hsub => exact hsub
  | _ => simp [isVariadic] at hs ht

/-- **A solution leads to constraints unless variadic functions are compared.**  Let `s` and `t` be
plain and without quantifiers, let one of them not mention `vars`, and let the bounds of each of
`vars` be `Combinable`.  If `s.subst σ` is a subtype of `t.subst σ` for a substitution `σ` of `vars`
by static types, then `generate` succeeds exactly if no variadic function is compared with another
one that it is not a subtype of already. -/
theorem isSome_generate_iff (hs : s.Plain) (ht : t.Plain) (hsfree : s.QuantifierFree)
    (htfree : t.QuantifierFree)
    (hside : (∀ x ∈ s.freeVars, x ∉ vars) ∨ ∀ x ∈ t.freeVars, x ∉ vars)
    (hσ : ∀ name u, σ.get? name = some u → name ∈ vars ∧ u.Static)
    (hsub : (s.subst σ).isSubtype (t.subst σ) = true)
    (hbounds : ∀ name ∈ vars,
      Combinable (lowerBounds name (comparisons s t)) (upperBounds name (comparisons s t))) :
    (generate vars [] s t).isSome = true ↔
      ∀ c ∈ comparisons s t, ¬ (c.1.isVariadic = true ∧ c.2.isVariadic = true) := by
  have hsolved : Solved σ s t := ⟨⟨hs.static, ht.static⟩, ⟨hsfree, htfree⟩, hsub⟩
  refine ⟨fun h c hc hvariadic ↦ ?_, fun hvariadic ↦ ?_⟩
  · exact (hsolved.of_mem_comparisons hσ c hc).2 (isSubtype_of_isVariadic hvariadic.1 hvariadic.2
      (isSome_of_mem_comparisons hs ht h c hc))
  · obtain ⟨S, hS⟩ :=
      hsolved.exists_generate_of_combinable hσ (hside.imp (⟨hs, ·⟩) (⟨ht, ·⟩)) hbounds
      hvariadic
    rw [hS, Option.isSome_some]

/-- A variadic function is passed for a function of two arguments.  Neither of the two lower bounds
of `a` is a subtype of the other, and there is an upper bound too. -/
theorem isSome_generate_iff_spread :
    ((Ty.variadic none none [.var "a", list (.var "a")]).subst ⟨[("a", list any)]⟩).isSubtype
        ((function [list integer, list string, list (list any)]).subst ⟨[("a", list any)]⟩) = true ∧
      (generate ["a"] [] (.variadic none none [.var "a", list (.var "a")])
        (function [list integer, list string, list (list any)])).isSome = true := by
  have hsub :
      ((Ty.variadic none none [.var "a", list (.var "a")]).subst ⟨[("a", list any)]⟩).isSubtype
        ((function [list integer, list string, list (list any)]).subst ⟨[("a", list any)]⟩) =
          true := by
    decide +kernel
  have hσ : ∀ name u, OrdMap.get? ⟨[("a", list any)]⟩ name = some u → name ∈ ["a"] ∧ u.Static := by
    intro name u h
    simp only [OrdMap.get?, OrdMap.lookup] at h
    split at h
    · obtain rfl := Option.some.inj h
      subst_vars
      decide
    · cases h
  exact ⟨hsub,
    (isSome_generate_iff (by decide) (by decide) (by decide) (by decide) (.inr (by decide)) hσ
    hsub (by decide +kernel)).2 (by decide +kernel)⟩

/-- `(Function* a Integer)` is a subtype of `(Function* String Integer)` if `a` is `String`, but
there are no constraints. -/
theorem generate_variadics_eq_none :
    ((Ty.variadic none none [.var "a", integer]).Plain ∧
      (Ty.variadic none none [string, integer]).Plain) ∧
      ((Ty.variadic none none [.var "a", integer]).QuantifierFree ∧
        (Ty.variadic none none [string, integer]).QuantifierFree) ∧
      (Ty.variadic none none [string, integer]).freeVars = [] ∧
      ((Ty.variadic none none [.var "a", integer]).subst ⟨[("a", string)]⟩).isSubtype
        ((Ty.variadic none none [string, integer]).subst ⟨[("a", string)]⟩) = true ∧
      (generate ["a"] [] (.variadic none none [.var "a", integer])
        (.variadic none none [string, integer])).isSome = false := by
  decide +kernel

/-- The join of `Empty` and `Null` is not a list type, so there are no constraints, although
`(List Integer)` is a solution. -/
example :
    ((function [.var "a", .var "a", .var "a"]).subst ⟨[("a", list integer)]⟩).isSubtype
        ((function [empty, null, list integer]).subst ⟨[("a", list integer)]⟩) = true ∧
      (generate ["a"] [] (function [.var "a", .var "a", .var "a"])
        (function [empty, null, list integer])).isSome = false := by
  decide +kernel

end ConstraintSet

end SchemeTyping
