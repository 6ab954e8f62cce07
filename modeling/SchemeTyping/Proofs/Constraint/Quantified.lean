import SchemeTyping.Proofs.Constraint
import SchemeTyping.Proofs.Ty.Eliminate

/-!
# Constraints under quantifiers

Two quantified types are compared under their quantifiers, whose variables must not occur in the
bounds that are found there.  `eliminateUp` is applied to a lower bound and `eliminateDown` to an
upper bound, so that a type that satisfies the new bound satisfies the old one.  This is right if
the variables do not occur inside an invariant parameter (`Eliminable`), and then the constraints
are sound (`isSubtype_subst_of_generate`).
-/

set_option autoImplicit false

namespace SchemeTyping.ConstraintSet

open Ty

variable {vars scope : List String} {s t p : Ty} {S : ConstraintSet}

/-- A plain type in which neither those of `scope` nor the variables of a quantifier occur inside an
invariant parameter, and whose quantifiers bind none of `vars`. -/
structure Eliminable (vars scope : List String) (t : Ty) : Prop where
  plain : t.Plain
  scope : t.variantIn scope = true
  quantifiers : ∀ q ∈ t.quantifiers, (∀ x ∈ q.1, x ∉ vars) ∧ q.2.variantIn q.1 = true

theorem Eliminable.params (h : Eliminable vars scope t) (hp : p ∈ t.params) :
    Eliminable vars scope p :=
  ⟨h.plain.of_mem_params hp, variantIn_of_mem_params h.scope hp,
    fun q hq ↦ h.quantifiers q (mem_quantifiers_of_mem_params hp hq)⟩

/-- The body of a quantifier is eliminable in `scope ++ names`. -/
theorem Eliminable.body {names : List String} {body : Ty}
    (h : Eliminable vars scope (.all names body)) :
    (∀ x ∈ names, x ∉ vars) ∧ Eliminable vars (scope ++ names) body := by
  obtain ⟨⟨hnames, hbody⟩, hinside⟩ := List.forall_mem_cons.1 h.quantifiers
  refine ⟨hnames, (built_all.1 h.plain).2, variantIn_of_or (fun x hx ↦ ?_) h.scope hbody, hinside⟩
  by_cases hxn : x ∈ names
  · exact .inr hxn
  · exact .inl (List.mem_filter.2 ⟨(List.mem_append.1 hx).resolve_right hxn, by simpa using hxn⟩)

/-- Two eliminable types, one of which does not mention `vars`. -/
structure Scoped (vars scope : List String) (s t : Ty) : Prop where
  left : Eliminable vars scope s
  right : Eliminable vars scope t
  side : (∀ x ∈ s.freeVars, x ∉ vars) ∨ ∀ x ∈ t.freeVars, x ∉ vars

theorem notMem_freeVars_body {names : List String} {body : Ty} (hnames : ∀ x ∈ names, x ∉ vars)
    (h : ∀ x ∈ (Ty.all names body).freeVars, x ∉ vars) : ∀ x ∈ body.freeVars, x ∉ vars := by
  intro x hx
  by_cases hxn : x ∈ names
  · exact hnames x hxn
  · exact h x (by rw [freeVars_all, List.mem_filter]; exact ⟨hx, by simpa using hxn⟩)

/-- `t.eliminate scope up` does not mention `vars` if `t` does not. -/
theorem Eliminable.fixed_eliminate (h : Eliminable vars scope t)
    (hvars : ∀ x ∈ t.freeVars, x ∉ vars) (up : Bool) : Fixed vars (t.eliminate scope up) :=
  ⟨Built.eliminate (by decide) (by decide) h.plain scope up,
    fun x hx ↦ hvars x (mem_freeVars_eliminate hx).1⟩

theorem suits_scoped (vars : List String) : Suits vars (Fixed vars) (Scoped vars) where
  plain h := ⟨h.left.plain, h.right.plain⟩
  symm h := ⟨h.right, h.left, h.side.symm⟩
  params h hp hq := ⟨h.left.params hp, h.right.params hq, h.side.imp
    (fun hs x hx ↦ hs x (mem_freeVars_of_mem_params hp hx))
    (fun ht x hx ↦ ht x (mem_freeVars_of_mem_params hq hx))⟩
  all h := by
    obtain ⟨hnames, hleft⟩ := h.left.body
    exact ⟨hnames, hleft, h.right.body.2,
      h.side.imp (notMem_freeVars_body hnames) (notMem_freeVars_body hnames)⟩
  var {scope name t} h hmem := by
    have ht := h.side.resolve_left fun hs ↦ hs name (by simp) hmem
    obtain ⟨hup, hdown⟩ := isSubtype_eliminate h.right.scope
    exact ⟨⟨h.right.plain, ht⟩, h.right.fixed_eliminate ht, hdown, hup⟩

/-- **Constraints under quantifiers.**  Let `S` be generated for two plain types, one of which does
not mention `vars`.  Let their quantifiers bind none of `vars`, and let the variables of a
quantifier not occur inside an invariant parameter of its body.  Then every constraint of `S` is a
`between` on one of `vars`, and every substitution of `vars` by plain types that satisfies `S` makes
the first type a subtype of the second. -/
theorem isSubtype_subst_of_generate (hs : s.Plain) (ht : t.Plain)
    (hside : (∀ x ∈ s.freeVars, x ∉ vars) ∨ ∀ x ∈ t.freeVars, x ∉ vars)
    (hbound : ∀ q ∈ s.quantifiers ++ t.quantifiers, ∀ x ∈ q.1, x ∉ vars)
    (hvariant : ∀ q ∈ s.quantifiers ++ t.quantifiers, q.2.variantIn q.1 = true)
    (h : generate vars [] s t = some S) :
    (∀ x c, S.get? x = some c → x ∈ vars ∧ ∃ lower upper, c = .between lower upper) ∧
    ∀ σ : Subst, (∀ x u, σ.get? x = some u → x ∈ vars ∧ u.Plain) →
      (∀ x lower upper, S.get? x = some (.between lower upper) →
        lower.isSubtype ((Ty.var x).subst σ) = true ∧ ((Ty.var x).subst σ).isSubtype upper = true) →
      (s.subst σ).isSubtype (t.subst σ) = true := by
  rw [List.forall_mem_append] at hbound hvariant
  have hscoped : Scoped vars [] s t :=
    ⟨⟨hs, variantIn_of_notMem (by simp), fun q hq ↦ ⟨hbound.1 q hq, hvariant.1 q hq⟩⟩,
      ⟨ht, variantIn_of_notMem (by simp), fun q hq ↦ ⟨hbound.2 q hq, hvariant.2 q hq⟩⟩, hside⟩
  obtain ⟨hamong, hforces⟩ :=
    forces_of_generate (H := Plain) (stock_fixed vars) id (suits_scoped vars)
    hscoped h
  refine ⟨fun x c hc ↦ ?_, fun σ hσ hsat ↦ hforces σ hσ fun x ↦ ?_⟩
  · obtain ⟨hx, hc⟩ := hamong x c hc
    cases c with
    | between lower upper => exact ⟨hx, lower, upper, rfl⟩
    | equal | untyped => cases hc
  · rw [ConstraintSet.on]
    cases hc : S.get? x with
    | none => exact Constraint.holds_top _
    | some c =>
      have hamong := (hamong x c hc).2
      cases c with
      | between lower upper => exact hsat x lower upper hc
      | equal | untyped => cases hamong

/-- A function to `a` is a subtype of the function to lists of its argument type if `a` is below
`(List Never)`: this is what `eliminateDown` makes of the upper bound, the lists of the quantified
`b`. -/
theorem isSubtype_subst_of_generate_quantified :
    let s := Ty.all ["b"] (function [.var "b", .var "a"])
    let t := Ty.all ["b"] (function [.var "b", list (.var "b")])
    (∃ S, generate ["a"] [] s t = some S ∧ S.entries = [("a", .between never (list never))]) ∧
      (s.subst ⟨[("a", list never)]⟩).isSubtype (t.subst ⟨[("a", list never)]⟩) = true := by
  intro s t
  have hgen : (generate ["a"] [] s t).map OrdMap.entries =
      some [("a", .between never (list never))] := by
    decide +kernel
  obtain ⟨S, hS, hentries⟩ := Option.map_eq_some_iff.1 hgen
  -- Both maps have the one key.
  have hget : ∀ {α : Type} {x : String} {a b : α}, OrdMap.lookup x [("a", a)] = some b →
      x = "a" ∧ b = a := by
    intro α x a b h
    rw [OrdMap.lookup] at h
    split at h
    · exact ⟨‹"a" = x›.symm, (Option.some.inj h).symm⟩
    · cases h
  refine ⟨⟨S, hS, hentries⟩, (isSubtype_subst_of_generate (by decide +kernel) (by decide +kernel)
    (.inr (by decide +kernel)) (by decide +kernel) (by decide +kernel) hS).2 _ (fun x u hu ↦ ?_)
    fun x lower upper hx ↦ ?_⟩
  · obtain ⟨rfl, rfl⟩ := hget hu
    exact ⟨by decide, by decide⟩
  · rw [OrdMap.get?, hentries] at hx
    obtain ⟨rfl, ⟨⟩⟩ := hget hx
    decide +kernel

end SchemeTyping.ConstraintSet
