import SchemeTyping.Proofs.Constraint.Combinable
import SchemeTyping.Proofs.Ty.Eliminate

/-!
# Where the variables of bounds come from

Constraints are found deep inside two types, under quantifiers, and are met with one another at
every level on the way out.  Their bounds nevertheless mention no variables but those of the two
types (`ConstraintSet.generate_local`): a variable of a bound occurs in a type that was compared
with the constrained variable, and none of the quantifiers around that comparison binds it.

`Ty.Compared` says which types are compared, and under which quantifiers.
-/

set_option autoImplicit false

namespace SchemeTyping

open Ty

namespace Ty

/-! ## Comparisons and their scopes -/

/-- `Compared scope s t scope' p q`: the comparison of `s` and `t` in `scope` leads to that of `p`
and `q` in `scope'`, which has the variables of all quantifiers in between. -/
inductive Compared : List String → Ty → Ty → List String → Ty → Ty → Prop
  | refl {scope : List String} {s t : Ty} : Compared scope s t scope s t
  | part {scope scope' : List String} {s t p q : Ty} {c : Ty × Ty} (hc : c ∈ parts s t)
    (h : Compared scope c.1 c.2 scope' p q) : Compared scope s t scope' p q
  | spelt {scope scope' : List String} {min max : Option Int} {ps qs : List Ty} {p q : Ty}
    {c : Ty × Ty} (hc : c ∈ paramPairs (List.replicate ps.length .invariant) ps qs)
    (h : Compared scope c.1 c.2 scope' p q) :
    Compared scope (.variadic min max ps) (.con "Function*" qs) scope' p q
  | all {scope scope' names : List String} {body body' p q : Ty}
    (h : Compared (scope ++ names) body body' scope' p q) :
    Compared scope (.all names body) (.all names body') scope' p q

variable {scope scope' : List String} {s t p q : Ty}

/-- A variable that is free in compared types and not in their scope is free in `s` or `t`, and not
in `scope`. -/
theorem Compared.mem_freeVars (h : Compared scope s t scope' p q) {y : String}
    (hy : y ∈ p.freeVars ∨ y ∈ q.freeVars) (hscope : y ∉ scope') :
    (y ∈ s.freeVars ∨ y ∈ t.freeVars) ∧ y ∉ scope := by
  induction h with
  | refl => exact ⟨hy, hscope⟩
  | part hc _ ih =>
    refine (ih hy hscope).imp_left fun hfree ↦ ?_
    rcases mem_params_of_mem_parts hc with ⟨hs, ht⟩ | ⟨ht, hs⟩
    · exact hfree.imp (mem_freeVars_of_mem_params hs) (mem_freeVars_of_mem_params ht)
    · exact hfree.symm.imp (mem_freeVars_of_mem_params hs) (mem_freeVars_of_mem_params ht)
  | @spelt _ _ min max ps qs _ _ _ hc _ ih =>
    refine (ih hy hscope).imp_left fun hfree ↦ ?_
    have hparams : ∀ r ∈ ps, y ∈ r.freeVars → y ∈ (Ty.variadic min max ps).freeVars :=
      fun r hr ↦ mem_freeVars_of_mem_params hr
    have hparams' : ∀ r ∈ qs, y ∈ r.freeVars → y ∈ (Ty.con "Function*" qs).freeVars :=
      fun r hr ↦ mem_freeVars_of_mem_params hr
    rcases mem_of_mem_paramPairs hc with ⟨hs, ht⟩ | ⟨ht, hs⟩
    · exact hfree.imp (hparams _ hs) (hparams' _ ht)
    · exact hfree.symm.imp (hparams _ hs) (hparams' _ ht)
  | @all _ _ names _ _ _ _ _ ih =>
    obtain ⟨hfree, hnot⟩ := ih hy hscope
    rw [List.mem_append, not_or] at hnot
    have hkeep : (!names.contains y) = true := by simpa using hnot.2
    simp only [freeVars_all, List.mem_filter, hkeep, and_true]
    exact ⟨hfree, hnot.1⟩

end Ty

namespace ConstraintSet

variable {vars scope : List String} {s t : Ty} {S T V : ConstraintSet}
  {P : String → Constraint → Prop}

/-! ## Conditions that meets preserve -/

/-- A condition on the constraints of every variable that their meets satisfy again. -/
structure MeetStable (P : String → Constraint → Prop) : Prop where
  top : ∀ name c, P name c → P name .top
  meet : ∀ {name c c' d}, P name c → P name c' → Constraint.Meets c c' d → P name d

theorem within_empty : (∅ : ConstraintSet).Within P := fun _ he ↦ absurd he List.not_mem_nil

theorem Within.meet (hP : MeetStable P) (hS : S.Within P) (hT : T.Within P)
    (h : S.meet T = some V) : V.Within P := by
  intro e he
  rw [ConstraintSet.meet, Option.map_eq_some_iff] at h
  obtain ⟨es, hes, rfl⟩ := h
  obtain ⟨name, hname, hentry⟩ := exists_mem_of_forall₂ (mapM_eq_some_iff.1 hes).flip he
  obtain ⟨d, hmeet, rfl⟩ := Option.map_eq_some_iff.1 hentry
  exact hP.meet (hS.on hP.top hT (mem_names.1 hname)) (hT.on hP.top hS (mem_names.1 hname).symm)
    (Constraint.meet_eq_some_iff.1 hmeet)

theorem Within.meetAll {Ss : List ConstraintSet} (hP : MeetStable P) (hSs : ∀ S ∈ Ss, S.Within P)
    (h : ConstraintSet.meetAll Ss = some V) : V.Within P := by
  have hfold : ∀ {T : ConstraintSet}, T.Within P → Ss.foldlM ConstraintSet.meet T = some V →
      V.Within P := by
    clear h
    induction Ss with
    | nil =>
      intro T hT h
      cases h
      exact hT
    | cons S Ss ih =>
      intro T hT h
      rw [List.forall_mem_cons] at hSs
      obtain ⟨U, hU, h⟩ := foldlM_meet_cons_iff.1 h
      exact ih hSs.2 (hT.meet hP hSs.1 hU) h
  exact hfold within_empty (meetAll_eq_foldlM Ss ▸ h)

/-! ## What `generate` finds -/

/-- The set is `generate` of one of the pairs, or the meet of two such sets. -/
inductive Found (vars scope : List String) (cs : List (Ty × Ty)) : ConstraintSet → Prop
  | one {c : Ty × Ty} {S : ConstraintSet} (hc : c ∈ cs) (h : generate vars scope c.1 c.2 = some S) :
    Found vars scope cs S
  | two {c d : Ty × Ty} {S T V : ConstraintSet} (hc : c ∈ cs) (hd : d ∈ cs)
    (hS : generate vars scope c.1 c.2 = some S) (hT : generate vars scope d.1 d.2 = some T)
    (h : S.meet T = some V) : Found vars scope cs V

theorem Found.within {cs : List (Ty × Ty)} (hP : MeetStable P)
    (hcs : ∀ c ∈ cs, ∀ S, generate vars scope c.1 c.2 = some S → S.Within P)
    (h : Found vars scope cs S) : S.Within P := by
  cases h with
  | one hc h => exact hcs _ hc S h
  | two hc hd hS hT h => exact (hcs _ hc _ hS).meet hP (hcs _ hd _ hT) h

/-- The sets of `generateParams` are found by the comparisons `paramPairs`. -/
theorem found_of_generateParams {vs : List Variance} {ps qs : List Ty} {Ss : List ConstraintSet}
    (h : generateParams vars scope vs ps qs = some Ss) :
    ∀ S ∈ Ss, Found vars scope (paramPairs vs ps qs) S := by
  intro S hS
  rw [generateParams_eq_mapM, mapM_eq_some_iff] at h
  obtain ⟨⟨v, p, q⟩, hr, hgen⟩ := exists_mem_of_forall₂ h.flip hS
  have hpairs : ∀ c ∈ v.pairs p q, c ∈ paramPairs vs ps qs :=
    fun c hc ↦ mem_paramPairs.2 ⟨_, hr, hc⟩
  cases v with
  | covariant | contravariant => exact .one (hpairs _ List.mem_cons_self) hgen
  | invariant =>
    simp only [generateParam, Option.bind_eq_bind, Option.bind_eq_some_iff] at hgen
    obtain ⟨T, hT, V, hV, hmeet⟩ := hgen
    exact .two (hpairs (p, q) (by simp [Variance.pairs])) (hpairs (q, p) (by simp [Variance.pairs]))
      hT hV hmeet

/-! ## Where the variables come from -/

/-- Every variable of `lower` is free in a type that was compared with `name` above it, and not
bound there. -/
def FromBelow (scope : List String) (s t : Ty) (name : String) (lower : Ty) : Prop :=
  ∀ y ∈ lower.freeVars, ∃ scope' p, Compared scope s t scope' p (.var name) ∧ y ∈ p.freeVars ∧
    y ∉ scope'

/-- Every variable of `upper` is free in a type that was compared with `name` below it, and not
bound there. -/
def FromAbove (scope : List String) (s t : Ty) (name : String) (upper : Ty) : Prop :=
  ∀ y ∈ upper.freeVars, ∃ scope' q, Compared scope s t scope' (.var name) q ∧ y ∈ q.freeVars ∧
    y ∉ scope'

/-- A constraint on one of `vars` with bounds that are `FromBelow` and `FromAbove`. -/
def Traced (vars scope : List String) (s t : Ty) (name : String) (c : Constraint) : Prop :=
  name ∈ vars ∧ c.Between (FromBelow scope s t name) (FromAbove scope s t name)

theorem meetStable_traced : MeetStable (Traced vars scope s t) where
  top name c h := ⟨h.1, by simp [FromBelow, Ty.never], by simp [FromAbove, Ty.any]⟩
  meet {name c c' d} h h' hmeet := by
    refine ⟨h.1, ?_⟩
    cases hmeet with
    | between =>
      refine ⟨fun y hy ↦ ?_, fun y hy ↦ ?_⟩
      · exact (mem_freeVars_bound hy).elim (h'.2.1 y) (h.2.1 y)
      · exact (mem_freeVars_bound hy).elim (h'.2.2 y) (h.2.2 y)
    | untypedLeft | equal | equalLeft => exact h.2
    | untypedRight | equalRight => exact h'.2

/-- Constraints that are traced to a comparison are traced to every comparison that leads there. -/
theorem Within.of_compared {scope' : List String} {p q : Ty}
    (hstep : ∀ {scope₁ p₁ q₁}, Compared scope' p q scope₁ p₁ q₁ → Compared scope s t scope₁ p₁ q₁)
    (h : S.Within (Traced vars scope' p q)) : S.Within (Traced vars scope s t) := by
  intro e he
  obtain ⟨hname, hbounds⟩ := h e he
  refine ⟨hname, ?_⟩
  generalize e.2 = c at hbounds ⊢
  cases c with
  | between lower upper =>
    refine ⟨fun y hy ↦ ?_, fun y hy ↦ ?_⟩
    · obtain ⟨scope₁, p₁, hcomp, hfree⟩ := hbounds.1 y hy
      exact ⟨scope₁, p₁, hstep hcomp, hfree⟩
    · obtain ⟨scope₁, q₁, hcomp, hfree⟩ := hbounds.2 y hy
      exact ⟨scope₁, q₁, hstep hcomp, hfree⟩
  | equal | untyped => exact hbounds

/-- The constraints that `generate` finds are `Traced`. -/
theorem traced_of_generate {s t : Ty} {scope : List String} {S : ConstraintSet} (hs : s.Static)
    (ht : t.Static) (h : generate vars scope s t = some S) : S.Within (Traced vars scope s t) := by
  have hparts : ∀ c ∈ parts s t, ∀ S, generate vars scope c.1 c.2 = some S →
      S.Within (Traced vars scope s t) := fun c hc S hS ↦ by
    obtain ⟨hs', ht'⟩ := built_of_mem_parts hs ht hc
    exact (traced_of_generate hs' ht' hS).of_compared (.part hc)
  cases generates_of_generate h with
  | untyped hu => exact absurd hu (by simp [hs.not_isUntyped, ht.not_isUntyped])
  | isSubtype => exact within_empty
  | left hmem =>
    refine within_single ⟨hmem, by simp [FromBelow, Ty.never], fun y hy ↦ ?_⟩
    exact ⟨scope, t, .refl, mem_freeVars_eliminate hy⟩
  | right hmem =>
    refine within_single ⟨hmem, fun y hy ↦ ?_, by simp [FromAbove, Ty.any]⟩
    exact ⟨scope, s, .refl, mem_freeVars_eliminate hy⟩
  | all hbody =>
    exact (traced_of_generate (built_all.1 hs).2 (built_all.1 ht).2 hbody).of_compared .all
  | con hlen hparams hmeet =>
    rw [parts, if_pos ⟨rfl, hlen⟩] at hparts
    exact Within.meetAll meetStable_traced
      (fun T hT ↦ (found_of_generateParams hparams T hT).within meetStable_traced hparts) hmeet
  | @variadic min max ps qs _ _ _ hps hqs hne hacc hspread hlast hmeet =>
    rw [parts, if_pos rfl, List.forall_mem_append, spreadPairs_eq_paramPairs] at hparts
    rw [generateSpread_eq_generateParams] at hspread
    refine Within.meetAll meetStable_traced (fun T hT ↦ ?_) hmeet
    rcases List.mem_append.1 hT with hT | hT
    · exact (found_of_generateParams hspread T hT).within meetStable_traced hparts.1
    · obtain rfl := List.mem_singleton.1 hT
      exact hparts.2 (ps.getLast hps, qs.getLast hqs) (by
        simp [List.getLast?_eq_some_getLast hps, List.getLast?_eq_some_getLast hqs]) T hlast
  | @spelt min max ps qs _ _ hlen hparams hmeet =>
    refine Within.meetAll meetStable_traced
      (fun T hT ↦ (found_of_generateParams hparams T hT).within
      meetStable_traced fun c hc S hS ↦ ?_) hmeet
    have hmem := mem_of_mem_paramPairs hc
    have hstatic : c.1.Static ∧ c.2.Static := by
      rcases hmem with ⟨hp, hq⟩ | ⟨hq, hp⟩
      · exact ⟨(built_variadic.1 hs).2 _ hp, (built_con.1 ht).2 _ hq⟩
      · exact ⟨(built_con.1 ht).2 _ hq, (built_variadic.1 hs).2 _ hp⟩
    exact (traced_of_generate hstatic.1 hstatic.2 hS).of_compared (.spelt hc)
termination_by sizeOf s + sizeOf t
decreasing_by
  · exact sizeOf_lt_of_mem_parts hc
  · subst_vars
    simp; omega
  · subst_vars
    rcases hmem with ⟨hp, hq⟩ | ⟨hq, hp⟩
    all_goals
      have := List.sizeOf_lt_of_mem hp
      have := List.sizeOf_lt_of_mem hq
      simp; omega

/-- **Constraints are local.**  Let `S` be generated for static types `s` and `t` in `scope`.  Every
constraint of `S` is a `between` on one of `vars`.  A variable of its bounds is free in `s` or `t`
and not in `scope`; moreover it is free in a type that was compared with the constrained variable,
and none of the quantifiers around that comparison binds it. -/
theorem generate_local (hs : s.Static) (ht : t.Static) (h : generate vars scope s t = some S) :
    ∀ x c, (x, c) ∈ S.entries → x ∈ vars ∧ ∃ lower upper, c = .between lower upper ∧
      (∀ y, y ∈ lower.freeVars ∨ y ∈ upper.freeVars →
        (y ∈ s.freeVars ∨ y ∈ t.freeVars) ∧ y ∉ scope) ∧
      (∀ y ∈ lower.freeVars, ∃ scope' p, Compared scope s t scope' p (.var x) ∧
        y ∈ p.freeVars ∧ y ∉ scope') ∧
      ∀ y ∈ upper.freeVars, ∃ scope' q, Compared scope s t scope' (.var x) q ∧
        y ∈ q.freeVars ∧ y ∉ scope' := by
  intro x c hc
  obtain ⟨hx, hbounds⟩ := traced_of_generate hs ht h (x, c) hc
  cases c with
  | between lower upper =>
    obtain ⟨hlower, hupper⟩ := hbounds
    refine ⟨hx, lower, upper, rfl, fun y hy ↦ ?_, hlower, hupper⟩
    rcases hy with hy | hy
    · obtain ⟨scope', p, hcomp, hfree, hnot⟩ := hlower y hy
      exact hcomp.mem_freeVars (.inl hfree) hnot
    · obtain ⟨scope', q, hcomp, hfree, hnot⟩ := hupper y hy
      exact hcomp.mem_freeVars (.inr hfree) hnot
  | equal | untyped => exact hbounds.elim

/-- The result of a function is quantified over `b`, which is free in both types as well.  The upper
bound that `a` gets under the quantifier mentions neither `b` nor the variable of the scope. -/
theorem generate_local_shadowed :
    let s := function [.var "b", .all ["b"] (function [.var "b", .var "a"])]
    let t :=
      function [.var "b", .all ["b"] (function [.var "b", function [.var "b", .var "y", .var "z"]])]
    let upper := function [any, any, .var "z"]
    (s.Static ∧ t.Static ∧ "b" ∈ s.freeVars ∧ "y" ∈ t.freeVars) ∧
      (∃ S, generate ["a"] ["y"] s t = some S ∧ S.entries = [("a", .between never upper)]) ∧
      ("z" ∈ s.freeVars ∨ "z" ∈ t.freeVars) ∧
      ∃ scope' q, Compared ["y"] s t scope' (.var "a") q ∧ "z" ∈ q.freeVars ∧ "z" ∉ scope' := by
  intro s t upper
  have hs : s.Static := by decide +kernel
  have ht : t.Static := by decide +kernel
  have hgen : (generate ["a"] ["y"] s t).map OrdMap.entries =
      some [("a", .between never upper)] := by
    decide +kernel
  obtain ⟨S, hS, hentries⟩ := Option.map_eq_some_iff.1 hgen
  obtain ⟨-, lower', upper', heq, hfree, -, hupper⟩ :=
    generate_local hs ht hS "a" (.between never upper)
    (by simp [hentries])
  cases heq
  refine ⟨⟨hs, ht, by decide +kernel, by decide +kernel⟩, ⟨S, hS, hentries⟩, ?_, ?_⟩
  · exact (hfree "z" (.inr (by decide +kernel))).1
  · exact hupper "z" (by decide +kernel)

end ConstraintSet

end SchemeTyping
