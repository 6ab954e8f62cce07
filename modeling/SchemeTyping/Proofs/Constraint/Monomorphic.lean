import SchemeTyping.Proofs.Constraint.Complete

/-!
# Calls without variables

With no variable to solve for, `generate` is a second test of compatibility: a call asks whether it
succeeds, an annotated binder asks `Ty.isSubtype`.  It succeeds for all subtypes.  The converse
holds as long as no `?` occurs inside an invariant parameter, where `isSubtype` asks for equality
and `generate` accepts `?` in both directions.

## What is here

* `Ty.guarded`, `Ty.Firm` — types without `?` inside an invariant parameter.
* `ConstraintSet.isSubtype_of_generate` — for firm types, `generate []` succeeds only for subtypes.
* `call_accepts_iff_isSubtype` — the two tests agree, and so do calls and annotated binders.
* `call_accepts_untyped_parameter` — they differ on a vector of untyped elements.
-/

set_option autoImplicit false

namespace SchemeTyping

open Ty

/-! ## Where the gradual type may stand -/

namespace Ty

variable {s t : Ty}

/-- A node other than a constructor `Function*`, where `Any` and `Never` have no parameters. -/
def Node.Standard : Node → Prop
  | .con tag n => tag ≠ "Function*" ∧ (tag = "Any" ∨ tag = "Never" → n = 0)
  | _ => True

instance : DecidablePred Node.Standard
  | .con _ _ => inferInstanceAs (Decidable (_ ∧ _))
  | .var | .unknown | .variadic _ | .all => inferInstanceAs (Decidable True)

mutual

/-- Whether no `?` occurs inside an invariant parameter. -/
def guarded : Ty → Bool
  | .con tag ps => tag = "?" || guardedParams (Variance.ofTag tag ps.length) ps
  | .variadic _ _ ps => guardedParams (List.replicate ps.length .covariant) ps
  | .all _ body => body.guarded
  | _ => true

/-- As `guarded`, for parameters of the given variances: the invariant ones have no `?`, and each of
the others is `guarded`. -/
def guardedParams : List Variance → List Ty → Bool
  | v :: vs, p :: ps =>
    (if v = .invariant then decide p.Static else p.guarded) && guardedParams vs ps
  | _, _ => true

end

/-- A standard type that is `guarded`. -/
structure Firm (t : Ty) : Prop where
  standard : t.Built Node.Standard
  guarded : t.guarded = true

instance : DecidablePred Firm := fun _ ↦
  decidable_of_iff (_ ∧ _) ⟨fun h ↦ ⟨h.1, h.2⟩, fun h ↦ ⟨h.standard, h.guarded⟩⟩

theorem guardedParams_iff {vs : List Variance} {ps : List Ty} :
    guardedParams vs ps = true ↔ ∀ (i : Nat) (v : Variance) (p : Ty), vs[i]? = some v →
      ps[i]? = some p → if v = .invariant then p.Static else p.guarded = true := by
  induction vs generalizing ps with
  | nil => simp [guardedParams]
  | cons v vs ih =>
    cases ps with
    | nil => simp [guardedParams]
    | cons p ps =>
      rw [guardedParams, Bool.and_eq_true, ih]
      constructor
      · rintro ⟨hp, hps⟩ i w q hw hq
        cases i with
        | zero =>
          cases hw
          cases hq
          split <;> simp_all
        | succ i => exact hps i w q hw hq
      · intro h
        refine ⟨?_, fun i ↦ h (i + 1)⟩
        have hp := h 0 v p rfl rfl
        split <;> simp_all

/-- A type without `?` is `guarded`. -/
theorem Static.guarded (h : t.Static) : t.guarded = true := by
  have hparams : ∀ {vs : List Variance} {ps : List Ty}, (∀ p ∈ ps, p.Static) →
      (∀ p ∈ ps, p.Static → p.guarded = true) → guardedParams vs ps = true := by
    intro vs ps hps ih
    refine guardedParams_iff.2 fun i v p _ hp ↦ ?_
    have hmem := List.mem_of_getElem? hp
    split
    · exact hps p hmem
    · exact ih p hmem (hps p hmem)
  induction t with
  | var => rfl
  | unknown => rfl
  | con tag ps ih =>
    rw [Ty.guarded, hparams (built_con.1 h).2 ih, Bool.or_true]
  | variadic min max ps ih => exact hparams (built_variadic.1 h).2 ih
  | all bound body ih => exact ih (built_all.1 h).2

theorem plain_of_standard (h : t.Built Node.Standard) (hstatic : t.Static) : t.Plain :=
  fun n hn ↦ by
  have hreg := h n hn
  have hn := hstatic n hn
  cases n with
  | con tag k => exact ⟨by simpa [Node.tag?] using hn, hreg⟩
  | _ => trivial

theorem Firm.variadic {min max : Option Int} {ps : List Ty}
    (h : (Ty.variadic min max ps).Firm) {p : Ty} (hp : p ∈ ps) : p.Firm := by
  refine ⟨(built_variadic.1 h.standard).2 p hp, ?_⟩
  obtain ⟨i, hi, rfl⟩ := List.getElem_of_mem hp
  have hparam := guardedParams_iff.1 h.guarded i .covariant ps[i] (by simp [hi])
    (List.getElem?_eq_getElem hi)
  simpa using hparam

/-- A parameter of a firm constructor is firm, and plain if it is invariant. -/
theorem Firm.con {tag : String} {ps : List Ty} (h : (Ty.con tag ps).Firm)
    (htag : tag ≠ "?") {i : Nat} {v : Variance} {p : Ty}
    (hv : (Variance.ofTag tag ps.length)[i]? = some v) (hp : ps[i]? = some p) :
    p.Firm ∧ (v = .invariant → p.Plain) := by
  have hreg := (built_con.1 h.standard).2 p (List.mem_of_getElem? hp)
  have hguarded := h.guarded
  simp only [Ty.guarded, htag, decide_false, Bool.false_or] at hguarded
  have hparam := guardedParams_iff.1 hguarded i v p hv hp
  split at hparam
  · exact ⟨⟨hreg, hparam.guarded⟩, fun _ ↦ plain_of_standard hreg hparam⟩
  · exact ⟨⟨hreg, hparam⟩, fun hv ↦ absurd hv ‹_›⟩

end Ty

/-! ## Constraints without variables -/

namespace ConstraintSet

variable {s t : Ty} {scope : List String}

/-- **Constraints without variables** are generated for firm types only if the first is a subtype of
the second. -/
theorem isSubtype_of_generate {s t : Ty} {scope : List String} (hs : s.Firm) (ht : t.Firm)
    (hgen : (generate [] scope s t).isSome) : s.isSubtype t = true := by
  obtain ⟨S, h⟩ := Option.isSome_iff_exists.1 hgen
  by_cases hsub : s.isSubtype t = true
  · exact hsub
  rw [isSubtype_iff_below]
  cases generates_of_generate h with
  | untyped hu => exact hu.elim .untypedLeft .untypedRight
  | isSubtype hsub' => exact absurd hsub' hsub
  | left hmem | right hmem => exact absurd hmem List.not_mem_nil
  | all hbody =>
    exact .all (isSubtype_of_generate ⟨(built_all.1 hs.standard).2, hs.guarded⟩
      ⟨(built_all.1 ht.standard).2, ht.guarded⟩ (Option.isSome_of_mem hbody))
  | @con tag ps qs Ss _ hlen hparams =>
    have htag : tag ≠ "?" := fun htag ↦ hsub (isSubtype_iff_below.2 (.untypedLeft (by
      simp [isUntyped, hasTag, Ty.tag?, htag])))
    refine .con hlen fun i v p q hv hp hq ↦ ?_
    have hgen : ∀ c ∈ v.pairs p q, (generate [] scope c.1 c.2).isSome = true := fun c hc ↦
      isSome_of_mem_paramPairs hparams c (mem_paramPairs.2 ⟨_, mem_rows_iff.2 ⟨i, hv, hp, hq⟩, hc⟩)
    have hmem := List.mem_of_getElem? hp
    have hmem' := List.mem_of_getElem? hq
    obtain ⟨hpf, hpp⟩ := hs.con htag hv hp
    obtain ⟨hqf, hqp⟩ := ht.con htag (hlen ▸ hv) hq
    cases v with
    | covariant => exact isSubtype_of_generate hpf hqf (hgen (p, q) List.mem_cons_self)
    | contravariant => exact isSubtype_of_generate hqf hpf (hgen (q, p) List.mem_cons_self)
    | invariant =>
      -- Without `?` the two directions leave no choice but equality.
      exact isSubtype_antisymm (hpp rfl).proper (hqp rfl).proper
        (isSubtype_of_generate hpf hqf (hgen (p, q) (by simp [Variance.pairs])))
        (isSubtype_of_generate hqf hpf (hgen (q, p) (by simp [Variance.pairs])))
  | @variadic min max ps qs Ss last _ hps hqs hne hacc hspread hlast =>
    have hq : ∀ q ∈ qs, q.Firm := by
      intro q hq
      obtain ⟨i, hi, rfl⟩ := List.getElem_of_mem hq
      have hi' : i < (Variance.ofTag "Function" qs.length).length :=
        Nat.lt_of_lt_of_le hi (le_length_ofTag _ _)
      exact (ht.con (by decide) (List.getElem?_eq_getElem hi') (List.getElem?_eq_getElem hi)).1
    refine .variadic hne hacc (fun p hp q hq' ↦ ?_) (spreads_iff_related.2 (related_iff.2 ?_))
    · have hmem := List.mem_of_getLast? hp
      have hmem' := List.mem_of_getLast? hq'
      rw [List.getLast?_eq_some_getLast hps] at hp
      rw [List.getLast?_eq_some_getLast hqs] at hq'
      cases hp
      cases hq'
      exact isSubtype_of_generate (hs.variadic hmem) (hq _ hmem') (Option.isSome_of_mem hlast)
    · rintro ⟨v, p, q⟩ hr
      rw [generateSpread_eq_generateParams] at hspread
      obtain ⟨hv, hpq⟩ := List.of_mem_zip hr
      obtain rfl := List.eq_of_mem_replicate hv
      have hmem := List.dropLast_subset ps (mem_of_mem_stretch (List.of_mem_zip hpq).1)
      have hmem' := List.dropLast_subset qs (List.of_mem_zip hpq).2
      exact isSubtype_of_generate (hq q hmem') (hs.variadic hmem)
        (isSome_of_mem_paramPairs hspread (q, p) (mem_paramPairs.2 ⟨_, hr, List.mem_cons_self⟩))
  | spelt => exact absurd rfl (built_con.1 ht.standard).1.1
termination_by sizeOf s + sizeOf t
decreasing_by
  all_goals subst_vars
  any_goals
    have := List.sizeOf_lt_of_mem hmem
    have := List.sizeOf_lt_of_mem hmem'
    simp; omega
  simp; omega

/-- Every constraint of the set is `untyped`. -/
def Blank (S : ConstraintSet) : Prop := ∀ c ∈ S.values, c = .untyped

/-- If `s` is a subtype of `t`, then `generate` succeeds, and its set is `Blank`. -/
theorem exists_generate_of_isSubtype (vars scope : List String) (h : s.isSubtype t = true) :
    ∃ S, generate vars scope s t = some S ∧ S.Blank := by
  unfold generate
  rw [if_pos h]
  split
  · refine ⟨_, rfl, fun c hc ↦ ?_⟩
    obtain ⟨e, he, rfl⟩ := List.mem_map.1 ((OrdMap.mem_values_insertAll hc).resolve_right nofun)
    obtain ⟨name, -, rfl⟩ := List.mem_map.1 he
    rfl
  · exact ⟨∅, rfl, nofun⟩

theorem generate_isSome_eq (hs : s.Firm) (ht : t.Firm) :
    (generate [] scope s t).isSome = s.isSubtype t := by
  rw [Bool.eq_iff_iff]
  refine ⟨isSubtype_of_generate hs ht, fun h ↦ ?_⟩
  obtain ⟨S, hS, -⟩ := exists_generate_of_isSubtype _ scope h
  exact Option.isSome_of_mem hS

theorem Blank.on {S : ConstraintSet} (hS : S.Blank) {name : String} (h : name ∈ S.keys) :
    S.on name = .untyped := by
  obtain ⟨c, hc⟩ := Option.isSome_iff_exists.1 (OrdMap.isSome_get?_iff.2 h)
  rw [ConstraintSet.on, hc, Option.getD_some, hS c (OrdMap.mem_values_of_get? hc)]

/-- The meet of blank sets exists and is blank. -/
theorem Blank.meet {S T : ConstraintSet} (hS : S.Blank) (hT : T.Blank) :
    ∃ V, S.meet T = some V ∧ V.Blank := by
  obtain ⟨V, hV, hblank⟩ := exists_meet_of_names (S := S) (T := T) (P := fun _ c ↦ c = .untyped)
    fun name hname ↦ by
      refine ⟨.untyped, ?_, rfl⟩
      rcases mem_names.1 hname with h | h
      · rw [hS.on h]; rfl
      · rw [hT.on h]; cases S.on name <;> rfl
  refine ⟨V, hV, fun c hc ↦ ?_⟩
  obtain ⟨e, he, rfl⟩ := List.mem_map.1 hc
  exact hblank e he

theorem meetAll_blank {Ss : List ConstraintSet} (h : ∀ S ∈ Ss, S.Blank) :
    ∃ V, meetAll Ss = some V ∧ V.Blank :=
  exists_meetAll_of_meet Blank.meet nofun h

/-- If every argument is a subtype of its parameter, `ofArguments` succeeds, and its sets are
blank. -/
theorem exists_ofArguments (vars : List String) {qs : List (Ty × Ty)} (i : Nat)
    (h : ∀ q ∈ qs, q.1.isSubtype q.2 = true) :
    ∃ Ss, ofArguments vars i qs = .ok Ss ∧ ∀ S ∈ Ss, S.Blank := by
  induction qs generalizing i with
  | nil => exact ⟨[], rfl, nofun⟩
  | cons q qs ih =>
    rw [List.forall_mem_cons] at h
    obtain ⟨S, hS, hblank⟩ := exists_generate_of_isSubtype vars [] h.1
    obtain ⟨Ss, hSs, hblanks⟩ := ih (i + 1) h.2
    refine ⟨S :: Ss, ?_, List.forall_mem_cons.2 ⟨hblank, hblanks⟩⟩
    rw [ofArguments, hS]
    dsimp only
    rw [hSs]
    rfl

theorem generate_isSome_of_ofArguments {vars : List String} {qs : List (Ty × Ty)} {i : Nat}
    {Ss : List ConstraintSet} (h : ofArguments vars i qs = .ok Ss) :
    ∀ q ∈ qs, (generate vars [] q.1 q.2).isSome := by
  induction qs generalizing i Ss with
  | nil => nofun
  | cons q qs ih =>
    rw [ofArguments] at h
    split at h
    · cases h
    · rename_i S hS
      cases hrest : ofArguments vars (i + 1) qs with
      | error e =>
        rw [hrest] at h
        cases h
      | ok Ss' => exact List.forall_mem_cons.2 ⟨Option.isSome_of_mem hS, ih hrest⟩

end ConstraintSet

/-! ## Calls and annotated binders -/

open ConstraintSet

/-- A call without variables whose arguments are subtypes of the parameters has the type
`result`. -/
theorem callResult_of_isSubtype {args params : List Ty} (result : Ty)
    (h : ∀ q ∈ args.zip params, q.1.isSubtype q.2 = true) :
    callResult [] args params result = .result result := by
  obtain ⟨Ss, hSs, hblank⟩ := exists_ofArguments [] 0 h
  obtain ⟨V, hV, hVblank⟩ := meetAll_blank hblank
  have hsat : V.isSatisfiable = true := List.all_eq_true.2 fun c hc ↦ by rw [hVblank c hc]; rfl
  obtain ⟨σ, hσ⟩ : ∃ σ, V.minimal result = some σ :=
    Option.isSome_iff_exists.1 (isSome_minimal.trans hsat)
  have hsubst : result.subst (σ.filterKeys [].contains) = result :=
    subst_eq_self fun x _ ↦ by rw [get?_minimal [] hσ, if_neg List.not_mem_nil]
  rw [callResult, hSs]
  dsimp only
  rw [hV, Option.bind_some, hσ]
  dsimp only
  rw [hsubst, eliminateUp, eliminate_eq_self fun _ _ ↦ List.not_mem_nil]

theorem isSome_generate_of_callResult {args params : List Ty} {result R : Ty}
    (h : callResult [] args params result = .result R) :
    ∀ q ∈ args.zip params, (generate [] [] q.1 q.2).isSome := by
  rw [callResult] at h
  split at h
  · cases h
  · exact generate_isSome_of_ofArguments ‹_›

/-- **Calls and annotated binders accept the same types.**  For `Firm` types, `generate []` succeeds
exactly for subtypes, and `callResult []` has a result exactly if every argument could be bound to a
variable with the annotation of its parameter.  One direction needs no condition: what an annotated
binder accepts, a call accepts. -/
theorem call_accepts_iff_isSubtype (args params : List Ty) (result : Ty) :
    ((∀ q ∈ args.zip params, q.1.isSubtype q.2 = true) →
      (∀ q ∈ args.zip params, (generate [] [] q.1 q.2).isSome = true) ∧
        callResult [] args params result = .result result) ∧
    ((∀ a ∈ args, a.Firm) → (∀ p ∈ params, p.Firm) →
      (∀ a ∈ args, ∀ p ∈ params, (generate [] [] a p).isSome = a.isSubtype p) ∧
      ((∃ R, callResult [] args params result = .result R) ↔
        ∀ q ∈ args.zip params, q.1.isSubtype q.2 = true)) := by
  refine ⟨fun h ↦ ⟨?_, callResult_of_isSubtype result h⟩, fun hargs hparams ↦
    ⟨fun a ha p hp ↦ generate_isSome_eq (hargs a ha) (hparams p hp), ?_,
      fun h ↦ ⟨result, callResult_of_isSubtype result h⟩⟩⟩
  · exact isSome_generate_of_callResult (callResult_of_isSubtype result h)
  · rintro ⟨R, hR⟩ q hq
    obtain ⟨ha, hp⟩ := List.of_mem_zip hq
    exact isSubtype_of_generate (hargs _ ha) (hparams _ hp) (isSome_generate_of_callResult hR q hq)

/-- The two tests agree on untyped functions in lists, and on equal vectors in functions. -/
theorem call_accepts_iff_isSubtype_list :
    (list (function [untyped, integer])).Firm ∧ (function [any, .con "Vector" [string]]).Firm ∧
    (list (function [string, untyped])).Firm ∧ (function [untyped, .con "Vector" [string]]).Firm ∧
    (∀ q ∈ [list (function [untyped, integer]), function [any, .con "Vector" [string]]].zip
        [list (function [string, untyped]), function [untyped, .con "Vector" [string]]],
      q.1.isSubtype q.2 = true) ∧
    callResult [] [list (function [untyped, integer]), function [any, .con "Vector" [string]]]
        [list (function [string, untyped]), function [untyped, .con "Vector" [string]]] boolean =
      .result boolean ∧
    (generate [] [] (function [any, .con "Vector" [string]])
      (list (function [string, untyped]))).isSome =
      (function [any, .con "Vector" [string]]).isSubtype (list (function [string, untyped])) := by
  have hcall := call_accepts_iff_isSubtype
    [list (function [untyped, integer]), function [any, .con "Vector" [string]]]
    [list (function [string, untyped]), function [untyped, .con "Vector" [string]]] boolean
  have hsub : ∀ q ∈ [list (function [untyped, integer]), function [any, .con "Vector" [string]]].zip
      [list (function [string, untyped]), function [untyped, .con "Vector" [string]]],
      q.1.isSubtype q.2 = true := by decide +kernel
  have hfirm := hcall.2 (by decide +kernel) (by decide +kernel)
  exact ⟨by decide +kernel, by decide +kernel, by decide +kernel, by decide +kernel, hsub,
    (hcall.1 hsub).2, hfirm.1 _ (by simp) _ (by simp)⟩

/-- A call accepts `(Vector ?)` for `(Vector Integer)`, and an annotated binder does not: `generate`
accepts `?` in both directions, and the two types are not equal. -/
theorem call_accepts_untyped_parameter :
    (Ty.con "Vector" [untyped]).isSubtype (.con "Vector" [integer]) = false ∧
    generate [] [] (.con "Vector" [untyped]) (.con "Vector" [integer]) = some ∅ ∧
    callResult [] [.con "Vector" [untyped]] [.con "Vector" [integer]] integer =
      .result integer := by
  exact ⟨by decide +kernel, by decide +kernel, by decide +kernel⟩

end SchemeTyping
