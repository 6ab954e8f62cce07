import SchemeTyping.Checker.Rules
import SchemeTyping.Proofs.Checker.Typing
import SchemeTyping.Proofs.Constraint
import SchemeTyping.Proofs.Ty.Prenex

/-!
# Calls are derivable

For a call, the checker takes the quantifiers off the type of what is called (`unquantified`), plans
the types of the arguments (`plan`), and solves for the quantified names (`callResult`).  Each of
the three agrees with the rule for calls.

## What is here

* `exists_quantifiers` — the quantifiers that `unquantified` takes off are those in front of the
  type.
* `applies_of_plan` — a plan has the argument types and the result type of a type that `Applies`.
* `derivable_call` — the result of a call is derivable, and tame.
-/

set_option autoImplicit false

namespace SchemeTyping.Check

open Ty

variable {Q : List String} {t T F r R : Ty} {params : List Ty} {m : Mention} {n : Nat}

/-! ## Quantifiers -/

/-- A type is `(unquantified t).2` with the quantifiers put back in front. -/
theorem exists_quantifiers (t : Ty) : ∃ xss : List (List String),
    t = xss.foldr .all (unquantified t).2 ∧ xss.flatten = (unquantified t).1 := by
  induction t with
  | all bound body ih =>
    obtain ⟨xss, hbody, hflat⟩ := ih
    exact ⟨bound :: xss, congrArg (Ty.all bound) hbody,
      by rw [List.flatten_cons, hflat, unquantified]⟩
  | _ => exact ⟨[], rfl, rfl⟩

theorem built_unquantified {p : Node → Prop} (h : t.Built p) : (unquantified t).2.Built p := by
  induction t with
  | all bound body ih => exact ih (built_all.1 h).2
  | _ => exact h

theorem mem_freeVars_of_unquantified {x : String} (h : x ∈ (unquantified t).2.freeVars)
    (hx : x ∉ (unquantified t).1) : x ∈ t.freeVars := by
  induction t with
  | all bound body ih =>
    rw [unquantified, List.mem_append, not_or] at hx
    rw [freeVars_all, List.mem_filter]
    exact ⟨ih h hx.2, by simpa using hx.1⟩
  | _ => exact h

theorem quantifierFree_unquantified (h : t.Prenex Q) :
    (unquantified t).2.QuantifierFree ∧ ∀ x ∈ (unquantified t).1, x ∈ Q := by
  induction t with
  | all bound body ih =>
    obtain ⟨hbody, hx⟩ := ih h.2
    exact ⟨hbody, List.forall_mem_append.2 ⟨h.1, hx⟩⟩
  | _ => exact ⟨h, nofun⟩

/-- For a shallow type, `unquantified` takes off no quantifiers, or leaves none inside. -/
theorem unquantified_cases (h : t.Shallow Q) : (∀ x ∈ (unquantified t).1, x ∈ Q) ∧
    ((unquantified t).1 = [] ∨ (unquantified t).2.QuantifierFree) ∧
    (unquantified t).2.Shallow Q := by
  cases t with
  | all bound body =>
    obtain ⟨hfree, hx⟩ := quantifierFree_unquantified h.of_all
    exact ⟨hx, .inr hfree, hfree.shallow⟩
  | _ => exact ⟨nofun, .inl rfl, h⟩

/-! ## Plans -/

/-- The argument types of a variadic function: the last one is repeated. -/
theorem spread_eq_take (ps : List Ty) (p r : Ty) (n : Nat) :
    spread (ps ++ [p, r]) n = (ps ++ List.replicate n p).take n := by
  have hargs : arguments (ps ++ [p, r]) = ps ++ [p] := by
    rw [arguments, List.dropLast_append_of_ne_nil (by simp)]
    rfl
  rw [spread]
  split
  · rename_i h
    simp [hargs] at h
  · rename_i a as h
    rw [hargs] at h
    refine List.ext_getElem? fun i ↦ ?_
    simp only [← h, List.getElem?_map, List.getLast_append_singleton]
    by_cases hi : i < n
    · rw [List.getElem?_range hi, List.getElem?_take_of_lt hi, Option.map_some]
      by_cases hps : i < ps.length
      · simp [List.getElem?_append_left hps, hps]
      · rw [Nat.not_lt] at hps
        have hrep : i - ps.length < n := by omega
        rw [List.getElem?_append_right hps, List.getElem?_append_right hps,
          List.getElem?_replicate_of_lt hrep, List.getElem?_singleton]
        split <;> rfl
    · simp [hi]

theorem accepts_variadic {min max : Option Int} {ps : List Ty} :
    (Ty.variadic min max ps).accepts n = true ↔
      min.getD (ps.length - 2 : Nat) ≤ n ∧ ∀ k ∈ max, n ≤ k := by
  rw [accepts, Bool.and_eq_true, decide_eq_true_iff]
  refine and_congr Iff.rfl ?_
  rw [maxArguments]
  cases max <;> simp

/-- `plan` asks for arguments only for functions and variadic functions. -/
theorem plan_eq_solve (h : plan m n t = .solve params r) :
    (∃ ps, t = function ps ∧ n = (arguments ps).length ∧ params = arguments ps ∧ r = result ps) ∨
      ∃ min max ps, t = .variadic min max ps ∧ t.accepts n = true ∧ params = spread ps n ∧
        r = result ps := by
  unfold plan at h
  split at h
  · rename_i min max ps
    split at h
    · rename_i haccepts
      cases h
      exact .inr ⟨min, max, ps, rfl, haccepts, rfl, rfl⟩
    · cases h
  · split at h
    · cases h
    · cases h
    · cases h
    · split at h
      · rename_i hn
        cases h
        exact .inl ⟨_, rfl, hn, rfl, rfl⟩
      · cases h
    · cases h
  · cases h

/-- `plan` ignores the arguments only for `?` and the types with tag `Any` or `Never`. -/
theorem plan_eq_ignore (h : plan m n t = .ignore R) : t.isUntyped = true ∨
    R = t ∧ (t.hasTag "Any" = true ∨ t.hasTag "Never" = true) := by
  unfold plan at h
  split at h
  · split at h <;> cases h
  · split at h
    · exact .inl rfl
    · cases h
      exact .inr ⟨rfl, .inl rfl⟩
    · cases h
      exact .inr ⟨rfl, .inr rfl⟩
    · split at h <;> cases h
    · cases h
  · cases h

theorem asFunction_cases (t : Ty) : (∃ ps, t = .con "Procedure" ps) ∨ asFunction t = t := by
  unfold asFunction
  split
  · rename_i ps
    exact .inl ⟨ps, rfl⟩
  · exact .inr rfl

/-- The argument types and the result type of a plan are ones that `Applies`, and parameters of
`F`. -/
theorem applies_of_plan (hF : F.Built Node.Formed) (h : plan m n (asFunction F) = .solve params r) :
    Applies F params r ∧ params.length = n ∧ (∀ p ∈ params, p ∈ F.params) ∧ r ∈ F.params := by
  obtain ⟨ps, rfl⟩ | hF' := asFunction_cases F
  · obtain ⟨p, rfl⟩ := List.length_eq_one_iff.1 ((built_con.1 hF).1.2.1 rfl)
    obtain ⟨_, ⟨⟩, rfl, rfl, rfl⟩ | ⟨_, _, _, ⟨⟩, -⟩ := plan_eq_solve h
    exact ⟨.procedure, rfl, nofun, by simp [Ty.params]⟩
  · rw [hF'] at h
    obtain ⟨ps, rfl, rfl, rfl, rfl⟩ | ⟨min, max, ps, rfl, haccepts, rfl, rfl⟩ := plan_eq_solve h
    · have hps : ps ≠ [] := List.ne_nil_of_length_pos ((built_con.1 hF).1.2.2 rfl)
      have happly : Applies (function (arguments ps ++ [result ps])) (arguments ps) (result ps) :=
        .function
      rw [arguments_append_result hps] at happly
      refine ⟨happly, rfl, List.dropLast_subset ps, ?_⟩
      have hmem : result ps ∈ arguments ps ++ [result ps] := by simp
      rwa [arguments_append_result hps] at hmem
    · obtain ⟨as, p, q, rfl⟩ : ∃ as p q, ps = as ++ [p, q] := by
        have hlen : 2 ≤ ps.length := (built_variadic.1 hF).1
        have hps : ps ≠ [] := List.ne_nil_of_length_pos (by omega)
        have hargs : arguments ps ≠ [] := List.ne_nil_of_length_pos (by simp [arguments]; omega)
        refine ⟨arguments (arguments ps), result (arguments ps), result ps, ?_⟩
        conv_lhs => rw [← arguments_append_result hps, ← arguments_append_result hargs]
        simp
      obtain ⟨hmin, hmax⟩ := accepts_variadic.1 haccepts
      rw [spread_eq_take]
      refine ⟨?_, by simp, fun a ha ↦ ?_, by simp [Ty.params, result]⟩
      · rw [show result (as ++ [p, q]) = q by simp [result]]
        exact .variadic (by simpa using hmin) hmax
      · rcases List.mem_append.1 (List.mem_of_mem_take ha) with ha | ha
        · simp [Ty.params, ha]
        · simp [Ty.params, List.eq_of_mem_replicate ha]

/-- `plan` ignores the arguments of a formed type only for `any` and `never`. -/
theorem eq_extreme_of_ignore (hF : F.Built Node.Formed) (h : plan m n (asFunction F) = .ignore R) :
    R = F ∧ (F = any ∨ F = never) := by
  have hplain : F.Plain := Built.mono hF fun _ ↦ Node.Formed.plain
  obtain ⟨ps, rfl⟩ | hF' := asFunction_cases F
  · rcases plan_eq_ignore h with h | ⟨-, h | h⟩ <;>
      simp [asFunction, isUntyped, hasTag, tag?, function] at h
  · rw [hF'] at h
    obtain h | ⟨rfl, hany | hnever⟩ := plan_eq_ignore h
    · exact absurd h hplain.static.not_isUntyped
    · obtain rfl := hplain.proper.eq_of_hasTag (.inl rfl) hany
      exact ⟨rfl, .inl rfl⟩
    · obtain rfl := hplain.proper.eq_of_hasTag (.inr rfl) hnever
      exact ⟨rfl, .inr rfl⟩

/-! ## Results -/

variable {Γ : Env} {f : Expr} {args : List Expr} {σ : Subst}

/-- The tame types are a `Stock` for names of `Q`. -/
theorem stock_tame {vars : List String} (h : ∀ x ∈ vars, x ∈ Q) : Stock vars (Tame Q) where
  plain := Tame.plain
  notMem ht x hx hmem := ht.notMem x hx (h x hmem)
  never := tame_atom (by decide)
  any := tame_atom (by decide)
  bound b _ _ := Tame.bound b
  param h := h.of_mem_params

/-- The result type of what is called is tame under a choice that leaves none of the quantified
names. -/
theorem tame_result (hT : T.Tame Q) (hr : r ∈ (unquantified T).2.params)
    (hσ : Choice (unquantified T).1 (Tame Q) σ)
    (hgone : ∀ x ∈ (r.subst σ).freeVars, x ∉ (unquantified T).1) : (r.subst σ).Tame Q := by
  obtain ⟨-, hcases, hshallow⟩ := unquantified_cases hT.shallow
  have hformed := built_unquantified hT.formed
  refine ⟨Built.subst (hformed.of_mem_params hr) fun x u hx ↦ (hσ x u hx).2.formed, ?_,
    fun x hx ↦ ?_⟩
  · rcases hcases with hnil | hfree
    · -- Nothing is put in.
      have hnone : ∀ x ∈ r.freeVars, σ.get? x = none := fun x _ ↦ by
        cases hx : σ.get? x with
        | none => rfl
        | some u => exact absurd (hnil ▸ (hσ x u hx).1) List.not_mem_nil
      rw [subst_eq_self hnone]
      exact hshallow.of_mem_params hr
    · exact Shallow.subst (Built.of_mem_params hfree hr) fun x u hx ↦ (hσ x u hx).2.shallow
  · rcases mem_freeVars_subst hx with ⟨hx', -⟩ | ⟨name, -, u, hu, hx'⟩
    · have hbody := mem_freeVars_of_mem_params hr hx'
      exact hT.notMem x (mem_freeVars_of_unquantified hbody (hgone x hx))
    · exact (hσ name u hu).2.notMem x hx'

/-- If `f` has type `T` and the arguments have types `ts`, the result of `callResult` is
derivable. -/
theorem derivable_call {ts : List Ty} (hT : T.Tame Q) (hf : Derivable Γ f T)
    (hplan : plan m args.length (asFunction (unquantified T).2) = .solve params r)
    (hts : List.Forall₂ (fun e t ↦ t.Tame Q ∧ Derivable Γ e t) args ts)
    (h : callResult (unquantified T).1 ts params r = .result R) :
    R.Tame Q ∧ Derivable Γ (.call f args) R := by
  obtain ⟨hQ, hcases, -⟩ := unquantified_cases hT.shallow
  have hformed := built_unquantified hT.formed
  have hplain : (unquantified T).2.Plain := Built.mono hformed fun _ ↦ Node.Formed.plain
  obtain ⟨happly, hlen, hparams, hr⟩ := applies_of_plan hformed hplan
  have hstock := stock_tame hQ
  obtain ⟨hlents, hpos⟩ := List.forall₂_iff_zip.1 hts
  have htame : ∀ t ∈ ts, t.Tame Q := fun t ht ↦ by
    obtain ⟨i, hi⟩ := List.mem_iff_getElem?.1 ht
    obtain ⟨e, he⟩ := exists_getElem?_eq_some (Nat.le_of_eq hlents.symm) hi
    exact (hpos (List.mem_of_getElem? (List.getElem?_zip_eq_some.2 ⟨he, hi⟩))).1
  obtain ⟨σ, hσ, hsub, rfl, hgone⟩ := exists_subst_of_callResult hstock htame
    (fun p hp ↦ hplain.of_mem_params (hparams p hp))
    (hcases.imp_right fun hfree p hp ↦ Built.of_mem_params hfree (hparams p hp)) h
  obtain ⟨xss, hxss, hflat⟩ := exists_quantifiers T
  rw [hxss] at hf
  refine ⟨tame_result hT hr hσ hgone, .call hf happly (fun x u hx ↦ ?_) hlen.symm fun q hq ↦ ?_⟩
  · obtain ⟨hmem, hu⟩ := hσ x u hx
    exact ⟨hflat ▸ hmem, hu.static⟩
  · obtain ⟨i, hi⟩ := List.mem_iff_getElem?.1 hq
    obtain ⟨he, hp⟩ := List.getElem?_zip_eq_some.1 hi
    obtain ⟨t, ht⟩ := exists_getElem?_eq_some (Nat.le_of_eq hlents) he
    have hfits := hsub (t, q.2) (List.mem_of_getElem? (List.getElem?_zip_eq_some.2 ⟨ht, hp⟩))
    have hstatic : (q.2.subst σ).Static :=
      (hσ.plain_subst Tame.plain
        (hplain.of_mem_params (hparams _ (List.mem_of_getElem? hp)))).static
    have harg : (q.1, t) ∈ args.zip ts :=
      List.mem_of_getElem? (List.getElem?_zip_eq_some.2 ⟨he, ht⟩)
    exact (hpos harg).2.sub hfits hstatic

/-- A call of a value of an extreme type has that type, whatever the types of the arguments. -/
theorem derivable_ignore (hT : T.Tame Q) (hf : Derivable Γ f T)
    (hplan : plan m args.length (asFunction (unquantified T).2) = .ignore R)
    (hargs : ∀ e ∈ args, Derivable Γ e any) : R.Tame Q ∧ Derivable Γ (.call f args) R := by
  obtain ⟨rfl, hF⟩ := eq_extreme_of_ignore (built_unquantified hT.formed) hplan
  obtain ⟨xss, hxss, -⟩ := exists_quantifiers T
  rw [hxss] at hf
  have hzip : ∀ q ∈ args.zip (List.replicate args.length any), Derivable Γ q.1 (q.2.subst ∅) := by
    rintro ⟨e, p⟩ hq
    obtain ⟨he, hp⟩ := List.of_mem_zip hq
    rw [List.eq_of_mem_replicate hp]
    exact hargs e he
  have hσ : ∀ x u, (∅ : Subst).get? x = some u → x ∈ xss.flatten ∧ u.Static := by simp
  have hlen : args.length = (List.replicate args.length any).length := by simp
  rcases hF with hF | hF <;> rw [hF] at hf ⊢
  · exact ⟨tame_atom (by decide), .call hf .any hσ hlen hzip⟩
  · exact ⟨tame_atom (by decide), .call hf .never hσ hlen hzip⟩

end SchemeTyping.Check
