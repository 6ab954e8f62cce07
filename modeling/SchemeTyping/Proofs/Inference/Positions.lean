import SchemeTyping.Proofs.Inference.Reach
import SchemeTyping.Proofs.Tree

/-!
# Positions and inference agree

A path into a tree leads to an expression, and the cache has a type for the path.  This file shows
that the type is the one that was found for the expression, that exactly the paths which exist have
one, and that inference at a path (`Infer.inferAt`) gives a type whenever that of the whole tree
(`Infer.inferTree`) does.

## What is here

* `run_visit_of_inferTree` — both inferences begin with the same visit, which does not read the log.
* `ensures_generalizeNamed_again`, `Named.apply_namedTo` — `inferAt` then generalises twice, the
  second time with the naming of the first.  Such a naming is a store in which the unknowns that
  were named have variables for solutions: it names all that the store has, and does not change what
  it has named.
* `inferAt_agrees` — the two inferences together.
-/

set_option autoImplicit false

namespace SchemeTyping

namespace Infer

open Ty

/-! ## A naming that is used again -/

variable {D : Prop} {store : Store} {st : NamingState} {env : Env} {t G : Ty}
  {s s₁ : InferenceState}

theorem Named.closed (h : Named store st) (hs : store.Closed) : st.naming.Closed := by
  intro k v hv
  rcases h.values k v hv with hv | ⟨name, r, rfl, -⟩
  · exact fun id hid ↦ (h.contains_iff id).2 (hs k v hv id hid)
  · exact nofun

/-- A naming applied to a type it has named gives the named type. -/
theorem Named.apply_namedTo (h : Named store st) (hs : store.Acyclic)
    (hG : NamedTo [] st (store.apply t) G) : st.naming.apply t = G := by
  rw [h.apply_eq hs, hG.eq]
  refine fill_congr fun r hr ↦ ?_
  obtain ⟨name, hname, hr⟩ := (hG.nameIn_eq hr).resolve_left fun h ↦ List.not_mem_nil h.1
  rw [h.apply_named hs hname, hr]

/-- A naming can be used again for every type whose unknowns the store has.  The result agrees with
what it has named before. -/
theorem ensures_generalizeNamed_again (hs : Orderly D s₁) (h : Named s₁.store st)
    (ht : s₁.store.Registered t) (henv : ∀ S ∈ env.values, S.unknowns = []) :
    Ensures (generalizeNamed st.naming env t) s
      (fun r s' ↦ s'.types = s.types ∧ r.1.unknowns = [] ∧ ∃ ν : String → Ty, r.1 = t.fill ν ∧
        ∀ u G, NamedTo [] st (s₁.store.apply u) G → G = u.fill ν)
      (fun _ _ ↦ False) := by
  have hregistered : st.naming.Registered (st.naming.apply t) :=
    (h.closed hs.closed).apply fun id hid ↦ (h.contains_iff id).2 (ht id hid)
  refine (ensures_generalizeNamed_closed h.wf (h.acyclic hs.acyclic) hregistered henv).mono ?_
    fun _ _ ↦ id
  rintro ⟨U, naming⟩ s' ⟨hs', names, -, hU⟩
  refine ⟨by rw [hs'], hU.unknowns_eq,
    fun id ↦ (st.naming.apply (.unknown id)).fill (nameIn [] ⟨naming, names⟩), ?_, fun u G hG ↦ ?_⟩
  · rw [hU.eq, ← fill_fill, ← Store.apply_eq_fill]
  · -- What has been named has no unknowns left to name.
    rw [← fill_fill, ← Store.apply_eq_fill, h.apply_namedTo hs.acyclic hG,
      fill_congr (g := Ty.unknown) (by simp [hG.unknowns_eq]), fill_self]

/-! ## The visit of a whole tree -/

variable {tree : Tree} {R T : Ty} {path : Path}

/-- If `inferTree` succeeds, so does the visit of the root from the initial state. -/
theorem run_visit_of_inferTree (h : ((inferTree env tree).run s).1 = .ok T) :
    ∃ R s₁, (visit env tree.site tree.root).run .initial = (.ok R, s₁) ∧
      (generalizeWith s₁.store env R).1 = .ok T := by
  have hinv : Ensures (inferTree env tree) s (fun T _ ↦ ∃ R s₁,
      (visit env tree.site tree.root).run .initial = (.ok R, s₁) ∧
        (generalizeWith s₁.store env R).1 = .ok T) (fun _ _ ↦ True) := by
    rw [inferTree, ensures_bind, ensures_modify, ensures_bind, ensures_tell, ensures_bind]
    refine (contained tree.root env tree.site).ensures_log (s := .initial) ?_
    rcases hrun : (visit env tree.site tree.root).run .initial with ⟨f | R, s₁⟩
    · exact (ensures_error hrun).2 fun _ ↦ trivial
    · rw [ensures_ok hrun]
      intro l
      rw [ensures_bind, generalize, ensures_bind, ensures_get, generalizeNamed]
      rcases hG : generalizeWith s₁.store env R with ⟨f | G, naming⟩
      · trivial
      · simp only [ensures_bind, ensures_tell, ensures_pure, ensureSolved, ensures_ite,
          ensures_throw]
        exact ⟨fun _ ↦ ⟨R, s₁, rfl, congrArg Prod.fst hG⟩, fun _ ↦ trivial⟩
  exact (ensures_ok (Prod.ext h rfl)).1 hinv

theorem ensures_generalizeNamed_eq {naming : Store} (h : (generalizeWith naming env t).1 = .ok T) :
    Ensures (generalizeNamed naming env t) s (fun r _ ↦ r.1 = T) (fun _ _ ↦ False) := by
  rw [generalizeNamed]
  rcases hG : generalizeWith naming env t with ⟨f | G, naming'⟩ <;> rw [hG] at h <;> cases h
  rfl

/-- What `inferAt` makes of the visit of the whole tree. -/
theorem ensures_inferAt (hrun : (visit env tree.site tree.root).run .initial = (.ok R, s₁))
    (hs : Orderly D s₁) (hR : Live D s₁.store R) (hT : (generalizeWith s₁.store env R).1 = .ok T)
    (henv : ∀ S ∈ env.values, S.unknowns = []) :
    Ensures (inferAt env tree path) s
      (fun U s' ↦ s'.types = s₁.types ∧ U.unknowns = [] ∧
        ∃ t ν, s₁.types.get? (tree.key path) = some t ∧ U = t.fill ν ∧ T = R.fill ν)
      (fun f _ ↦ s₁.types.get? (tree.key path) = none ∧ f = .invalidPath path) := by
  rw [inferAt, ensures_bind, ensures_modify, ensures_bind, ensures_tell, ensures_bind]
  refine (contained tree.root env tree.site).ensures_log (s := .initial)
    ((ensures_ok hrun).2 fun l ↦ ?_)
  rw [ensures_bind, generalize, ensures_bind, ensures_get]
  refine ((ensures_generalizeNamed_closed hs.wf hs.acyclic (hs.live_apply hR).registered henv).and
    (ensures_generalizeNamed_eq hT)).mono ?_ fun _ _ h ↦ h.1.elim
  rintro ⟨_, naming⟩ s₂ ⟨⟨hs₂, names, hnamed, hto⟩, rfl⟩
  have htypes : s₂.types = s₁.types := by rw [hs₂]
  rw [ensures_bind, ensures_get, htypes]
  cases hcached : s₁.types.get? (tree.key path) with
  | none => exact ⟨rfl, rfl⟩
  | some t =>
    rw [ensures_bind]
    refine (ensures_generalizeNamed_again hs hnamed (hs.cached _ t hcached).registered henv).mono ?_
      fun _ _ ↦ False.elim
    rintro ⟨U, _⟩ s₃ ⟨hs₃, hU, ν, hν, hsame⟩
    have hsolved : U.isSolved = true := List.isEmpty_iff.2 hU
    rw [ensures_bind, ensureSolved, if_pos hsolved]
    exact ⟨hs₃.trans htypes, hU, t, ν, rfl, hν, hsame R _ hto⟩

/-- **Positions and inference agree**, for every tree that was read and every environment without
unknowns, if `inferTree` succeeds.  `inferAt` succeeds if there is an expression at the path, and
fails with `invalidPath` otherwise.  The type in the cache is the one that the visit of the tree has
found for this expression; one naming makes of it the type at the path, and of the type in the cache
for the root that of the whole tree. -/
theorem inferAt_agrees {source : String} {es : List Expr} (tree : Tree)
    (hread : Expr.readAll source = .ok es) (htree : tree.root ∈ es)
    (henv : ∀ S ∈ env.values, S.unknowns = []) (hinfer : ((inferTree env tree).run s).1 = .ok T)
    (path : Path) (s₀ : InferenceState) :
    Ensures (inferAt env tree path) s₀
      (fun U s₁ ↦ (path = [] → U = T) ∧ U.unknowns = [] ∧ ∃ e t R ν s₂,
        tree.root.at? path = some e ∧ tree.root.nodeAt path = .ok e ∧
        (do let env ← reach env tree.site tree.root path; visit env (below tree.site path) e).run
          .initial
          = (.ok t, s₂) ∧
        s₁.types.get? (tree.key path) = some t ∧ U = t.fill ν ∧
        s₁.types.get? (tree.key []) = some R ∧ T = R.fill ν)
      (fun f _ ↦ tree.root.at? path = none ∧ f = .invalidPath path) := by
  obtain ⟨R, s₁, hrun, hT⟩ := run_visit_of_inferTree hinfer
  have hroot : tree.root.All (Legible False) := fun q hq ↦
    ⟨Expr.formed_of_readAll hread htree q hq, False.elim⟩
  have hknown : KnownEnv False InferenceState.initial.store env := fun S hS ↦
    ⟨fun _ _ ↦ False.elim, fun id hid ↦ absurd (henv S hS ▸ hid) List.not_mem_nil⟩
  obtain ⟨⟨hs, -⟩, hR⟩ := (ensures_ok hrun).1
    (settled False tree.root tree.site (orderly_reset False .initial #[]) hknown hroot)
  have hcached : s₁.types.get? (tree.key []) = some R :=
    (ensures_ok hrun).1 (records_visit env tree.site tree.root .initial)
  refine (ensures_inferAt hrun hs hR hT henv).mono ?_ ?_
  · rintro U s₂ ⟨htypes, hU, t, ν, ht, rfl, hν⟩
    cases hat : tree.root.at? path with
    | none =>
      have hnone := (get?_below_of_missing hrun hat).trans (OrdMap.get?_empty _)
      exact absurd (ht.symm.trans hnone) nofun
    | some e =>
      obtain ⟨u, s₃, hreach, hu⟩ := exists_reached hrun hat
      cases hu.symm.trans ht
      rw [htypes]
      refine ⟨fun hpath ↦ ?_, hU, e, t, R, ν, s₃, rfl, Expr.nodeAt_of_at? hat, hreach, ht, rfl,
        hcached, hν⟩
      subst hpath
      cases ht.symm.trans hcached
      exact hν.symm
  · rintro f _ ⟨hnone, hf⟩
    cases hat : tree.root.at? path with
    | none => exact ⟨rfl, hf⟩
    | some e =>
      obtain ⟨u, s₃, -, hu⟩ := exists_reached hrun hat
      exact absurd (hnone.symm.trans hu) nofun

/-- A polymorphic name, and a call with one argument more than its function takes. -/
def surplusExpr : Expr :=
  .lambda [.binding "x" none] (.letIn [(.binding "f" none, .lambda [.binding "y" none] (.var "y"))]
    (.call (.var "fail") [.call (.var "f") [.var "x"], .call (.var "f") [.number (.exact 1)]]))

/-- The surplus argument is visited too, because the result type of the function is `never`. -/
theorem inferAt_agrees_surplus :
    let env : Env := .ofList [("fail", .all ["a"] (function [.var "a", never]))]
    let T := function [.var "a", never]
    Expr.readAll "(lambda (x) (let ((f (lambda (y) y))) (fail (f x) (f 1))))" = .ok [surplusExpr] ∧
      (∀ S ∈ env.values, S.unknowns = []) ∧
      ((inferTree env ⟨0, surplusExpr, 0⟩).run .initial).1 = .ok T ∧ ∀ path,
        Ensures (inferAt env ⟨0, surplusExpr, 0⟩ path) .initial
          (fun U s₁ ↦ (path = [] → U = T) ∧ U.unknowns = [] ∧ ∃ e t R ν s₂,
            surplusExpr.at? path = some e ∧ surplusExpr.nodeAt path = .ok e ∧
            (do let env ← reach env ⟨0, 0, []⟩ surplusExpr path; visit env ⟨0, 0, path⟩ e).run
              .initial
              = (.ok t, s₂) ∧
            s₁.types.get? ⟨0, 0, path⟩ = some t ∧ U = t.fill ν ∧
            s₁.types.get? ⟨0, 0, []⟩ = some R ∧ T = R.fill ν)
          (fun f _ ↦ surplusExpr.at? path = none ∧ f = .invalidPath path) := by
  intro env T
  have hread : Expr.readAll "(lambda (x) (let ((f (lambda (y) y))) (fail (f x) (f 1))))"
      = .ok [surplusExpr] := by decide +kernel
  have henv : ∀ S ∈ env.values, S.unknowns = [] := by decide
  have hinfer : ((inferTree env ⟨0, surplusExpr, 0⟩).run .initial).1 = .ok T := by decide +kernel
  exact ⟨hread, henv, hinfer,
    fun path ↦ inferAt_agrees _ hread (List.mem_singleton.2 rfl) henv hinfer path .initial⟩

end Infer

end SchemeTyping
