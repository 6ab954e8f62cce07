import SchemeTyping.Proofs.Checker.Mirror
import SchemeTyping.Proofs.Tree
import SchemeTyping.Proofs.Ty.Text
import SchemeTyping.Workspace

/-!
# Checking a tree under edit

A `Session` edits and checks one tree with a checker that is not reset.

## What is here

* `checkAt_eq_opened` — every query is answered as by a new checker, because types are cached under
  the revision of the tree and an edit makes a new revision.
* `errors_after_checkAt` — a query records all that a new checker records, over what was there
  before: diagnostics are kept without a revision, and nothing removes them.
* `stale_diagnostic` — so a diagnostic whose cause was edited away is left.
-/

set_option autoImplicit false

namespace SchemeTyping

/-! ## Edits without definitions -/

namespace Expr

/-- A child of `e.setChild i c` is `c` or a child of `e`. -/
theorem mem_children_setChild {e c q : Expr} {i : Nat} (h : q ∈ (e.setChild i c).children) :
    q = c ∨ q ∈ e.children := by
  rw [children_setChild] at h
  exact (List.mem_or_eq_of_mem_set h).symm

theorem isDefine_setChild (e c : Expr) (i : Nat) : (e.setChild i c).isDefine = e.isDefine := by
  cases e with
  | call called args => cases i <;> rfl
  | define name value => simp only [setChild]; split <;> rfl
  | letIn bindings body | letrec bindings body | lambda params body =>
    simp only [setChild]
    split <;> rfl
  | branch c t e => simp only [setChild]; split <;> rfl
  | _ => rfl

theorem defineCount_setAt {e new : Expr} (he : e.defineCount = 0) (hnew : new.defineCount = 0)
    (path : Path) : (e.setAt path new).defineCount = 0 := by
  induction path generalizing e with
  | nil => exact hnew
  | cons i path ih =>
    rw [setAt]
    cases hc : e.child? i with
    | none => exact he
    | some c =>
      rw [defineCount_eq_zero_iff, all_iff] at he ⊢
      have hmem : c ∈ e.children := by
        rw [child?] at hc
        split at hc
        · cases hc
        · exact List.mem_of_getElem? hc
      refine ⟨by rw [isDefine_setChild]; exact he.1, fun q hq ↦ ?_⟩
      rcases mem_children_setChild hq with rfl | hq
      · exact defineCount_eq_zero_iff.1 (ih (defineCount_eq_zero_iff.2 (he.2 c hmem)))
      · exact he.2 q hq

end Expr

namespace Check

open Ty

/-! ## A checker next to a new one -/

/-- The state knows of no definitions. -/
structure Bare (s : CheckerState) : Prop where
  definitions : s.definitions = ∅
  computed : s.computed = ∅
  computing : s.computing = []

theorem bare_initial : Bare .initial := ⟨rfl, rfl, rfl⟩

theorem Bare.run_typeOfDefinition {s : CheckerState} (h : Bare s) (revision : Nat → Nat)
    (depth : Nat) (name : String) :
    (typeOfDefinition revision depth name).run s = (.ok none, s) := by
  have hcomputed : s.computed.get? name = none := by rw [h.computed]; rfl
  have hcomputing : name ∉ s.computing := by rw [h.computing]; exact List.not_mem_nil
  have hdefinitions : s.definitions.get? name = none := by rw [h.definitions]; rfl
  cases depth with
  | zero => exact run_fetch_unknown hcomputed hcomputing hdefinitions
  | succ depth => exact run_fetch_unknown hcomputed hcomputing hdefinitions

theorem Bare.settle {s : CheckerState} (h : Bare s) (group : Option Nat) (name : String) (T : Ty) :
    Bare (s.settle group name T) :=
  ⟨by rw [CheckerState.settle, h.definitions]; rfl, h.computed, h.computing⟩

/-- `s` is the state of a new checker, and `t` that of one with the diagnostics `before`, which has
cached at the keys of `tree` what `s` has, and nothing for later revisions. -/
structure Alongside (tree : Tree) (before : OrdMap Place Diagnostic)
    (s t : CheckerState) : Prop where
  bare : Bare s
  bare' : Bare t
  cache : ∀ path, t.cache.get? (tree.key path) = s.cache.get? (tree.key path)
  later : ∀ revision path, tree.revision < revision →
    t.cache.get? ⟨tree.number, revision, path⟩ = none
  errors : ∀ p, t.errors.get? p = (s.errors.get? p).or (before.get? p)

variable {tree : Tree} {before : OrdMap Place Diagnostic} {revision : Nat → Nat}

theorem Alongside.record {s t : CheckerState} (h : Alongside tree before s t)
    (path : Path) (T : Ty) :
    Alongside tree before { s with cache := s.cache.insert (tree.key path) T }
      { t with cache := t.cache.insert (tree.key path) T } where
  bare := ⟨h.bare.definitions, h.bare.computed, h.bare.computing⟩
  bare' := ⟨h.bare'.definitions, h.bare'.computed, h.bare'.computing⟩
  cache path' := by rw [OrdMap.get?_insert, OrdMap.get?_insert, h.cache]
  later r path' hr := by
    have hkey : tree.key path ≠ ⟨tree.number, r, path'⟩ :=
      fun hkey ↦ Nat.ne_of_lt hr (congrArg CacheKey.revision hkey)
    rw [OrdMap.get?_insert, if_neg hkey, h.later r path' hr]
  errors := h.errors

theorem Alongside.report {s t : CheckerState} (h : Alongside tree before s t) (p : Place)
    (d : Diagnostic) : Alongside tree before { s with errors := s.errors.insert p d }
      { t with errors := t.errors.insert p d } where
  bare := ⟨h.bare.definitions, h.bare.computed, h.bare.computing⟩
  bare' := ⟨h.bare'.definitions, h.bare'.computed, h.bare'.computing⟩
  cache := h.cache
  later := h.later
  errors p' := by
    rw [OrdMap.get?_insert, OrdMap.get?_insert, h.errors]
    split <;> rfl

/-- The rules make the same steps in states that are `Alongside`. -/
theorem inStep_alongside (hrevision : revision tree.number = tree.revision) (depth : Nat) :
    InStep ⟨revision, typeOfDefinition revision depth⟩ ⟨revision, typeOfDefinition revision depth⟩
      (Clear (·.tree = tree.number)) (fun _ ↦ True) (Alongside tree before)
      (fun c c' ↦ c'.types = c.types) where
  slotted := Clear.slotted
  children hp := hp.children fun _ ↦ hp.1
  revision _ := rfl
  cached hp h := by rw [keyAt_eq hrevision hp.1, h.cache]
  record T _ _ hp h := by rw [keyAt_eq hrevision hp.1]; exact h.record _ T
  report _ _ h := h.report _ _
  typeOf _ := .of_exists fun _ _ h ↦ ⟨_, _, _, _, h.bare.run_typeOfDefinition _ _ _,
    h.bare'.run_typeOfDefinition _ _ _, rfl, h⟩
  types h := h
  fixed _ := rfl
  newGroup _ _ _ h :=
    ⟨⟨⟨h.bare.definitions, h.bare.computed, h.bare.computing⟩,
      ⟨h.bare'.definitions, h.bare'.computed, h.bare'.computing⟩, h.cache, h.later, h.errors⟩, rfl⟩
  insert _ _ _ := rfl
  settle _ _ _ _ _ h := ⟨h.bare.settle _ _ _, h.bare'.settle _ _ _, h.cache, h.later, h.errors⟩
  postpone hp := absurd rfl hp.2.not_isDefine

theorem Bare.nesting {s : CheckerState} (h : Bare s) : nesting s = 0 := by
  rw [Check.nesting, h.definitions]
  rfl

/-- `typeOfRoot` gives the same type in states that are `Alongside`. -/
theorem mirrors_typeOfRoot (hrevision : revision tree.number = tree.revision) (Γ : Env)
    (hfree : DefineFree tree.root) : Mirrors Never (Alongside tree before) Eq
      (typeOfRoot (.onDemand revision) Γ tree) (typeOfRoot (.onDemand revision) Γ tree) := by
  refine mirrors_get fun s t h ↦ ?_
  rw [h.bare.nesting, h.bare'.nesting]
  exact (inStep_alongside hrevision _).synth (fun _ _ ↦ trivial) _ _ _ _ rfl ⟨rfl, hfree⟩

/-- Without definitions, `typeAt` gives what `typeOfRoot` has cached at the path. -/
theorem run_typeAt {r : Resolver} {Γ : Env} {s s' : CheckerState} {T : Ty}
    (h : (typeOfRoot r Γ tree).run s = (.ok T, s')) (hbare : Bare s') (path : Path) :
    ∃ log, (typeAt r Γ tree path).run s =
      (.ok ((s'.cache.get? (tree.key path)).getD untyped), { s' with log := log }) := by
  have hcompute : (computeAll r).run s' = (.ok (), s') := by
    rw [computeAll, run_get_bind, hbare.definitions]
    rfl
  rw [typeAt, run_bind_ok h, run_bind_ok hcompute, run_get_bind]
  cases s'.cache.get? (tree.key path) with
  | some T => exact ⟨s'.log, rfl⟩
  | none => exact ⟨s'.log.push (.noType path), rfl⟩

end Check

/-! ## Sessions -/

namespace Workspace

open Check

/-- A new workspace with one tree, whose checker is not reset. -/
def opened (base : Env) (tree : Tree) : Workspace := { new base false with trees := [tree] }

/-- The workspaces that edits of a tree and queries in a context lead to.  An edit may succeed or
fail; the tree that it leaves is `DefineFree`. -/
inductive Session (base : Env) (context : Option Env) : Tree → Workspace → Prop
  | opened {tree : Tree} (hfree : DefineFree tree.root) :
    Session base context tree (opened base tree)
  | edit {tree tree' : Tree} {w : Workspace} {path : Path} {new : Expr}
      {result : Except PathError Unit} (hs : Session base context tree w)
      (htree : (Edit.replaceAt path new).run tree = (result, tree'))
      (hfree : DefineFree tree'.root) : Session base context tree' (w.replaceAt tree path new).2
  | query {tree : Tree} {w : Workspace} (hs : Session base context tree w) (path : Path) :
      Session base context tree (w.checkAt tree path context).2

variable {base : Env} {context : Option Env} {tree tree' : Tree} {w : Workspace} {path : Path}
  {new : Expr}

theorem replaceAt_of_ok (htree : (Edit.replaceAt path new).run tree = (.ok (), tree')) :
    w.replaceAt tree path new = (.ok (), w.afterEdit tree' path new) := by
  rw [replaceAt, edit, htree]

/-- A failed edit leaves the workspace as it was, since it leaves the tree so. -/
theorem replaceAt_of_error {error : PathError} (hw : w.trees = [tree])
    (htree : (Edit.replaceAt path new).run tree = (.error error, tree)) :
    w.replaceAt tree path new = (.error error, w) := by
  rw [replaceAt, edit, htree]
  dsimp only
  rw [putTree, hw, List.map_singleton, if_pos rfl, ← hw]

/-- The type of the root and the state after `typeOfRoot` by a new checker. -/
def freshly (base : Env) (context : Option Env) (tree : Tree) : Except Fault Ty × CheckerState :=
  (typeOfRoot (opened base tree).resolver (context.getD base) tree).run .initial

/-- The invariant of a session: the checker is `Alongside` a new one, which has not looked at the
tree or has typed its root. -/
structure Upkept (base : Env) (context : Option Env) (tree : Tree) (w : Workspace) : Prop where
  trees : w.trees = [tree]
  base_eq : w.base = base
  autoReset : w.autoReset = false
  defineFree : DefineFree tree.root
  checker : ∃ before s, Alongside tree before s w.checker ∧
    (s = .initial ∨ ∃ T, freshly base context tree = (.ok T, s))

theorem revision_opened (base : Env) (tree : Tree) :
    (opened base tree).revision tree.number = tree.revision := by
  simp [revision, opened]

theorem Upkept.resolver (h : Upkept base context tree w) :
    w.resolver = (Workspace.opened base tree).resolver := by
  refine congrArg Resolver.onDemand (funext fun number ↦ ?_)
  rw [revision, revision, h.trees]
  rfl

theorem alongside_initial (tree : Tree) : Alongside tree ∅ .initial .initial :=
  ⟨bare_initial, bare_initial, fun _ ↦ rfl, fun _ _ _ ↦ rfl, fun _ ↦ rfl⟩

theorem upkept_opened (hfree : DefineFree tree.root) :
    Upkept base context tree (opened base tree) :=
  ⟨rfl, rfl, rfl, hfree, ∅, .initial, alongside_initial tree, .inl rfl⟩

/-- The checker gives the root the type that a new one does, and stays `Alongside` it. -/
theorem Upkept.run_typeOfRoot (h : Upkept base context tree w) : ∃ T s t,
    freshly base context tree = (.ok T, s) ∧
      (typeOfRoot w.resolver (context.getD w.base) tree).run w.checker = (.ok T, t) ∧
      Alongside tree w.checker.errors s t := by
  have hrevision := revision_opened base tree
  obtain ⟨before, s, halong, rfl | ⟨T, hT⟩⟩ := h.checker
  · -- Nothing is cached for this revision: the two checkers run side by side.
    have halong : Alongside tree w.checker.errors .initial w.checker :=
      ⟨halong.bare, halong.bare', halong.cache, halong.later, fun _ ↦ rfl⟩
    obtain ⟨T, s, _, t, hs, ht, rfl, hst⟩ :=
      (mirrors_typeOfRoot hrevision (context.getD base) h.defineFree).exists_run halong
    exact ⟨T, s, t, hs, by rw [h.resolver, h.base_eq]; exact ht, hst⟩
  · -- The root was typed in this revision before.
    have hcached := halong.cache [] ▸ cached_of_run_typeOfRoot hrevision hT
    refine ⟨T, s, w.checker, hT, ?_, halong.bare, halong.bare', halong.cache, halong.later,
      fun p ↦ ?_⟩
    · rw [h.resolver]
      exact run_typeOfRoot_of_cached hrevision hcached _
    · rw [halong.errors p]
      cases s.errors.get? p <;> rfl

/-- The answer and the workspace after a query, by `freshly`. -/
theorem Upkept.checkAt (h : Upkept base context tree w) (path : Path) : ∃ T s t log,
    freshly base context tree = (.ok T, s) ∧ Alongside tree w.checker.errors s t ∧
      w.checkAt tree path context = (.ok ((s.cache.get? (tree.key path)).getD Ty.untyped),
        { w with checker := { t with log := log } }) := by
  obtain ⟨T, s, t, hs, ht, halong⟩ := h.run_typeOfRoot
  obtain ⟨log, hrun⟩ := run_typeAt ht halong.bare' path
  have hprepared : w.prepared = w := by
    rw [prepared, h.autoReset]
    rfl
  exact ⟨T, s, t, log, hs, halong, by rw [Workspace.checkAt, hprepared, check, hrun, halong.cache]⟩

theorem Upkept.query (h : Upkept base context tree w) (path : Path) :
    Upkept base context tree (w.checkAt tree path context).2 := by
  obtain ⟨T, s, t, log, hs, halong, hcheck⟩ := h.checkAt path
  rw [hcheck]
  exact ⟨h.trees, h.base_eq, h.autoReset, h.defineFree, w.checker.errors, s,
    ⟨halong.bare, ⟨halong.bare'.definitions, halong.bare'.computed, halong.bare'.computing⟩,
      halong.cache, halong.later, halong.errors⟩, .inr ⟨T, hs⟩⟩

/-- An edit that succeeds makes a new revision, for which nothing is cached.  One that fails changes
nothing. -/
theorem Upkept.edit (h : Upkept base context tree w) {result : Except PathError Unit}
    (htree : (Edit.replaceAt path new).run tree = (result, tree')) (hfree : DefineFree tree'.root) :
    Upkept base context tree' (w.replaceAt tree path new).2 := by
  rcases Edit.run_replaceAt_cases tree path new with hok | ⟨error, herror⟩
  · obtain ⟨rfl, rfl⟩ := Prod.mk.inj (hok.symm.trans htree)
    obtain ⟨before, s, halong, -⟩ := h.checker
    rw [replaceAt_of_ok hok]
    refine ⟨by simp [afterEdit, putTree, h.trees], h.base_eq, h.autoReset, hfree,
      (w.afterEdit _ path new).checker.errors, .initial, ⟨bare_initial, ?_, fun p ↦ ?_,
        fun r p hr ↦ ?_, fun _ ↦ rfl⟩, .inl rfl⟩
    · refine ⟨?_, halong.bare'.computed, halong.bare'.computing⟩
      rw [afterEdit, CheckerState.afterEdit, halong.bare'.definitions]
      rfl
    · exact halong.later _ p (Nat.lt_succ_self _)
    · exact halong.later r p (Nat.lt_of_succ_lt hr)
  · obtain ⟨-, rfl⟩ := Prod.mk.inj (herror.symm.trans htree)
    rwa [replaceAt_of_error h.trees herror]

theorem Session.upkept (h : Session base context tree w) : Upkept base context tree w := by
  induction h with
  | opened hfree => exact upkept_opened hfree
  | edit hs htree hfree ih => exact ih.edit htree hfree
  | query hs path ih => exact ih.query path

/-- A successful replacement without definitions continues a session, if names are in slots after
it. -/
theorem Session.replaceAt (hs : Session base context tree w) (hnew : new.defineCount = 0)
    (htree : (Edit.replaceAt path new).run tree = (.ok (), tree'))
    (hslotted : tree'.root.All Expr.Slotted) :
    Session base context tree' (w.replaceAt tree path new).2 := by
  refine hs.edit htree ⟨hslotted, ?_⟩
  rcases Edit.run_replaceAt_cases tree path new with hok | ⟨error, herror⟩
  · obtain ⟨-, rfl⟩ := Prod.mk.inj (hok.symm.trans htree)
    exact Expr.defineCount_setAt hs.upkept.defineFree.defineCount hnew path
  · cases herror.symm.trans htree

/-- Whatever `new` is, an edit that is rejected changes neither the tree nor the workspace. -/
theorem Session.rejected (hs : Session base context tree w) {error : PathError}
    (htree : (Edit.replaceAt path new).run tree = (.error error, tree')) :
    tree' = tree ∧ w.replaceAt tree path new = (.error error, w) := by
  rcases Edit.run_replaceAt_cases tree path new with hok | ⟨error', herror⟩
  · cases hok.symm.trans htree
  · obtain ⟨⟨⟩, rfl⟩ := Prod.mk.inj (herror.symm.trans htree)
    exact ⟨rfl, replaceAt_of_error hs.upkept.trees herror⟩

/-- After any edits and queries, a query has the answer that a new checker gives. -/
theorem checkAt_eq_opened (h : Session base context tree w) (path : Path) :
    ∃ T, (w.checkAt tree path context).1 = .ok T ∧
      ((opened base tree).checkAt tree path context).1 = .ok T := by
  obtain ⟨T, s, t, log, hs, -, hcheck⟩ := h.upkept.checkAt path
  obtain ⟨T', s', t', log', hs', -, hcheck'⟩ := (upkept_opened h.upkept.defineFree).checkAt path
  obtain ⟨-, rfl⟩ := Prod.mk.inj (hs.symm.trans hs')
  exact ⟨_, congrArg Prod.fst hcheck, congrArg Prod.fst hcheck'⟩

/-- A function of integers is called with a function that has no annotations. -/
def handingOver : Tree where
  number := 1
  root := .call (.lambda [.binding "f" (some (.function [.integer, .integer]))]
    (.call (.var "f") [.number (.exact 1)])) [.lambda [.binding "x" none] (.var "x")]
  revision := 0

/-- The same tree after the argument was edited. -/
def handingOver' : Tree where
  number := 1
  root := .call (.lambda [.binding "f" (some (.function [.integer, .integer]))]
    (.call (.var "f") [.number (.exact 1)])) [.lambda [.binding "x" none] (.string "x")]
  revision := 1

/-- The workspace in which the tree was checked, an edit was rejected, and then the argument
edited. -/
def handedOver : Workspace :=
  let checked := ((opened ∅ handingOver).checkAt handingOver [] none).2
  ((checked.replaceAt handingOver [1, 2] (.string "x")).2.replaceAt handingOver [1, 1]
    (.string "x")).2

theorem checkAt_eq_opened_handingOver : Session ∅ none handingOver' handedOver ∧
    ∃ T, (handedOver.checkAt handingOver' [1] none).1 = .ok T ∧
      ((opened ∅ handingOver').checkAt handingOver' [1] none).1 = .ok T := by
  have hfree : DefineFree handingOver.root := ⟨by decide, rfl⟩
  have hrejected : (Edit.replaceAt [1, 2] (.string "x")).run handingOver =
      (.error (.noChild 2 "Lambda"), handingOver) := rfl
  have hsession : Session ∅ none handingOver' handedOver :=
    .replaceAt (.edit (.query (.opened hfree) []) hrejected hfree) rfl rfl (by decide)
  exact ⟨hsession, checkAt_eq_opened hsession [1]⟩

/-- A query records what a new checker records, over the diagnostics that were there.  So the
diagnostics are those of a new checker if and only if it has one wherever there was one before. -/
theorem errors_after_checkAt (h : Session base context tree w) (path : Path) :
    (∀ p, (w.checkAt tree path context).2.checker.errors.get? p =
      (((opened base tree).checkAt tree path context).2.checker.errors.get? p).or
        (w.checker.errors.get? p)) ∧
    ((∀ p, (w.checkAt tree path context).2.checker.errors.get? p =
        ((opened base tree).checkAt tree path context).2.checker.errors.get? p) ↔
      ∀ p, (w.checker.errors.get? p).isSome →
        (((opened base tree).checkAt tree path context).2.checker.errors.get? p).isSome) := by
  obtain ⟨T, s, t, log, hs, halong, hcheck⟩ := h.upkept.checkAt path
  obtain ⟨T', s', t', log', hs', halong', hcheck'⟩ :=
    (upkept_opened h.upkept.defineFree).checkAt path
  obtain ⟨-, rfl⟩ := Prod.mk.inj (hs.symm.trans hs')
  have hfresh : ∀ p, t'.errors.get? p = s.errors.get? p := by
    intro p
    rw [halong'.errors]
    exact Option.or_none
  rw [hcheck, hcheck']
  have hall : ∀ p, t.errors.get? p = (t'.errors.get? p).or (w.checker.errors.get? p) := by
    intro p
    rw [hfresh, halong.errors]
  refine ⟨hall, forall_congr' fun p ↦ ?_⟩
  change t.errors.get? p = t'.errors.get? p ↔ (_ → (t'.errors.get? p).isSome)
  rw [hall]
  cases t'.errors.get? p with
  | none => cases w.checker.errors.get? p <;> simp
  | some d => simp

/-- An unbound name, and the number that it is replaced by. -/
def unboundName : Tree := ⟨1, .var "x", 0⟩

def repaired : Tree := ⟨1, .number (.exact 1), 1⟩

/-- The workspace in which the name was checked before it was replaced. -/
def repairedSession : Workspace :=
  (((opened ∅ unboundName).checkAt unboundName [] none).2.replaceAt unboundName []
    (.number (.exact 1))).2

theorem session_repaired : Session ∅ none repaired repairedSession :=
  have hfree : DefineFree unboundName.root := ⟨by decide, rfl⟩
  .replaceAt (.query (.opened hfree) []) rfl rfl (by decide)

theorem errors_after_checkAt_repaired :
    Session ∅ none repaired repairedSession ∧
    (∀ p, (repairedSession.checkAt repaired [] none).2.checker.errors.get? p =
      (((opened ∅ repaired).checkAt repaired [] none).2.checker.errors.get? p).or
        (repairedSession.checker.errors.get? p)) ∧
    ((∀ p, (repairedSession.checkAt repaired [] none).2.checker.errors.get? p =
        ((opened ∅ repaired).checkAt repaired [] none).2.checker.errors.get? p) ↔
      ∀ p, (repairedSession.checker.errors.get? p).isSome →
        (((opened ∅ repaired).checkAt repaired [] none).2.checker.errors.get? p).isSome) :=
  ⟨session_repaired, errors_after_checkAt session_repaired []⟩

/-- The diagnostic of a name that is no longer there stays, although a new checker records none. -/
theorem stale_diagnostic : Session ∅ none repaired repairedSession ∧
    (repairedSession.checkAt repaired [] none).2.checker.errors.get? ⟨1, []⟩ =
      some (.unboundVariable (.loose (.var "x"))) ∧
    ((opened ∅ repaired).checkAt repaired [] none).2.checker.errors.get? ⟨1, []⟩ = none :=
  ⟨session_repaired, by decide +kernel, by decide +kernel⟩

end Workspace

end SchemeTyping
