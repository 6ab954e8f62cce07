import SchemeTyping.Proofs.Inference.Local

/-!
# Inferred types do not depend on local names

Two trees that differ in the names they bind have the same type, or inference fails on both for the
same kind of reason (`inferTree_renamed`).  Their runs are in lockstep, so that the types of the
roots differ in the ids of unknowns only, and the names for these are given in the order in which
they occur.

There is one condition.  Generalisation keeps the unknowns that occur in the environment, and a name
that is bound again shadows the unknowns of its former type.  For definite types this makes no
difference (`anchoring`).  With `any` or the gradual type, unification may leave a solution that has
been put in twice with unknowns that are no longer the same, and then it depends on what is shadowed
whether they are generalised (`hidden_unknown_generalized`).  So renaming must not change what is
shadowed there.
-/

set_option autoImplicit false

namespace SchemeTyping

/-- Two diagnostics of the same kind. -/
def Diagnostic.SameKind (d d' : Diagnostic) : Prop := d.ctorIdx = d'.ctorIdx

theorem Failure.SameKind.diagnostic? {f g : Failure} (h : f.SameKind g) :
    Option.Rel Diagnostic.SameKind f.diagnostic? g.diagnostic? := by
  cases f <;> cases g <;> first
    | exact .some rfl
    | exact .none
    | exact absurd h (by simp [Failure.SameKind, Failure.ctorIdx])

namespace Infer

open Ty

/-! ## Names -/

/-- The second state of a naming is the first with its unknowns renamed by `ρ`. -/
structure NamingTwins (ρ : Equiv.Perm String) (st st' : NamingState) : Prop where
  wf_left : st.naming.WF
  wf_right : st'.naming.WF
  stores : Store.Twin ρ st.naming st'.naming
  names : st'.names = st.names

variable {ρ : Equiv.Perm String} {st st' : NamingState}

/-- Gives an unknown a new name. -/
def nameAnew (k : String) : Naming Ty := do
  let s ← get
  let (name, names) := s.names.fresh
  let (result, naming) := (Forest.setValue k (.var name)).run s.naming
  set (NamingState.mk naming names)
  match result with
  | .ok () => return .var name
  | .error id => throw (.missingUnknown id)

theorem matches_nameAnew (h : NamingTwins ρ st st') (k : String) :
    Matches (fun _ : Unit ↦ NamingTwins ρ) (fun _ ↦ Eq) () (nameAnew k)
      (nameAnew (ρ k)) st st' := by
  rw [Matches, nameAnew, nameAnew, run_get_bind, run_get_bind, h.names]
  rcases opRelates_setValue (ρ := ρ) k (.var st.names.fresh.1) h.wf_left h.wf_right h.stores with
    ⟨f, g, hf, hg, hwf, hwg, -, -, htwin⟩ | ⟨_, _, f, g, hf, hg⟩
  · change (Forest.setValue (ρ k) (.var st.names.fresh.1)).run st'.naming = _ at hg
    simp only [hf, hg]
    exact ⟨(), le_rfl, ⟨hwf, hwg, htwin, rfl⟩, rfl⟩
  · change (Forest.setValue (ρ k) (.var st.names.fresh.1)).run st'.naming = _ at hg
    simp only [hf, hg]
    rfl

theorem matches_nameOf (h : NamingTwins ρ st st') (k : String) :
    Matches (fun _ : Unit ↦ NamingTwins ρ) (fun _ ↦ Eq) () (nameOf k) (nameOf (ρ k)) st st' := by
  have hanew := matches_nameAnew h k
  rw [Matches] at hanew ⊢
  rw [nameOf, nameOf, run_get_bind, run_get_bind, h.stores.value k]
  cases st.naming.value? k with
  | none => exact hanew
  | some v =>
    cases v with
    | var name => exact ⟨(), le_rfl, h, rfl⟩
    | _ => exact hanew

/-- The unknowns of a type and of its renaming get the same names. -/
theorem matches_nameUnknowns (a : Ty) (h : NamingTwins ρ st st') :
    Matches (fun _ : Unit ↦ NamingTwins ρ) (fun _ ↦ Eq) () (nameUnknowns [] a)
      (nameUnknowns [] (a.mapUnknowns ρ)) st st' := by
  have hrow : ∀ (ps : List Ty) {st st' : NamingState}, (∀ p ∈ ps, ∀ {st st' : NamingState},
      NamingTwins ρ st st' →
        Matches (fun _ : Unit ↦ NamingTwins ρ) (fun _ ↦ Eq) () (nameUnknowns [] p)
        (nameUnknowns [] (p.mapUnknowns ρ)) st st') → NamingTwins ρ st st' →
      Matches (fun _ : Unit ↦ NamingTwins ρ) (fun _ ↦ Eq) () (nameUnknownsList [] ps)
        (nameUnknownsList [] (ps.map (mapUnknowns ρ))) st st' := by
    intro ps
    induction ps with
    | nil => exact fun _ h ↦ matches_pure h rfl
    | cons p ps ih' =>
      intro st st' ih h
      rw [List.forall_mem_cons] at ih
      rw [List.map_cons, nameUnknownsList, nameUnknownsList]
      refine (ih.1 h).bind ?_
      rintro _ st₁ st₁' w _ - h₁ rfl
      refine (ih' ih.2 h₁).bind ?_
      rintro _ st₂ st₂' ws _ - h₂ rfl
      exact matches_pure h₂ rfl
  induction a generalizing st st' with
  | var name => exact matches_pure h rfl
  | unknown k => exact matches_nameOf h k
  | con tag ps ih =>
    rw [mapUnknowns_con, nameUnknowns, nameUnknowns]
    refine (hrow ps (fun p hp _ _ h ↦ ih p hp h) h).bind ?_
    rintro _ st₁ st₁' ws _ - h₁ rfl
    exact matches_pure h₁ rfl
  | variadic min max ps ih =>
    rw [mapUnknowns_variadic, nameUnknowns, nameUnknowns]
    refine (hrow ps (fun p hp _ _ h ↦ ih p hp h) h).bind ?_
    rintro _ st₁ st₁' ws _ - h₁ rfl
    exact matches_pure h₁ rfl
  | all bound body ih =>
    change Matches _ _ _ (nameUnknowns [] (all bound body))
      (nameUnknowns [] (all bound (body.mapUnknowns ρ))) _ _
    rw [nameUnknowns, nameUnknowns]
    refine (ih h).bind ?_
    rintro _ st₁ st₁' w _ - h₁ rfl
    exact matches_pure h₁ rfl

/-! ## Names to avoid -/

variable {D keep P : Prop} {w : Lockstep} {s t : InferenceState} {a b : Ty} {env : Env}

theorem freeVars_of_live (ha : a.Built (Node.Live D)) : a.freeVars = [] := by
  induction a with
  | var name => exact absurd rfl (built_var.1 ha).1
  | unknown => rfl
  | con tag ps ih =>
    rw [freeVars_con]
    exact List.flatMap_eq_nil_iff.2 fun p hp ↦ ih p hp ((built_con.1 ha).2 p hp)
  | variadic min max ps ih =>
    rw [freeVars_variadic]
    exact List.flatMap_eq_nil_iff.2 fun p hp ↦ ih p hp ((built_variadic.1 ha).2 p hp)
  | all bound body => exact absurd rfl (built_all.1 ha).1.2.1

/-- Every value of a store belongs to an unknown. -/
theorem exists_value?_of_mem_values {store : Store} (hnodup : store.index.keys.Nodup) {v : Ty}
    (hv : v ∈ store.values) : ∃ k, store.value? k = some v := by
  obtain ⟨i, hi, hcell⟩ := List.mem_filterMap.1 hv
  obtain ⟨⟨k, i⟩, hk, rfl⟩ := List.mem_map.1 hi
  obtain ⟨c, hc, hroot⟩ := Option.bind_eq_some_iff.1 hcell
  split at hroot
  · rename_i hparent
    cases hroot
    have hself : store.root i = i := by
      have hnone : Forest.parent? store.cells i = none := by
        rw [Forest.parent?, hc]
        exact Option.isNone_iff_eq_none.1 hparent
      rw [Forest.root]
      cases store.cells.size with
      | zero => rfl
      | succ n => rw [Forest.climb, hnone]
    refine ⟨k, ?_⟩
    rw [Forest.value?, OrdMap.get?_of_mem_entries hnodup hk, Option.bind_some, hself, hc]
    rfl
  · cases hroot

theorem freeVars_values (hs : Orderly D s) (hnumbered : Numbered s) :
    s.store.values.flatMap freeVars = [] := by
  refine List.flatMap_eq_nil_iff.2 fun v hv ↦ ?_
  obtain ⟨k, hk⟩ := exists_value?_of_mem_values hnumbered.nodup hv
  exact freeVars_of_live (hs.solutions k v hk).built

/-- If the environment has no unknowns, the names to avoid are those of the environment. -/
theorem generalizeWith_eq (hs : Orderly D s) (hnumbered : Numbered s) (ha : Live D s.store a)
    (henv : ∀ S ∈ env.values, S.unknowns = []) :
    generalizeWith s.store env a =
      ((nameUnknowns [] (s.store.apply a)).run ⟨s.store, .avoiding env.freeVars⟩).map id
        (·.naming) := by
  have hself : env.mapValues s.store.apply = env := by
    obtain ⟨es⟩ := env
    have hsame : ∀ e ∈ es, (e.1, s.store.apply e.2) = id e := fun e he ↦ by
      have hnil := henv e.2 (List.mem_map_of_mem he)
      rw [Store.apply_eq_fill, fill_congr (g := Ty.unknown) (by simp [hnil]), fill_self, id]
    exact congrArg OrdMap.mk ((List.map_congr_left hsame).trans (List.map_id es))
  have hfixed : env.values.flatMap unknowns = [] := List.flatMap_eq_nil_iff.2 henv
  rw [generalizeWith, if_pos (by simp [hs.acyclic.settles]), hself]
  simp only [hfixed, freeVars_of_live ha.built, freeVars_values hs hnumbered, List.append_nil]
  rfl

/-- Generalising the types of two runs gives the same type. -/
theorem matches_generalize_eq (hst : w.States D s t) (hab : (lockstep D).types w a b)
    (henv : ∀ S ∈ env.values, S.unknowns = []) :
    Matches (fun (_ : Unit) _ _ ↦ True) (fun _ r r' ↦ r.1 = r'.1) () (generalize env a)
      (generalize env b)
      s t := by
  obtain ⟨rfl, ha, hb⟩ := hab
  rw [← hst.left] at ha
  rw [← hst.right] at hb
  have hstart :
      NamingTwins w.ids ⟨s.store, .avoiding env.freeVars⟩ ⟨t.store, .avoiding env.freeVars⟩ :=
    ⟨hst.twins.wf_left, hst.twins.wf_right, hst.twins.stores, rfl⟩
  have hnames := matches_nameUnknowns (s.store.apply a) hstart
  rw [← hst.twins.stores.apply] at hnames
  rw [Matches] at hnames ⊢
  rw [generalize, generalize, run_get_bind, run_get_bind, generalizeNamed, generalizeNamed,
    generalizeWith_eq hst.orderly_left hst.twins.numbered_left ha henv,
    generalizeWith_eq hst.orderly_right hst.twins.numbered_right hb henv]
  revert hnames
  rcases (nameUnknowns [] (s.store.apply a)).run ⟨s.store, .avoiding env.freeVars⟩
    with ⟨f | G, st⟩ <;>
    rcases (nameUnknowns [] (t.store.apply (a.mapUnknowns w.ids))).run
      ⟨t.store, .avoiding env.freeVars⟩ with ⟨g | G', st'⟩
  · exact id
  · exact id
  · exact id
  · rintro ⟨_, -, -, hG⟩
    exact ⟨(), le_rfl, trivial, hG⟩

/-! ## Whole trees -/

/-- The rest of an inference after the root has a type. -/
def finish (env : Env) (type : Ty) : Infer Ty := do
  let (generalized, _) ← generalize env type
  ensureSolved generalized
  tell (.inferred generalized)
  return generalized

/-- The state in which the root of a tree is visited. -/
def startOn (s : InferenceState) (tree : Tree) : InferenceState :=
  { s.reset with log := s.log.push (.inferring tree.root) }

theorem run_inferTree (env : Env) (tree : Tree) (s : InferenceState) :
    (inferTree env tree).run s =
      (visit env tree.site tree.root >>= finish env).run (startOn s tree) := rfl

theorem matches_finish (hst : w.States D s t) (hab : (lockstep D).types w a b)
    (henv : ∀ S ∈ env.values, S.unknowns = []) :
    Matches (fun (_ : Unit) _ _ ↦ True) (fun _ ↦ Eq) () (finish env a) (finish env b) s t := by
  refine (matches_generalize_eq hst hab henv).bind ?_
  rintro _ s₁ t₁ ⟨G, _⟩ ⟨_, _⟩ - - rfl
  dsimp only
  rw [ensureSolved]
  split
  · exact ⟨(), le_rfl, trivial, rfl⟩
  · rfl

/-- The initial states of two runs are related in lockstep. -/
theorem states_startOn (D : Prop) (s t : InferenceState) (tree tree' : Tree) :
    Lockstep.States D ⟨1, InferenceState.initial.store, InferenceState.initial.store⟩
      (startOn s tree)
      (startOn t tree') :=
  have hnumbered : ∀ (s : InferenceState) (tree : Tree), Numbered (startOn s tree) := fun _ _ ↦
    ⟨fun _ hk ↦ (Bool.false_ne_true hk).elim, List.nodup_nil⟩
  ⟨orderly_reset D s _, orderly_reset D t _, rfl, rfl, wf_initial, wf_initial, .refl _, rfl,
    hnumbered s tree, hnumbered t tree'⟩

/-- An environment without unknowns agrees with itself on every name. -/
theorem environments_outside (h : (lockstep D).Parallel D keep P)
    (henv : ∀ S ∈ env.values, S.unknowns = []) (hknown : KnownEnv D w.left env)
    (hknown' : KnownEnv D w.right env) : (lockstep D).Environments D keep w .outside env env := by
  refine ⟨⟨?_, fun _ x S hx hne ↦ absurd (henv S (OrdMap.mem_values_of_get? hx)) hne,
    fun _ x S hx hne ↦ absurd (henv S (OrdMap.mem_values_of_get? hx)) hne⟩, hknown, hknown',
    apparent_of_unknowns henv, apparent_of_unknowns henv⟩
  rintro x _ rfl
  cases hx : env.get? x with
  | none => exact .none
  | some S =>
    have hS := OrdMap.mem_values_of_get? hx
    exact .some (h.declared (henv S hS) (hknown S hS))

theorem matches_inferTree (h : (lockstep D).Parallel D keep P) (hA : P → Anchoring D)
    {tree tree' : Tree} (henv : ∀ S ∈ env.values, S.unknowns = [])
    (hknown : KnownEnv D InferenceState.initial.store env)
    (hrenamed : Renamed keep .outside tree.root tree'.root) (hroot : tree.root.All (Legible D))
    (hroot' : tree'.root.All (Legible D)) (s s' : InferenceState) :
    Matches (fun (_ : Unit) _ _ ↦ True) (fun _ ↦ Eq) () (inferTree env tree)
      (inferTree env tree') s s' := by
  have hvisit :=
    comparable h hA tree.root Scope.unambiguous_outside hrenamed hroot hroot' tree.site tree'.site
    (states_startOn D s s' tree tree') (environments_outside h henv hknown hknown)
  rw [Matches, run_inferTree, run_inferTree]
  exact hvisit.andThen fun w₁ s₁ t₁ a b _ hst hab ↦ matches_finish hst hab henv

/-- Both inferences find the same type, or both fail and leave diagnostics of the same kind. -/
inductive SameOutcome :
    Except Failure Ty × InferenceState → Except Failure Ty × InferenceState → Prop
  | found (T : Ty) (s t : InferenceState) : SameOutcome (.ok T, s) (.ok T, t)
  | failed {f g : Failure} {s t : InferenceState} (hkind : f.SameKind g)
    (hslot : Option.Rel Diagnostic.SameKind s.error t.error) :
    SameOutcome (.error f, s) (.error g, t)

/-- **Renaming local names does not change inferred types.**  Trees that were read and differ in the
names they bind have the same type under every environment without unknowns, or inference fails on
both with diagnostics of the same kind.  If a type of the environment or a declared one has a node
that is not `Node.Definite`, then renaming must not change which binders are shadowed. -/
theorem inferTree_renamed {source source' : String} {es es' : List Expr} (tree tree' : Tree)
    (hread : Expr.readAll source = .ok es) (htree : tree.root ∈ es)
    (hread' : Expr.readAll source' = .ok es') (htree' : tree'.root ∈ es')
    (henv : ∀ S ∈ env.values, S.unknowns = [])
    (hrenamed : Renamed False .outside tree.root tree'.root)
    (hhidden : Renamed True .outside tree.root tree'.root ∨
      (∀ S ∈ env.values, S.Built Node.Definite) ∧ tree.root.All Expr.DeclaresDefinite)
        (s s' : InferenceState) :
    SameOutcome ((inferTree env tree).run s) ((inferTree env tree').run s') := by
  have hformed := Expr.formed_of_readAll hread htree
  have hformed' := Expr.formed_of_readAll hread' htree'
  have hregistered : ∀ S ∈ env.values, InferenceState.initial.store.Registered S :=
    fun S hS id hid ↦
    absurd (henv S hS ▸ hid) List.not_mem_nil
  have hmatches : Matches (fun (_ : Unit) _ _ ↦ True) (fun _ ↦ Eq) () (inferTree env tree)
      (inferTree env tree') s s' := by
    rcases hhidden with hkept | ⟨hdefinite, hroot⟩
    · have h : (lockstep False).Parallel False True False := lockstep_parallel (.inl trivial)
      exact matches_inferTree h False.elim henv
        (fun S hS ↦ ⟨fun _ _ ↦ False.elim, hregistered S hS⟩) hkept
        (fun q hq ↦ ⟨hformed q hq, False.elim⟩) (fun q hq ↦ ⟨hformed' q hq, False.elim⟩) s s'
    · have h : (lockstep True).Parallel True False True := lockstep_parallel (.inr trivial)
      have hroot' : tree'.root.All Expr.DeclaresDefinite := by
        refine hrenamed.all (fun hc hp ↦ ?_) hroot
        cases hc with
        | binding _ declared => cases declared <;> exact hp
        | _ => trivial
      exact matches_inferTree h (fun _ ↦ anchoring trivial) henv
        (fun S hS ↦ ⟨fun n hn _ ↦ hdefinite S hS n hn, hregistered S hS⟩) hrenamed
        (fun q hq ↦ ⟨hformed q hq, fun _ ↦ hroot q hq⟩)
          (fun q hq ↦ ⟨hformed' q hq, fun _ ↦ hroot' q hq⟩) s s'
  have hslot := ensures_inferTree_slot env tree s
  have hslot' := ensures_inferTree_slot env tree' s'
  rw [Matches] at hmatches
  rw [Ensures] at hslot hslot'
  revert hmatches hslot hslot'
  rcases (inferTree env tree).run s with ⟨f | T, s₁⟩ <;>
    rcases (inferTree env tree').run s' with ⟨g | T', s₁'⟩
  · intro hkind hslot hslot'
    exact .failed hkind (by rw [hslot, hslot']; exact hkind.diagnostic?)
  · exact fun h ↦ h.elim
  · exact fun h ↦ h.elim
  · rintro ⟨_, -, -, rfl⟩ - -
    exact .found T s₁ s₁'

/-- Nested binders, each of which may shadow the one before. -/
def pairingExpr (outer inner f : String) : Expr :=
  .lambda [.binding outer none] (.lambda [.binding inner none]
    (.letIn [(.binding f none,
      .lambda [.binding "y" none] (.call (.var "pair") [.var inner, .var "y"]))]
      (.call (.var f) [.call (.var f) [.number (.exact 1)]])))

/-- One name for three nested binders, or three names. -/
theorem inferTree_renamed_pairing :
    let env : Env :=
      .ofList [("pair", function [.var "a", .var "b", .con "Pair" [.var "a", .var "b"]])]
    let T :=
      function [.var "c",
        function [.var "d", .con "Pair" [.var "d", .con "Pair" [.var "d", integer]]]]
    Expr.readAll "(lambda (x) (lambda (x) (let ((x (lambda (y) (pair x y)))) (x (x 1)))))"
      = .ok [pairingExpr "x" "x" "x"] ∧
    Expr.readAll "(lambda (u) (lambda (v) (let ((f (lambda (y) (pair v y)))) (f (f 1)))))"
      = .ok [pairingExpr "u" "v" "f"] ∧
    (∀ S ∈ env.values, S.unknowns = []) ∧
    Renamed False .outside (pairingExpr "x" "x" "x") (pairingExpr "u" "v" "f") ∧
    ((∀ S ∈ env.values, S.Built Node.Definite) ∧
      (pairingExpr "x" "x" "x").All Expr.DeclaresDefinite) ∧
    ((inferTree env ⟨0, pairingExpr "x" "x" "x", 0⟩).run .initial).1 = .ok T ∧
    SameOutcome ((inferTree env ⟨0, pairingExpr "x" "x" "x", 0⟩).run .initial)
      ((inferTree env ⟨0, pairingExpr "u" "v" "f", 0⟩).run .initial) := by
  intro env T
  have hread :
    Expr.readAll "(lambda (x) (lambda (x) (let ((x (lambda (y) (pair x y)))) (x (x 1)))))"
      = .ok [pairingExpr "x" "x" "x"] := by decide +kernel
  have hread' :
    Expr.readAll "(lambda (u) (lambda (v) (let ((f (lambda (y) (pair v y)))) (f (f 1)))))"
      = .ok [pairingExpr "u" "v" "f"] := by decide +kernel
  have henv : ∀ S ∈ env.values, S.unknowns = [] := by decide
  have hrenamed : Renamed False .outside (pairingExpr "x" "x" "x") (pairingExpr "u" "v" "f") := by
    refine .lambda False.elim (.cons (.binding ?_ _) .nil)
      (.lambda False.elim (.cons (.binding ?_ _) .nil)
      (.letIn False.elim (.cons (.binding ?_ _) .nil)
        (.cons (.lambda False.elim (.cons (.binding ?_ _) .nil)
          (.call (.var ?_) (.cons (.var ?_) (.cons (.var ?_) .nil)))) .nil)
        (.call (.var ?_) (.cons (.call (.var ?_) (.cons (.number _) .nil)) .nil))))
    all_goals simp [Scope.enter, Scope.bindAll, Scope.bind, Scope.under, Scope.outside, slotPairs,
      Expr.name?]
  have hdefinite : (∀ S ∈ env.values, S.Built Node.Definite) ∧
      (pairingExpr "x" "x" "x").All Expr.DeclaresDefinite := by
    decide +kernel
  have hinfer : ((inferTree env ⟨0, pairingExpr "x" "x" "x", 0⟩).run .initial).1 = .ok T := by
    decide +kernel
  have hsame :=
    inferTree_renamed ⟨0, pairingExpr "x" "x" "x", 0⟩ ⟨0, pairingExpr "u" "v" "f", 0⟩ hread
    (List.mem_singleton.2 rfl) hread' (List.mem_singleton.2 rfl) henv hrenamed
      (.inr hdefinite) .initial .initial
  exact ⟨hread, hread', henv, hrenamed, hdefinite, hinfer, hsame⟩

/-- The type of `x` is built from that of `z`, and both are unified with other types below a
parameter that may shadow `z`. -/
def hidingExpr (param : String) : Expr :=
  .lambda [.binding "z" none] (.lambda [.binding "x" none] (.sequence
    [.branch (.bool true) (.var "x") (.call (.var "p") [.var "z"]),
      .branch (.bool true) (.var "z") (.var "q"),
      .lambda [.binding param none] (.letrec
        [(.binding "h" none, .var "x"),
          (.binding "k" none, .branch (.bool true) (.var "x") (.var "y")),
          (.binding "l" none, .branch (.bool true) (.var "h") (.var "m"))]
        (.var "h"))]))

/-- An unknown in the type of `h` is generalised if the parameter shadows `z`, and not otherwise.
Unifying `x` with `y` puts a copy of the type of `z` into that of `x`, and the later solution for
`z` is missing there.  So the unknown occurs in the type of `z` only. -/
theorem hidden_unknown_generalized :
    let pair (a b : Ty) : Ty := .con "T" [a, b]
    let env : Env := .ofList [("p", function [.var "a", .con "P" [.var "a"]]), ("q", pair any any),
      ("y", .con "P" [pair integer any]), ("m", .con "P" [pair any (.con "W" [.var "r"])])]
    let T (last : String) := function [pair integer (.con "W" [.var "b"]),
      function [.con "P" [pair integer any],
        function [.var "c", .con "P" [pair integer (.con "W" [.var last])]]]]
    Renamed False .outside (hidingExpr "z") (hidingExpr "w") ∧
      ((inferTree env ⟨0, hidingExpr "z", 0⟩).run .initial).1 = .ok (T "d") ∧
      ((inferTree env ⟨0, hidingExpr "w", 0⟩).run .initial).1 = .ok (T "b") := by
  refine ⟨?_, by decide +kernel, by decide +kernel⟩
  refine .lambda False.elim (.cons (.binding ?_ _) .nil)
    (.lambda False.elim (.cons (.binding ?_ _) .nil)
    (.sequence (.cons (.branch (.bool _) (.var ?_) (.call (.var ?_) (.cons (.var ?_) .nil)))
      (.cons (.branch (.bool _) (.var ?_) (.var ?_))
        (.cons (.lambda False.elim (.cons (.binding ?_ _) .nil)
        (.letrec False.elim
          (.cons (.binding ?_ _) (.cons (.binding ?_ _) (.cons (.binding ?_ _) .nil)))
          (.cons (.var ?_) (.cons (.branch (.bool _) (.var ?_) (.var ?_))
            (.cons (.branch (.bool _) (.var ?_) (.var ?_)) .nil)))
          (.var ?_))) .nil)))))
  all_goals simp [Scope.enter, Scope.bindAll, Scope.bind, Scope.under, Scope.outside, slotPairs,
    Expr.name?]

end Infer

end SchemeTyping
