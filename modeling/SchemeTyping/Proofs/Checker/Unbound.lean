import SchemeTyping.Proofs.Checker.Layers
import SchemeTyping.Proofs.Checker.Waiting

/-!
# Unbound names and definitions

A name is reported as unbound only if no definition of it waits when it is asked for.  So once a
definition has been added, its name is not reported any more, whatever is requested
(`keeps_requests`).

Adding definitions does not type their values, except in one case: a definition of a hole has no
name to wait under, and its value is typed at once.  A name in it that is defined later is reported
(`hole_reports_later_name`), and so are those in the definitions that it needs.  There is no other
way (`unbound_before_definition`).
-/

set_option autoImplicit false

namespace SchemeTyping.Check

open Ty

/-! ## An invariant of reports -/

/-- The place is in a tree with `N`, and the names that the expression binds are in slots. -/
def Within (N : Nat → Prop) (p : Place) (e : Expr) : Prop := N p.tree ∧ e.All Expr.Slotted

/-- Waiting definitions and cached types are in trees with `N`.  Definitions of the names with `W`
wait, and `R` holds of the reports that one of these names is unbound. -/
structure Resolves (N : Nat → Prop) (W : String → Prop) (R : Place → Diagnostic → Prop)
    (s : CheckerState) : Prop where
  waits : ∀ name d, s.definitions.get? name = some d → Within N d.place d.node.expr
  cached : ∀ key, (s.cache.get? key).isSome → N key.tree
  known : ∀ name, W name → (s.definitions.get? name).isSome
  unbound : ∀ p d name, s.errors.get? p = some d → d.unbound? = some name → W name → R p d

section

variable {N : Nat → Prop} {W : String → Prop} {R : Place → Diagnostic → Prop} {revision : Nat → Nat}
  {s s' : CheckerState} {name : String} {trees : List Tree} {tree : Tree}

theorem resolves_reset (s : CheckerState) : Resolves N (fun _ ↦ False) R s.reset :=
  ⟨nofun, nofun, fun _ ↦ False.elim, nofun⟩

theorem Resolves.report (h : Resolves N W R s) (p : Place) {d : Diagnostic}
    (hd : ∀ name, d.unbound? = some name → ¬ W name) :
    Resolves N W R { s with errors := s.errors.insert p d } := by
  refine ⟨h.waits, h.cached, h.known, fun p' d' name hp' hname hW ↦ ?_⟩
  rw [OrdMap.get?_insert] at hp'
  split at hp'
  · cases hp'
    exact absurd hW (hd name hname)
  · exact h.unbound p' d' name hp' hname hW

/-- If `typeOfDefinition` finds no type for a name, no definition of the name waits. -/
theorem definitions_of_unknown {depth : Nat}
    (h : (typeOfDefinition revision depth name).run s = (.ok none, s')) :
    s'.definitions.get? name = none := by
  have hfetch (step : Pending → Check Ty) : Ensures (fetch name step) s
      (fun T s' ↦ T = none → s'.definitions.get? name = none) fun _ _ ↦ True :=
    ensures_fetch (fun _ _ ↦ nofun) (fun _ ↦ nofun) (fun hd _ ↦ hd) fun d _ _ _ ↦
      (ensures_true (step d) s).mono (fun _ _ _ ↦ nofun) fun _ _ ↦ id
  cases depth with
  | zero => exact (ensures_ok h).1 (hfetch _) rfl
  | succ depth => exact (ensures_ok h).1 (hfetch _) rfl

/-- `Resolves` is `Stable`: a name with `W` is found. -/
theorem stable_resolves {depth : Nat}
    (hfind : ∀ name, Keeps (Resolves N W R) (typeOfDefinition revision depth name)) :
    Stable ⟨revision, typeOfDefinition revision depth⟩ (Within N) (Resolves N W R) where
  slotted h := (Expr.all_iff.1 h.2).1
  children h := row_of_forall fun c hc _ ↦ ⟨h.1, (Expr.all_iff.1 h.2).2 c hc⟩
  record := by
    refine fun T s hp h ↦ ⟨h.waits, fun key hkey ↦ ?_, h.known, h.unbound⟩
    rw [OrdMap.get?_insert] at hkey
    split at hkey
    · rename_i heq
      exact heq ▸ hp.1
    · exact h.cached key hkey
  report := by
    refine fun p d s hd h ↦ h.report p fun name hname hW ↦ ?_
    obtain ⟨s₀, hrun⟩ := hd name hname
    have hknown := h.known name hW
    rw [definitions_of_unknown hrun] at hknown
    cases hknown
  typeOf := hfind
  newGroup h := ⟨h.waits, h.cached, h.known, h.unbound⟩
  settle := by
    refine fun group name T s h ↦
      ⟨forall_get?_settle h.waits fun _ _ _ ↦ id, h.cached, fun name' hW ↦ ?_, h.unbound⟩
    rw [CheckerState.settle, OrdMap.get?_mapValues, Option.isSome_map]
    exact h.known name' hW
  postpone := by
    exact fun c s hp h ↦ ⟨OrdMap.forall_get?_insert h.waits hp, h.cached, fun name' hW ↦
      isSome_get?_insert (h.known name' hW), h.unbound⟩

theorem keeps_typeOfDefinition (revision : Nat → Nat) (depth : Nat) (name : String) :
    Keeps (Resolves N W R) (typeOfDefinition revision depth name) := by
  have hfetch {name : String} (step : Pending → Check Ty) (hstep : ∀ s d, Resolves N W R s →
      s.definitions.get? name = some d →
      Ensures (step d) s (fun _ s' ↦ Resolves N W R s') fun _ _ ↦ False) :
      Keeps (Resolves N W R) (fetch name step) :=
    keeps_iff.2 fun s hs ↦ ensures_fetch (fun _ _ ↦ hs)
      (fun _ ↦ ⟨hs.waits, hs.cached, hs.known, hs.unbound⟩) (fun _ ↦ hs)
        fun d _ _ hd ↦ hstep s d hs hd
  induction depth generalizing name with
  | zero => exact hfetch _ fun s d hs _ ↦ hs
  | succ depth ih =>
    refine hfetch _ fun s d hs hd ↦ ensures_marked ?_
    have hstable := stable_resolves ih
    have hcompute :
        Keeps (Resolves N W R) (compute ⟨revision, typeOfDefinition revision depth⟩ d) := by
      refine hstable.inStep.compute rfl fun slot value hexpr ↦ ?_
      have hwithin := hexpr ▸ hs.waits name d hd
      exact ⟨hstable.slotted hwithin, fun _ _ ↦ trivial, hstable.children hwithin⟩
    have hmarked : Resolves N W R { s with computing := name :: s.computing } :=
      ⟨hs.waits, hs.cached, hs.known, hs.unbound⟩
    refine (keeps_iff.1 hcompute _ hmarked).mono ?_ fun _ _ ↦ id
    exact fun T s' hs' ↦ ⟨hs'.waits, hs'.cached, hs'.known, hs'.unbound⟩

/-- Requests about trees with `N` preserve `Resolves`. -/
theorem serves_resolves (revision : Nat → Nat) :
    Serves (.onDemand revision) (.onDemand revision)
      (fun tree ↦ N tree.number ∧ tree.root.All Expr.Slotted) (Twice (Resolves N W R)) where
  slotted h := (Expr.all_iff.1 h.2).1
  definitions h := by rw [h.1]
  cached h := by rw [h.1]
  report := by
    rintro p id s _ ⟨rfl, hs⟩
    exact ⟨rfl, hs.report p nofun⟩
  tell := by
    rintro path s _ ⟨rfl, hs⟩
    exact ⟨rfl, hs.waits, hs.cached, hs.known, hs.unbound⟩
  typeOfRoot Γ tree h := by
    refine mirrors_get ?_
    rintro s _ ⟨rfl, -⟩
    exact (stable_resolves (keeps_typeOfDefinition revision _)).synth _ _ _ h
  definitionType name := by
    refine mirrors_get ?_
    rintro s _ ⟨rfl, -⟩
    exact keeps_typeOfDefinition revision _ name

theorem keeps_addDefines (revision : Nat → Nat) (base : Env)
    (htrees : ∀ tree ∈ trees, N tree.number ∧ tree.root.All Expr.Slotted) :
    Keeps (Resolves N W R) (addDefines (.onDemand revision) base trees) :=
  (serves_resolves revision).addDefines base htrees

theorem keeps_requests (revision : Nat → Nat) (base : Env) {requests : List Request}
    (h : ∀ r ∈ requests, ∀ tree ∈ r.trees, N tree.number ∧ tree.root.All Expr.Slotted) :
    Keeps (Resolves N W R) (requests.mapM (Request.perform (.onDemand revision) base)) :=
  (serves_resolves revision).requests base h

/-! ## Definitions with names -/

/-- No name is reported as unbound in `s'` that is not in `s`. -/
def NoneUnbound (s s' : CheckerState) : Prop :=
  ∀ p d name, s'.errors.get? p = some d → d.unbound? = some name → s.errors.get? p = some d

/-- `addDefine` only adds a definition with a name.  Nothing is typed, so no name is reported. -/
theorem ensures_addDefine_named (revision : Nat → Nat) (base : Env) {declared : Option Ty}
    {value : Expr} (hroot : tree.root = .define (.binding name declared) value) (s : CheckerState) :
    Ensures (addDefine (.onDemand revision) base tree) s (fun _ s' ↦ NoneUnbound s s' ∧
      (s.cache.get? ⟨tree.number, revision tree.number, []⟩ = none →
        (s'.definitions.get? name).isSome)) fun _ _ ↦ False := by
  have htype (s₁ : CheckerState) (hcache : s₁.cache = s.cache) (herrors : NoneUnbound s s₁) :
      Ensures (do let _ ← typeOfRoot (.onDemand revision) base tree) s₁
        (fun _ s' ↦ NoneUnbound s s' ∧
        (s.cache.get? ⟨tree.number, revision tree.number, []⟩ = none →
          (s'.definitions.get? name).isSome)) fun _ _ ↦ False := by
    rw [ensures_bind, Ensures, run_typeOfRoot, ← Ensures, hroot, ← hcache]
    cases hget : s₁.cache.get? ⟨tree.number, revision tree.number, []⟩ with
    | some T => exact (ensures_ok (run_synth_of_cached hget)).2 ⟨herrors, by simp⟩
    | none =>
      refine (ensures_ok (run_synth_define hget)).2 ⟨herrors, fun _ ↦ ?_⟩
      rw [OrdMap.get?_insert_self]
      rfl
  rw [addDefine, hroot]
  dsimp only
  rw [show identifier (.binding name declared) = pure name from rfl, pure_bind, ensures_bind,
    ensures_get]
  split
  · rw [ensures_bind]
    refine htype _ rfl fun p d name' hp hname ↦ ?_
    rw [OrdMap.get?_insert] at hp
    split at hp
    · cases hp
      cases hname
    · exact hp
  · exact htype s rfl fun _ _ _ hp _ ↦ hp

theorem ensures_addDefines_named (revision : Nat → Nat) (base : Env)
    (htrees : ∀ tree ∈ trees, tree.root.Slotted ∧ ∀ value, tree.root ≠ .define .hole value)
    (s : CheckerState) :
    Ensures (addDefines (.onDemand revision) base trees) s (fun _ s' ↦ NoneUnbound s s')
      fun _ _ ↦ False := by
  induction trees generalizing s with
  | nil => exact fun _ _ _ hp _ ↦ hp
  | cons tree trees ih =>
    rw [List.forall_mem_cons] at htrees
    rw [addDefines]
    split
    · rename_i hdefine
      obtain ⟨slot, value, hroot⟩ := Expr.exists_define hdefine
      obtain ⟨hslot, hhole⟩ := htrees.1
      rw [hroot] at hslot hhole
      cases slot with
      | hole => exact absurd rfl (hhole value)
      | binding name declared =>
        rw [ensures_bind]
        refine (ensures_addDefine_named revision base hroot s).mono (fun _ s₁ h₁ ↦ ?_) fun _ _ ↦ id
        exact (ih htrees.2 s₁).mono (fun _ s₂ h₂ p d name hp hname ↦ h₁.1 p d name
          (h₂ p d name hp hname) hname) fun _ _ ↦ id
      | _ => cases hslot
    · exact ih htrees.2 s

theorem addDefines_append (r : Resolver) (base : Env) (trees trees' : List Tree) :
    addDefines r base (trees ++ trees') = (do
      addDefines r base trees
      addDefines r base trees') := by
  induction trees with
  | nil => rfl
  | cons tree trees ih =>
    rw [List.cons_append, addDefines, addDefines, ih]
    split
    · rw [bind_assoc]
    · rfl

/-! ## The first definition of a name -/

/-- The trees before the first definition of `name`. -/
def undefinedYet (name : String) (trees : List Tree) : List Tree :=
  trees.takeWhile (·.root.defines? != some name)

theorem exists_eq_append_of_defines (ht : tree ∈ trees) (hname : tree.root.defines? = some name) :
    ∃ first after, trees = undefinedYet name trees ++ first :: after ∧
      first.root.defines? = some name := by
  rcases hdrop : trees.dropWhile (·.root.defines? != some name) with _ | ⟨first, after⟩
  · exact absurd hname (by simpa using List.dropWhile_eq_nil_iff.1 hdrop tree ht)
  · refine ⟨first, after, ?_, ?_⟩
    · rw [← hdrop, undefinedYet, List.takeWhile_append_dropWhile]
    · have hfirst := List.head_dropWhile_not (p := (·.root.defines? != some name)) (l := trees)
        (by simp [hdrop])
      simpa [hdrop] using hfirst

/-- After `addDefine`, a definition in a tree of which nothing is cached waits. -/
theorem Resolves.addDefine (hs : Resolves N (fun _ ↦ False) (fun _ _ ↦ True) s)
    (revision : Nat → Nat) (base : Env) (hfresh : ¬ N tree.number)
    (hslotted : tree.root.All Expr.Slotted) {declared : Option Ty} {value : Expr}
    (hroot : tree.root = .define (.binding name declared) value) :
    Ensures (addDefine (.onDemand revision) base tree) s
      (fun _ s' ↦ Resolves (fun _ ↦ True) (· = name)
      (fun p d ↦ s.errors.get? p = some d) s') fun _ _ ↦ False := by
  have huncached : s.cache.get? ⟨tree.number, revision tree.number, []⟩ = none := by
    by_contra hsome
    exact hfresh (hs.cached _ (Option.isSome_iff_ne_none.2 hsome))
  have hserves :=
    serves_resolves (N := fun _ ↦ True) (W := fun _ ↦ False) (R := fun _ _ ↦ True) revision
  have hkept := keeps_iff.1 (hserves.addDefine base ⟨trivial, hslotted⟩ (by rw [hroot]; rfl)) s
    ⟨fun n d hd ↦ ⟨trivial, (hs.waits n d hd).2⟩, fun _ _ ↦ trivial, hs.known, hs.unbound⟩
  refine (hkept.and (ensures_addDefine_named revision base hroot s)).mono ?_ fun _ _ ↦ And.left
  rintro _ s' ⟨hs', hnone, hdefined⟩
  exact ⟨hs'.waits, hs'.cached, fun n hn ↦ hn ▸ hdefined huncached,
    fun p d n hp hn _ ↦ hnone p d n hp hn⟩

/-- Once the first definition of a name is added, the name is not reported any more. -/
theorem resolves_of_run (hslotted : ∀ tree ∈ trees, tree.root.All Expr.Slotted)
    (hnumbers : ∀ tree ∈ trees, ∀ tree' ∈ trees, tree.number = tree'.number → tree = tree')
    (revision : Nat → Nat) (base : Env) {requests : List Request}
    (hrequests : ∀ r ∈ requests, r.trees ⊆ trees) (ht : tree ∈ trees)
    (hname : tree.root.defines? = some name) {answers : List (Option Ty)}
    (hrun : ((.addDefines trees :: requests).mapM (Request.perform (.onDemand revision) base)).run
      s.reset =
      (.ok answers, s')) :
    ∃ s₁, (addDefines (.onDemand revision) base (undefinedYet name trees)).run s.reset =
      (.ok (), s₁) ∧
      Resolves (fun _ ↦ True) (· = name) (fun p d ↦ s₁.errors.get? p = some d) s' := by
  obtain ⟨first, after, htrees, hfirst⟩ := exists_eq_append_of_defines ht hname
  have hmem : first ∈ trees := htrees ▸ List.mem_append_right _ List.mem_cons_self
  obtain ⟨declared, value, hroot⟩ :=
    Expr.exists_binding_of_defines? hfirst (Expr.all_iff.1 (hslotted first hmem)).1
  have hdefine : first.root.isDefine := by rw [hroot]; rfl
  -- The trees before are known, and nothing of the first definition has been looked at.
  have hbefore : Keeps (Resolves (∃ tree ∈ undefinedYet name trees, tree.number = ·) (fun _ ↦ False)
      fun _ _ ↦ True) (addDefines (.onDemand revision) base (undefinedYet name trees)) :=
    keeps_addDefines revision base fun tree' ht' ↦ ⟨⟨tree', ht', rfl⟩,
      hslotted tree' (List.takeWhile_subset _ ht')⟩
  obtain ⟨_, s₁, _, _, hrun₁, -, rfl, rfl, hs₁⟩ := hbefore.exists_run ⟨rfl, resolves_reset s⟩
  have hfresh : ¬ ∃ tree ∈ undefinedYet name trees, tree.number = first.number := by
    rintro ⟨tree', ht', hnumber⟩
    have hne := List.mem_takeWhile_imp ht'
    rw [hnumbers tree' (List.takeWhile_subset _ ht') first hmem hnumber, hfirst] at hne
    simp at hne
  have hsession :
    Ensures ((.addDefines trees :: requests).mapM (Request.perform (.onDemand revision) base))
      s.reset
      (fun _ s' ↦ Resolves (fun _ ↦ True) (· = name) (fun p d ↦ s₁.errors.get? p = some d) s')
      fun _ _ ↦ False := by
    rw [List.mapM_cons, ensures_bind, Request.perform, ensures_bind, htrees, addDefines_append,
      ensures_bind]
    refine (ensures_ok hrun₁).2 ?_
    rw [addDefines, if_pos hdefine, ensures_bind]
    refine (hs₁.addDefine revision base hfresh (hslotted first hmem) hroot).mono (fun _ s₂ hs₂ ↦ ?_)
      fun _ _ ↦ id
    refine (keeps_iff.1 (keeps_addDefines revision base fun tree' ht' ↦ ⟨trivial, hslotted tree'
      (htrees ▸ List.mem_append_right _ (List.mem_cons_of_mem _ ht'))⟩) s₂ hs₂).mono
        (fun _ s₃ hs₃ ↦ ?_)
        fun _ _ ↦ id
    rw [ensures_pure, ensures_bind]
    exact (keeps_iff.1 (keeps_requests revision base fun r hr tree' ht' ↦ ⟨trivial, hslotted tree'
      (hrequests r hr ht')⟩) s₃ hs₃).mono (fun _ _ ↦ id) fun _ _ ↦ id
  exact ⟨s₁, hrun₁, (ensures_ok hrun).1 hsession⟩

/-- **A name that is defined is reported only before.**  In a session that adds the definitions of
some trees and then performs any requests about them, a report that the name of one of the
definitions is unbound comes from the definition of a hole before it.  It is already recorded when
the trees before the first definition of that name are added. -/
theorem unbound_before_definition
    (hread : ∀ tree ∈ trees, ∃ source es, Expr.readAll source = .ok es ∧ tree.root ∈ es)
    (hnumbers : ∀ tree ∈ trees, ∀ tree' ∈ trees, tree.number = tree'.number → tree = tree')
    (revision : Nat → Nat) (base : Env) {requests : List Request}
    (hrequests : ∀ r ∈ requests, r.trees ⊆ trees) (s : CheckerState) :
    ∃ answers s',
      ((.addDefines trees :: requests).mapM (Request.perform (.onDemand revision) base)).run
        s.reset =
        (.ok answers, s') ∧
      ∀ name p d, (∃ tree ∈ trees, tree.root.defines? = some name) → s'.errors.get? p = some d →
        d.unbound? = some name →
        (∃ tree ∈ undefinedYet name trees, ∃ value, tree.root = .define .hole value) ∧
        ∃ s₁, (addDefines (.onDemand revision) base (undefinedYet name trees)).run s.reset =
          (.ok (), s₁) ∧
          s₁.errors.get? p = some d := by
  have hslotted : ∀ tree ∈ trees, tree.root.All Expr.Slotted := fun tree ht ↦
    have ⟨source, es, hes, hmem⟩ := hread tree ht
    Expr.Parsed.slotted (Expr.exists_ofDatum_of_readAll hes hmem)
  have hrequests' : ∀ r ∈ Request.addDefines trees :: requests, ∀ tree ∈ r.trees,
      tree.root.All Expr.Slotted :=
    List.forall_mem_cons.2 ⟨hslotted, fun r hr tree ht ↦ hslotted tree (hrequests r hr ht)⟩
  obtain ⟨answers, s', _, _, hrun, -, rfl, -⟩ :=
    ((serves_watched revision).requests base hrequests').exists_run (idle_reset s)
  refine ⟨answers, s', hrun, fun name p d ⟨tree, ht, hname⟩ hp hd ↦ ?_⟩
  obtain ⟨s₁, hrun₁, hresolves⟩ :=
    resolves_of_run hslotted hnumbers revision base hrequests ht hname hrun
  have hp₁ := hresolves.unbound p d name hp hd rfl
  refine ⟨?_, s₁, hrun₁, hp₁⟩
  by_contra hnone
  have hnamed : ∀ tree' ∈ undefinedYet name trees, tree'.root.Slotted ∧
      ∀ value, tree'.root ≠ .define .hole value := fun tree' ht' ↦
    ⟨(Expr.all_iff.1 (hslotted tree' (List.takeWhile_subset _ ht'))).1, fun value hroot ↦
      hnone ⟨tree', ht', value, hroot⟩⟩
  cases (ensures_ok hrun₁).1 (ensures_addDefines_named revision base hnamed s.reset) p d name hp₁ hd

end

/-- A hole is given the value of a name that is defined after it. -/
def holeFirst : List Tree :=
  Tree.numbered 1 [.define .hole (.var "x"), .define (.binding "x" none) (.number (.exact 1))]

/-- Requests for the types at all places of the trees. -/
def everywhere : List Request :=
  holeFirst.flatMap fun tree ↦ [[], [0], [1]].map fun path ↦ .typeAt ∅ tree path

theorem readAll_holeFirst :
    Expr.readAll "(define _ x) (define x 1)" = .ok (holeFirst.map Tree.root) := by decide +kernel

theorem unbound_before_definition_hole :
    (∀ tree ∈ holeFirst, ∃ source es, Expr.readAll source = .ok es ∧ tree.root ∈ es) ∧
    (∀ tree ∈ holeFirst, ∀ tree' ∈ holeFirst, tree.number = tree'.number → tree = tree') ∧
    (∀ r ∈ everywhere, r.trees ⊆ holeFirst) ∧
    ∃ answers s',
      ((.addDefines holeFirst :: everywhere).mapM (Request.perform (.onDemand fun _ ↦ 0) ∅)).run
        CheckerState.initial.reset = (.ok answers, s') ∧
      ∀ name p d, (∃ tree ∈ holeFirst, tree.root.defines? = some name) → s'.errors.get? p = some d →
        d.unbound? = some name →
        (∃ tree ∈ undefinedYet name holeFirst, ∃ value, tree.root = .define .hole value) ∧
        ∃ s₁, (addDefines (.onDemand fun _ ↦ 0) ∅ (undefinedYet name holeFirst)).run
          CheckerState.initial.reset =
          (.ok (), s₁) ∧ s₁.errors.get? p = some d := by
  have hread : ∀ tree ∈ holeFirst, ∃ source es, Expr.readAll source = .ok es ∧ tree.root ∈ es :=
    fun tree ht ↦ ⟨_, _, readAll_holeFirst, List.mem_map_of_mem ht⟩
  have hnumbers : ∀ tree ∈ holeFirst, ∀ tree' ∈ holeFirst, tree.number = tree'.number →
      tree = tree' :=
    fun tree ht tree' ht' ↦ List.inj_on_of_nodup_map (f := Tree.number) (by decide) ht ht'
  have hrequests : ∀ r ∈ everywhere, r.trees ⊆ holeFirst := by
    intro r hr
    obtain ⟨tree, ht, hr⟩ := List.mem_flatMap.1 hr
    obtain ⟨path, -, rfl⟩ := List.mem_map.1 hr
    exact List.cons_subset.2 ⟨ht, List.nil_subset _⟩
  exact ⟨hread, hnumbers, hrequests,
    unbound_before_definition hread hnumbers (fun _ ↦ 0) ∅ hrequests .initial⟩

/-- The state of the checker after these requests. -/
def afterHole : CheckerState :=
  (((.addDefines holeFirst :: everywhere).mapM (Request.perform (.onDemand fun _ ↦ 0) ∅)).run
    CheckerState.initial.reset).2

/-- In the value of the hole, the name is reported as unbound, although it is defined and has a type
at the end. -/
theorem hole_reports_later_name :
    Expr.readAll "(define _ x) (define x 1)" = .ok (holeFirst.map Tree.root) ∧
    (∃ tree ∈ holeFirst, tree.root.defines? = some "x") ∧
    (afterHole.errors.get? ⟨1, [1]⟩).bind Diagnostic.unbound? = some "x" ∧
    afterHole.computed.get? "x" = some integer :=
  ⟨readAll_holeFirst, by decide, by decide +kernel, by decide +kernel⟩

end SchemeTyping.Check
