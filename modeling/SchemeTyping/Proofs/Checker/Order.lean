import SchemeTyping.Proofs.Checker.Scene

/-!
# The order of definitions and queries

A session adds definitions and then asks for types.  In a `Layered` program, neither the order of
the definitions nor that of the queries makes a difference: every query is answered by what its tree
gets when it is checked alone, and so are the diagnostics at the end (`session_order_irrelevant`).
-/

set_option autoImplicit false

namespace SchemeTyping.Check

open Ty

variable {P : Scene} {tree : Tree} {s : CheckerState} {name : String}

/-! ## Queries -/

namespace Scene

theorem length_keys_le_nesting (hs : P.Settled [] [] s) (e : Expr) :
    P.definitions.keys.length ≤ nesting s + e.defineCount := by
  have hnames := length_namesAround_le s e
  simp only [namesAround, hs.definitions, List.length_append] at hnames
  omega

/-- When the only tree being checked is `Done`, no tree is being checked. -/
theorem Running.rest {L : List String} {start t : CheckerState} (h : P.Running L [] tree start s t)
    (hdone : P.Done tree s) : P.Settled L [] s ∧ P.Kept [] start s := by
  refine ⟨⟨h.settled.computing, h.settled.definitions, fun tree' ht' _ ↦ ?_, h.settled.computed,
    h.settled.outside⟩, fun tree' ht' _ hstart ↦ ?_, fun _ hmem ↦ absurd hmem List.not_mem_nil⟩
  · by_cases hne : tree' = tree
    · exact .inr (hne ▸ hdone)
    · exact h.settled.others tree' ht' (mt List.mem_singleton.1 hne)
  · by_cases hne : tree' = tree
    · exact hne ▸ hdone
    · exact h.done tree' ht' (mt List.mem_singleton.1 hne) hstart

/-- `typeOfRoot` gives the root a type.  A definition waits there; any other tree is `Done`. -/
theorem run_typeOfRoot (ht : tree ∈ P.trees) (hs : P.Settled [] [] s) :
    ∃ T s', (typeOfRoot (.onDemand P.revision) P.base tree).run s = (.ok T, s') ∧
      P.Settled [] [] s' ∧
      P.Kept [] s s' ∧ (¬ tree.root.isDefine → P.Done tree s') := by
  have hcurrent := P.current tree ht
  rcases hs.others tree ht List.not_mem_nil with hunchecked | hdone
  · by_cases hdefine : tree.root.isDefine
    · have hcached : s.cache.get? (tree.key []) = some empty := by
        rw [hunchecked.slice.cache, untouched, if_pos hdefine, OrdMap.get?_insert_self]
      exact ⟨_, s, run_typeOfRoot_of_cached hcurrent hcached P.base, hs, .refl P [] s,
        fun h ↦ absurd hdefine h⟩
    · have hbusy : P.Busy [] [tree] := List.forall_mem_singleton.2
        ⟨ht, fun name hname ↦ absurd (Expr.isDefine_of_definedName? hname) hdefine⟩
      have hs' : P.Settled [] [tree] s :=
        ⟨hs.computing, hs.definitions, fun tree' ht' _ ↦ hs.others tree' ht' List.not_mem_nil,
          hs.computed, hs.outside⟩
      have hfind : P.Supplies [] [tree]
          (typeOfDefinition P.revision (nesting s + tree.root.defineCount)) fun _ ↦ True := by
        intro name _ t ht
        obtain ⟨t', hrun, ht', hkept, -⟩ :=
          answers_typeOfDefinition List.nodup_nil (List.nil_subset _)
          (length_keys_le_nesting hs tree.root) hbusy (fun _ h ↦ absurd h List.not_mem_nil) ht
        exact ⟨t', hrun, ht', hkept⟩
      obtain ⟨T, s', hrun, -, h⟩ := run_solo ht (fun _ h ↦ absurd h List.not_mem_nil) hfind
        (fun _ _ ↦ trivial) hs' hunchecked.slice
      rw [solo_of_not_define _ _ hdefine, ← Check.run_typeOfRoot] at hrun
      have hdone : P.Done tree s' := by
        refine ⟨h.slice, ?_, fun name hname ↦ absurd (Expr.isDefine_of_definedName? hname) hdefine⟩
        rw [cached_of_run_typeOfRoot hcurrent hrun]
        rfl
      exact ⟨T, s', hrun, (h.rest hdone).1, (h.rest hdone).2, fun _ ↦ hdone⟩
  · obtain ⟨T, hT⟩ := Option.isSome_iff_exists.1 hdone.root
    exact ⟨T, s, run_typeOfRoot_of_cached hcurrent hT P.base, hs, .refl P [] s, fun _ ↦ hdone⟩

/-- After `computeNames`, the trees that define the names are `Done`. -/
theorem run_computeNames (names : List String) (hs : P.Settled [] [] s) :
    ∃ s', (computeNames (.onDemand P.revision) names).run s = (.ok (), s') ∧ P.Settled [] [] s' ∧
      P.Kept [] s s' ∧
      ∀ tree ∈ P.trees, ∀ name ∈ names, tree.root.definedName? = some name → P.Done tree s' := by
  induction names generalizing s with
  | nil => exact ⟨s, rfl, hs, .refl P [] s, fun _ _ _ h ↦ absurd h List.not_mem_nil⟩
  | cons name names ih =>
    obtain ⟨s₁, hrun, hs₁, hkept, hdone⟩ :
        P.Answers [] [] name (definitionType (.onDemand P.revision) name) s :=
      answers_typeOfDefinition List.nodup_nil (List.nil_subset _) (length_keys_le_nesting hs .hole)
        (fun _ h ↦ absurd h List.not_mem_nil) (fun _ h ↦ absurd h List.not_mem_nil) hs
    obtain ⟨s₂, hrun', hs₂, hkept', hdone'⟩ := ih hs₁
    refine ⟨s₂, by rw [computeNames, run_bind_ok hrun, hrun'], hs₂, hkept.trans hkept',
      fun tree ht ↦ List.forall_mem_cons.2 ⟨fun hname ↦ ?_, hdone' tree ht⟩⟩
    exact hkept'.done tree ht List.not_mem_nil (hdone tree ht hname)

/-- The type at a path when the tree is checked alone. -/
def typeAlone (P : Scene) (tree : Tree) (path : Path) : Ty :=
  ((P.alone tree).2.cache.get? (tree.key path)).getD untyped

/-- `typeAt` gives `typeAlone`, and the tree is `Done`. -/
theorem run_typeAt (ht : tree ∈ P.trees) (path : Path) (hs : P.Settled [] [] s) :
    ∃ s', (typeAt (.onDemand P.revision) P.base tree path).run s =
      (.ok (P.typeAlone tree path), s') ∧
      P.Settled [] [] s' ∧ P.Kept [] s s' ∧ P.Done tree s' := by
  obtain ⟨T, s₁, hroot, hs₁, hkept₁, hdone₁⟩ := run_typeOfRoot ht hs
  obtain ⟨s₂, hnames, hs₂, hkept₂, hdone₂⟩ := run_computeNames s₁.definitions.keys hs₁
  have hdone : P.Done tree s₂ := by
    by_cases hdefine : tree.root.isDefine
    · obtain ⟨name, hname⟩ := P.layered.exists_name ht hdefine
      exact hdone₂ tree ht name (hs₁.definitions ▸ key_mem ht hname) hname
    · exact hkept₂.done tree ht List.not_mem_nil (hdone₁ hdefine)
  have hcompute : (computeAll (.onDemand P.revision)).run s₁ = (.ok (), s₂) := hnames
  rw [typeAt, run_bind_ok hroot, run_bind_ok hcompute, run_get_bind, typeAlone, ← hdone.slice.cache]
  cases s₂.cache.get? (tree.key path) with
  | some T => exact ⟨s₂, rfl, hs₂, hkept₁.trans hkept₂, hdone⟩
  | none =>
    refine ⟨{ s₂ with log := s₂.log.push (.noType path) }, rfl, ?_, ?_,
      hdone.of_same (.of_eq rfl rfl rfl)⟩
    · exact ⟨hs₂.computing, hs₂.definitions, fun tree ht hB ↦ (hs₂.others tree ht hB).imp
        (·.of_same (.of_eq rfl rfl rfl)) (·.of_same (.of_eq rfl rfl rfl)), hs₂.computed,
          hs₂.outside⟩
    · refine (hkept₁.trans hkept₂).trans
        ⟨fun tree _ _ h ↦ h.of_same (.of_eq rfl rfl rfl), fun _ h ↦ ?_⟩
      exact absurd h List.not_mem_nil

theorem run_queries {queries : List (Tree × Path)} (hqueries : ∀ q ∈ queries, q.1 ∈ P.trees)
    (hs : P.Settled [] [] s) :
    ∃ s', (queries.mapM fun q ↦ typeAt (.onDemand P.revision) P.base q.1 q.2).run s =
      (.ok (queries.map fun q ↦ P.typeAlone q.1 q.2), s') ∧ P.Settled [] [] s' ∧ P.Kept [] s s' ∧
      ∀ q ∈ queries, P.Done q.1 s' := by
  induction queries generalizing s with
  | nil => exact ⟨s, rfl, hs, .refl P [] s, fun _ h ↦ absurd h List.not_mem_nil⟩
  | cons q queries ih =>
    rw [List.forall_mem_cons] at hqueries
    obtain ⟨s₁, hrun, hs₁, hkept, hdone⟩ := run_typeAt hqueries.1 q.2 hs
    obtain ⟨s₂, hrun', hs₂, hkept', hdone'⟩ := ih hqueries.2 hs₁
    refine ⟨s₂, ?_, hs₂, hkept.trans hkept', List.forall_mem_cons.2 ⟨?_, hdone'⟩⟩
    · rw [List.mapM_cons, run_bind_ok hrun, run_bind_ok hrun']
      rfl
    · exact hkept'.done q.1 hqueries.1 List.not_mem_nil hdone

end Scene

/-! ## Adding definitions -/

/-- The state knows the definitions of the trees in `added`, and nothing else. -/
structure Added (base : Env) (trees added : List Tree) (s : CheckerState) : Prop where
  errors : s.errors = ∅
  computed : s.computed = ∅
  computing : s.computing = []
  awaiting : Awaiting base added s.definitions
  seen : ∀ tree ∈ added, ∀ path, s.cache.get? (tree.key path) =
    (untouched tree).cache.get? (tree.key path)
  unseen : ∀ tree ∈ trees, tree ∉ added → ∀ path, s.cache.get? (tree.key path) = none

variable {base : Env} {trees added : List Tree} {revision : Nat → Nat}

theorem added_nil (base : Env) (trees : List Tree) : Added base trees [] .initial where
  errors := rfl
  computed := rfl
  computing := rfl
  awaiting := ⟨fun _ h ↦ absurd h List.not_mem_nil, fun _ h ↦ absurd h Bool.false_ne_true,
    fun _ h ↦ absurd h List.not_mem_nil⟩
  seen _ h := absurd h List.not_mem_nil
  unseen _ _ _ _ := rfl

/-- A tree that is not a definition adds nothing. -/
theorem Added.pass (h : Added base trees added s) (ht : tree ∈ trees) (hnew : tree ∉ added)
    (hdefine : ¬ tree.root.isDefine) : Added base trees (added ++ [tree]) s where
  errors := h.errors
  computed := h.computed
  computing := h.computing
  awaiting := by
    refine ⟨List.forall_mem_append.2
      ⟨h.awaiting.waits, List.forall_mem_singleton.2 fun slot value _ hroot ↦ ?_⟩,
      fun name hname ↦ ?_, h.awaiting.fixed⟩
    · rw [hroot] at hdefine
      exact absurd rfl hdefine
    · obtain ⟨tree', ht', hname'⟩ := h.awaiting.known name hname
      exact ⟨tree', List.mem_append_left _ ht', hname'⟩
  seen := by
    refine List.forall_mem_append.2 ⟨h.seen, List.forall_mem_singleton.2 fun path ↦ ?_⟩
    rw [h.unseen tree ht hnew, untouched, if_neg hdefine]
    rfl
  unseen tree' ht' hnew' := h.unseen tree' ht' fun hmem ↦ hnew' (List.mem_append_left _ hmem)

/-- The state after a definition was added. -/
def noted (base : Env) (tree : Tree) (slot value : Expr) (name : String) (s : CheckerState) :
    CheckerState :=
  { s with
    definitions :=
      s.definitions.insert name (waiting (.fixed base) ⟨tree.rootPlace, true⟩ slot value)
    cache := s.cache.insert (tree.key []) empty }

theorem Awaiting.insert (hlayered : Layered trees) {definitions : OrdMap String Pending}
    (h : Awaiting base added definitions) (ht : tree ∈ trees) (hnew : tree ∉ added)
    (hadded : added ⊆ trees) {slot value : Expr} (hroot : tree.root = .define slot value)
    (hslot : slot.identifier? = some name) :
    Awaiting base (added ++ [tree])
      (definitions.insert name (waiting (.fixed base) ⟨tree.rootPlace, true⟩ slot value)) := by
  have hdefines : tree.root.definedName? = some name := by rw [hroot]; exact hslot
  refine ⟨List.forall_mem_append.2 ⟨fun tree' ht' slot' value' name' hroot' hslot' ↦ ?_,
    List.forall_mem_singleton.2 fun slot' value' name' hroot' hslot' ↦ ?_⟩, fun n hn ↦ ?_,
      fun d hd ↦ ?_⟩
  · have hname : name ≠ name' := by
      rintro rfl
      have hdefines' : tree'.root.definedName? = some name := by rw [hroot']; exact hslot'
      exact hnew (hlayered.eq_of_name (hadded ht') ht hdefines' hdefines ▸ ht')
    rw [OrdMap.get?_insert, if_neg hname, h.waits tree' ht' slot' value' name' hroot' hslot']
  · cases hroot.symm.trans hroot'
    cases hslot.symm.trans hslot'
    exact OrdMap.get?_insert_self _ _ _
  · rw [OrdMap.get?_insert] at hn
    split at hn
    · rename_i heq
      exact ⟨tree, List.mem_append_right _ List.mem_cons_self, heq ▸ hdefines⟩
    · obtain ⟨tree', ht', hname'⟩ := h.known n hn
      exact ⟨tree', List.mem_append_left _ ht', hname'⟩
  · rcases OrdMap.mem_values_insert hd with rfl | hd
    · rfl
    · exact h.fixed d hd

theorem Added.note (hlayered : Layered trees) (h : Added base trees added s) (ht : tree ∈ trees)
    (hnew : tree ∉ added) (hadded : added ⊆ trees) {slot value : Expr}
    (hroot : tree.root = .define slot value) (hslot : slot.identifier? = some name) :
    Added base trees (added ++ [tree]) (noted base tree slot value name s) := by
  have hkey : ∀ tree' ∈ trees, tree' ≠ tree → ∀ path, tree.key [] ≠ tree'.key path :=
    fun tree' ht' hne path heq ↦
      hne (hlayered.eq_of_number ht' ht (congrArg CacheKey.tree heq).symm)
  refine ⟨h.errors, h.computed, h.computing, h.awaiting.insert hlayered ht hnew hadded hroot hslot,
    List.forall_mem_append.2 ⟨fun tree' ht' path ↦ ?_, List.forall_mem_singleton.2 fun path ↦ ?_⟩,
    fun tree' ht' hnew' path ↦ ?_⟩
  · have hne : tree' ≠ tree := fun heq ↦ hnew (heq ▸ ht')
    rw [noted, OrdMap.get?_insert, if_neg (hkey tree' (hadded ht') hne path), h.seen tree' ht']
  · rw [noted, untouched, if_pos (by rw [hroot]; rfl), OrdMap.get?_insert, OrdMap.get?_insert,
      h.unseen tree ht hnew]
    rfl
  · rw [List.mem_append, List.mem_singleton, not_or] at hnew'
    rw [noted, OrdMap.get?_insert, if_neg (hkey tree' ht' hnew'.2 path), h.unseen tree' ht' hnew'.1]

theorem run_addDefine (base : Env) {declared : Option Ty} {value : Expr}
    (hcurrent : revision tree.number = tree.revision)
    (hroot : tree.root = .define (.binding name declared) value)
    (hfresh : s.definitions.get? name = none) (hcache : s.cache.get? (tree.key []) = none) :
    (addDefine (.onDemand revision) base tree).run s =
      (.ok (), noted base tree (.binding name declared) value name s) := by
  have hrun : (typeOfRoot (.onDemand revision) base tree).run s =
      (.ok empty, noted base tree (.binding name declared) value name s) := by
    rw [run_typeOfRoot, hroot, run_synth_define (by rwa [cacheKey_root hcurrent]),
      cacheKey_root hcurrent]
    rfl
  have hcontains : s.definitions.contains name = false := by rw [OrdMap.contains, hfresh]; rfl
  rw [addDefine]
  simp only [hroot]
  rw [show identifier (.binding name declared) = pure name from rfl, pure_bind, run_get_bind,
    hcontains]
  exact run_bind_ok hrun _

/-- `addDefines` adds the definitions of a list of trees. -/
theorem run_addDefines (hlayered : Layered trees)
    (hcurrent : ∀ tree ∈ trees, revision tree.number = tree.revision) {rest : List Tree}
    (hrest : rest ⊆ trees) (hadded : added ⊆ trees) (hnodup : (added ++ rest).Nodup)
    (h : Added base trees added s) :
    ∃ s', (addDefines (.onDemand revision) base rest).run s = (.ok (), s') ∧
      Added base trees (added ++ rest) s' := by
  induction rest generalizing added s with
  | nil => exact ⟨s, rfl, by rwa [List.append_nil]⟩
  | cons tree rest ih =>
    rw [List.cons_subset] at hrest
    have hnew : tree ∉ added := fun hmem ↦
      (List.nodup_append.1 hnodup).2.2 tree hmem tree List.mem_cons_self rfl
    have hadded' : added ++ [tree] ⊆ trees :=
      List.append_subset.2 ⟨hadded, List.cons_subset.2 ⟨hrest.1, List.nil_subset _⟩⟩
    rw [List.append_cons] at hnodup ⊢
    rw [addDefines]
    by_cases hdefine : tree.root.isDefine
    · obtain ⟨name, hname⟩ := hlayered.exists_name hrest.1 hdefine
      obtain ⟨declared, value, hroot⟩ := hlayered.exists_root hrest.1 hname
      have hfresh : s.definitions.get? name = none := by
        refine Option.not_isSome_iff_eq_none.1 fun hsome ↦ ?_
        obtain ⟨tree', ht', hname'⟩ := h.awaiting.known name hsome
        exact hnew (hlayered.eq_of_name (hadded ht') hrest.1 hname' hname ▸ ht')
      have hrun := run_addDefine base (hcurrent tree hrest.1) hroot hfresh
        (h.unseen tree hrest.1 hnew [])
      obtain ⟨s', hrun', h'⟩ := ih hrest.2 hadded' hnodup
        (h.note hlayered hrest.1 hnew hadded hroot rfl)
      refine ⟨s', ?_, h'⟩
      rw [if_pos hdefine]
      exact (run_bind_ok hrun _).trans hrun'
    · obtain ⟨s', hrun', h'⟩ := ih hrest.2 hadded' hnodup (h.pass hrest.1 hnew hdefine)
      refine ⟨s', ?_, h'⟩
      rw [if_neg hdefine]
      exact hrun'

/-! ## Sessions -/

/-- Adds definitions and asks for the types at paths of trees. -/
def session (revision : Nat → Nat) (base : Env) (order : List Tree) (queries : List (Tree × Path)) :
    Check (List Ty) := do
  addDefines (.onDemand revision) base order
  queries.mapM fun q ↦ typeAt (.onDemand revision) base q.1 q.2

theorem Awaiting.perm {definitions : OrdMap String Pending} {order : List Tree}
    (h : Awaiting base order definitions) (horder : order.Perm trees) :
    Awaiting base trees definitions :=
  ⟨fun tree ht ↦ h.waits tree (horder.mem_iff.2 ht),
    fun name hname ↦ (h.known name hname).imp fun _ ht ↦ ⟨horder.mem_iff.1 ht.1, ht.2⟩, h.fixed⟩

/-- When all definitions are added, every tree is `Unchecked`. -/
theorem Added.settled {order : List Tree} (h : Added P.base P.trees order s)
    (horder : P.trees ⊆ order) (hdefinitions : s.definitions = P.definitions) :
    P.Settled [] [] s where
  computing := h.computing
  definitions := hdefinitions
  others tree ht _ := by
    refine .inl ⟨⟨h.seen tree (horder ht), fun path ↦ ?_⟩, fun name _ ↦ by rw [h.computed]; rfl⟩
    rw [h.errors, untouched]
    split <;> rfl
  computed name hname := by
    rw [h.computed] at hname
    cases hname
  outside p _ := by
    rw [h.errors]
    rfl

/-- **The order of definitions and queries is irrelevant.**  In a `Layered` program there is one
type for every path of a tree and at most one diagnostic for every place.  Whatever the order in
which definitions are added, and whatever the order of the queries, these are the answers, and these
are the diagnostics after all trees were asked for. -/
theorem session_order_irrelevant (h : Layered trees) (revision : Nat → Nat)
    (hcurrent : ∀ tree ∈ trees, revision tree.number = tree.revision) (base : Env) :
    ∃ (types : Tree → Path → Ty) (errors : Place → Option Diagnostic),
      ∀ (order : List Tree) (queries : List (Tree × Path)), order.Perm trees →
        (∀ q ∈ queries, q.1 ∈ trees) → (∀ tree ∈ trees, ∃ path, (tree, path) ∈ queries) →
        ∃ s, (session revision base order queries).run .initial =
          (.ok (queries.map fun q ↦ types q.1 q.2), s) ∧ ∀ p, s.errors.get? p = errors p := by
  -- The oracle is there before the order and the queries are chosen.
  obtain ⟨table, horacle⟩ := h.exists_oracle revision base
  obtain ⟨rank, hrank⟩ := h.exists_rank
  refine ⟨fun tree path ↦
    ((alone revision base table tree).2.cache.get? (tree.key path)).getD untyped,
    fun p ↦ (trees.find? (·.number = p.tree)).bind fun tree ↦
      (alone revision base table tree).2.errors.get? p, fun order queries horder hqueries hall ↦ ?_⟩
  have hnodup : ([] ++ order).Nodup := horder.nodup_iff.2 (List.Nodup.of_map _ h.numbers)
  obtain ⟨s₀, hadd, hadded⟩ := run_addDefines h hcurrent horder.subset (List.nil_subset _) hnodup
    (added_nil base trees)
  let P : Scene := ⟨revision, base, trees, s₀.definitions, table, rank, h, hcurrent, horacle, hrank,
    hadded.awaiting.perm horder⟩
  have hsettled : P.Settled [] [] s₀ := hadded.settled horder.symm.subset rfl
  obtain ⟨s, hrun, hs, -, hdone⟩ := Scene.run_queries hqueries hsettled
  refine ⟨s, (run_bind_ok hadd _).trans hrun, fun p ↦ ?_⟩
  dsimp only
  cases hfind : trees.find? (·.number = p.tree) with
  | none => exact hs.outside p fun tree ht ↦ by simpa using List.find?_eq_none.1 hfind tree ht
  | some tree =>
    have hnumber : tree.number = p.tree := by simpa using List.find?_some hfind
    obtain ⟨path, hpath⟩ := hall tree (List.mem_of_find?_eq_some hfind)
    have herrors := (hdone _ hpath).slice.errors p.path
    rw [hnumber] at herrors
    exact herrors

/-- A definition that needs a later one and an unbound name, and a call of it. -/
def layeredTrees : List Tree := Tree.numbered 1 [
  .define (.binding "a" none) (.call (.var "b") [.var "x"]),
  .define (.binding "b" none) (.lambda [.binding "n" none] (.var "n")),
  .call (.var "a") []]

theorem layered_layeredTrees : Layered layeredTrees where
  numbers := by decide
  read tree ht := by
    refine ⟨"(define a (b x)) (define b (lambda (n) n)) (a)", layeredTrees.map Tree.root, ?_,
      List.mem_map_of_mem ht⟩
    decide +kernel
  shallow := by decide
  named := by simp [layeredTrees, Tree.numbered]
  names := by decide
  acyclic := by
    have hrank : ∀ name mentioned, Needs layeredTrees name mentioned →
        (if mentioned = "a" then 2 else if mentioned = "b" then 1 else 0) <
          if name = "a" then 2 else if name = "b" then 1 else 0 := by
      rintro name mentioned ⟨tree, ht, slot, value, hroot, hslot, hmem⟩
      simp only [layeredTrees, Tree.numbered, List.zipIdx_cons, List.zipIdx_nil, List.map_cons,
        List.map_nil, List.mem_cons, List.not_mem_nil, or_false] at ht
      rcases ht with rfl | rfl | rfl
      · cases hroot
        cases hslot
        simp [Expr.parts, Expr.partsList] at hmem
        rcases hmem with rfl | rfl <;> decide
      · cases hroot
        cases hslot
        simp [Expr.parts, Expr.partsList] at hmem
        subst hmem
        decide
      · cases hroot
    exact acyclic_of_rank hrank

/-- The trees are added from first to last or from last to first, and asked for in the opposite
order. -/
theorem session_order_irrelevant_reverse :
    Layered layeredTrees ∧ (∀ tree ∈ layeredTrees, 0 = tree.revision) ∧
    ∃ (types : Tree → Path → Ty) (errors : Place → Option Diagnostic),
      ∀ order ∈ [layeredTrees, layeredTrees.reverse],
        ∃ s, (session (fun _ ↦ 0) ∅ order (order.reverse.map (·, []))).run .initial =
          (.ok ((order.reverse.map (·, [])).map fun q ↦ types q.1 q.2), s) ∧
            ∀ p, s.errors.get? p = errors p := by
  have hcurrent : ∀ tree ∈ layeredTrees, 0 = tree.revision := by decide
  obtain ⟨types, errors, h⟩ := session_order_irrelevant layered_layeredTrees (fun _ ↦ 0) hcurrent ∅
  refine ⟨layered_layeredTrees, hcurrent, types, errors, fun order horder ↦ ?_⟩
  have hperm : order.Perm layeredTrees := by
    simp only [List.mem_cons, List.not_mem_nil, or_false] at horder
    rcases horder with rfl | rfl
    · exact .refl _
    · exact List.reverse_perm _
  refine h order _ hperm (fun q hq ↦ ?_) fun tree ht ↦ ⟨[], ?_⟩
  · obtain ⟨tree, ht, rfl⟩ := List.mem_map.1 hq
    exact hperm.subset (List.mem_reverse.1 ht)
  · exact List.mem_map.2 ⟨tree, List.mem_reverse.2 (hperm.symm.subset ht), rfl⟩

end SchemeTyping.Check
