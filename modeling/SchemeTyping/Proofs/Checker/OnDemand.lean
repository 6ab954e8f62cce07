import SchemeTyping.Proofs.Checker.Mirror
import SchemeTyping.Proofs.Expr.Formed
import Mathlib.Data.List.Perm.Subperm

/-!
# Definitions on demand

The type of a definition is computed when it is first asked for.  `Resolver.watched` resolves names
as `Resolver.onDemand` does, with two differences: it records every computation that it begins, and
it fails where `typeOfDefinition` gives the gradual type because computations are nested too deep.

Both give the same answers to every list of requests to a checker (`serves_watched`,
`requests_answered`).  So the bound on the depth is never reached: the names that are being computed
are distinct, and all of them are names of waiting definitions or of definitions inside of these.
And no computation is begun twice.
-/

set_option autoImplicit false

namespace SchemeTyping

/-! ## The names that are defined -/

namespace Expr

/-- The name that an expression defines. -/
def definedName? : Expr → Option String
  | .define name _ => name.identifier?
  | _ => none

/-- The names that an expression and everything below it define. -/
def definedNames (e : Expr) : List String := e.parts.filterMap definedName?

theorem length_definedNames_le (e : Expr) : e.definedNames.length ≤ e.defineCount := by
  rw [definedNames, List.length_filterMap_eq_countP, defineCount_eq_countP]
  refine List.countP_mono_left fun q _ hq ↦ ?_
  cases q with
  | define name value => rfl
  | _ => cases hq

/-- The names that the expression binds are in slots, and the name that it defines is in `N`. -/
def DefinesOnly (N : List String) (e : Expr) : Prop := e.Slotted ∧ ∀ name ∈ e.definedName?, name ∈ N

theorem all_definesOnly {N : List String} {e : Expr} (he : e.All Slotted)
    (hN : e.definedNames ⊆ N) : e.All (DefinesOnly N) :=
  fun q hq ↦ ⟨he q hq, fun _ hname ↦ hN (List.mem_filterMap.2 ⟨q, hq, hname⟩)⟩

theorem exists_define {e : Expr} (h : e.isDefine) : ∃ name value, e = .define name value := by
  cases e with
  | define name value => exact ⟨name, value, rfl⟩
  | _ => cases h

theorem slotted_of_formed {e : Expr} (h : e.Formed) : e.Slotted := by
  cases e with
  | define | letIn | letrec | lambda => exact h
  | _ => trivial

end Expr

theorem Tree.exists_of_readAll {first : Nat} {source : String} {trees : List Tree}
    (h : Tree.readAll first source = .ok trees) :
    ∃ es, Expr.readAll source = .ok es ∧ trees = Tree.numbered first es := by
  rw [Tree.readAll] at h
  cases hes : Expr.readAll source with
  | error e => rw [hes] at h; cases h
  | ok es =>
    rw [hes] at h
    cases h
    exact ⟨es, rfl, rfl⟩

/-- The names that a tree binds are in slots, if it was read. -/
theorem Tree.slotted_of_readAll {first : Nat} {source : String} {trees : List Tree} {tree : Tree}
    (h : Tree.readAll first source = .ok trees) (ht : tree ∈ trees) :
    tree.root.All Expr.Slotted := by
  obtain ⟨es, hes, rfl⟩ := Tree.exists_of_readAll h
  obtain ⟨⟨e, i⟩, he, rfl⟩ := List.mem_map.1 ht
  have he := (List.mem_zipIdx he).2.2
  exact fun q hq ↦
    Expr.slotted_of_formed (Expr.formed_of_readAll hes (he ▸ List.getElem_mem _) q hq)

namespace Check

open Ty

/-! ## A resolver that is watched -/

/-- As `typeOfDefinition`, but records every computation that it begins, and fails where
computations would be nested more than `depth` deep. -/
def typeOfWatched (revision : Nat → Nat) : (depth : Nat) → String → Check (Option Ty)
  | 0, name => fetch name fun d ↦ throw (.notDefinition d.node.expr)
  | depth + 1, name => fetch name fun d ↦ do
    tell (.inferring (.var name))
    marked name (compute ⟨revision, typeOfWatched revision depth⟩ d)

end Check

/-- As `Resolver.onDemand`, with `typeOfWatched` for definitions. -/
def Resolver.watched (revision : Nat → Nat) : Resolver := ⟨revision, Check.typeOfWatched revision⟩

namespace Check

/-- The names of the computations that `events` record. -/
def begun (events : List Event) : List String :=
  events.filterMap fun
    | .inferring (.var name) => some name
    | _ => none

/-- Since `past`, the log records one computation for every name with `P`, and no others. -/
def Tells (past : List Event) (P : String → Prop) (log : Array Event) : Prop :=
  ∃ events, log.toList = past ++ events ∧ (begun events).Nodup ∧
    ∀ name, name ∈ begun events ↔ P name

variable {N L : List String} {past : List Event} {log : Array Event} {P : String → Prop}

theorem Tells.congr {Q : String → Prop} (h : Tells past P log) (hPQ : ∀ name, P name ↔ Q name) :
    Tells past Q log :=
  funext (fun name ↦ propext (hPQ name)) ▸ h

theorem Tells.other (h : Tells past P log) {event : Event} (he : begun [event] = []) :
    Tells past P (log.push event) := by
  obtain ⟨events, hlog, hnodup, hP⟩ := h
  have hbegun : begun (events ++ [event]) = begun events := by
    rw [begun, List.filterMap_append, ← begun, ← begun, he, List.append_nil]
  exact ⟨events ++ [event], by simp [hlog], hbegun ▸ hnodup, hbegun ▸ hP⟩

theorem Tells.inferring (h : Tells past P log) (name : String) (hname : ¬ P name) :
    Tells past (fun n ↦ n = name ∨ P n) (log.push (.inferring (.var name))) := by
  obtain ⟨events, hlog, hnodup, hP⟩ := h
  have hbegun : begun (events ++ [.inferring (.var name)]) = begun events ++ [name] :=
    List.filterMap_append
  refine ⟨events ++ [.inferring (.var name)], by simp [hlog], ?_, fun n ↦ ?_⟩
  · rw [hbegun, List.nodup_append]
    refine ⟨hnodup, by simp, fun n hn m hm hnm ↦ hname ?_⟩
    rw [← List.mem_singleton.1 hm, ← hnm]
    exact (hP n).1 hn
  · rw [hbegun, List.mem_append, hP, List.mem_singleton, or_comm]

/-- In `s`, with the log `log`, the types of `L` are being computed.  The names of waiting
definitions, and those defined inside of these, are in `N`. -/
structure Watch (N L : List String) (past : List Event) (s : CheckerState) (log : Array Event) :
    Prop where
  computing : s.computing = L
  keys : ∀ name ∈ s.definitions.keys, name ∈ N
  definesOnly : ∀ d ∈ s.definitions.values, d.node.expr.All (Expr.DefinesOnly N)
  tells : Tells past (fun name ↦ name ∈ L ∨ (s.computed.get? name).isSome) log

/-- `t` differs from `s` in the log only, and `s` with the log of `t` is a `Watch`. -/
def Watching (N L : List String) (past : List Event) (s t : CheckerState) : Prop :=
  ∃ log, t = { s with log := log } ∧ Watch N L past s log

theorem keys_settle (s : CheckerState) (group : Option Nat) (name : String) (T : Ty) :
    (s.settle group name T).definitions.keys = s.definitions.keys := by
  simp [CheckerState.settle, OrdMap.keys, OrdMap.mapValues]

/-- `settle` changes the contexts of waiting definitions only. -/
theorem exists_of_mem_settle {s : CheckerState} {group : Option Nat} {name : String} {T : Ty}
    {d : Pending} (h : d ∈ (s.settle group name T).definitions.values) :
    ∃ d' ∈ s.definitions.values, d.node = d'.node := by
  simp only [CheckerState.settle, OrdMap.values, OrdMap.mapValues, List.map_map, List.mem_map] at h
  obtain ⟨entry, hentry, rfl⟩ := h
  refine ⟨entry.2, List.mem_map_of_mem hentry, ?_⟩
  dsimp only [Function.comp]
  split <;> rfl

theorem mem_keys_of_insert {s : CheckerState} {name id : String} {d : Pending}
    (h : name ∈ (s.definitions.insert id d).keys) : name = id ∨ name ∈ s.definitions.keys := by
  rw [OrdMap.keys_insert] at h
  split at h
  · exact .inr h
  · simpa [or_comm] using h

/-- The rules are `InStep` for states related by `Watching`. -/
theorem inStep_watching (revision : Nat → Nat) {find find' : String → Check (Option Ty)}
    (h : ∀ name, Mirrors Never (Watching N L past) Eq (find name) (find' name)) :
    InStep ⟨revision, find⟩ ⟨revision, find'⟩ (fun _ e ↦ e.All (Expr.DefinesOnly N)) (fun _ ↦ True)
      (Watching N L past) Eq where
  slotted hdefines := (Expr.all_iff.1 hdefines).1.1
  children hdefines := row_of_forall fun c hc _ ↦ (Expr.all_iff.1 hdefines).2 c hc
  revision _ := rfl
  cached := by
    rintro p e s _ - ⟨log, rfl, -⟩
    rfl
  record := by
    rintro p e T s _ - ⟨log, rfl, hw⟩
    exact ⟨log, rfl, hw.computing, hw.keys, hw.definesOnly, hw.tells⟩
  report := by
    rintro p e d s _ - - ⟨log, rfl, hw⟩
    exact ⟨log, rfl, hw.computing, hw.keys, hw.definesOnly, hw.tells⟩
  typeOf _ := h _
  types := by
    rintro c _ rfl
    rfl
  fixed _ := rfl
  newGroup := by
    rintro Γ s _ ⟨log, rfl, hw⟩
    exact ⟨⟨log, rfl, hw.computing, hw.keys, hw.definesOnly, hw.tells⟩, rfl⟩
  insert := by
    rintro Γ g g' name T hg
    cases hg
    rfl
  settle := by
    rintro Γ g g' name T s _ hg ⟨log, rfl, hw⟩
    cases hg
    refine ⟨log, rfl, hw.computing, fun n hn ↦ hw.keys n (keys_settle s _ _ _ ▸ hn), fun d hd ↦ ?_,
      hw.tells⟩
    obtain ⟨d', hd', hnode⟩ := exists_of_mem_settle hd
    exact hnode ▸ hw.definesOnly d' hd'
  postpone := by
    rintro spot name declared value c _ s _ hdefines rfl ⟨log, rfl, hw⟩
    refine ⟨log, rfl, hw.computing, fun n hn ↦ ?_, fun d hd ↦ ?_, hw.tells⟩
    · rcases mem_keys_of_insert hn with rfl | hn
      · exact (hdefines _ (Expr.mem_parts_self _)).2 n rfl
      · exact hw.keys n hn
    · rcases OrdMap.mem_values_insert hd with rfl | hd
      · exact hdefines
      · exact hw.definesOnly d hd

/-! ## Asking for a definition -/

/-- `fetch` mirrors itself if the computations of waiting definitions do. -/
theorem mirrors_fetch {name : String} {step step' : Pending → Check Ty}
    (h : ∀ d s log, Watch N L past s log → s.computed.get? name = none → name ∉ L →
      s.definitions.get? name = some d → ∃ T s' log', (step d).run s = (.ok T, s') ∧
        (step' d).run { s with log := log } = (.ok T, { s' with log := log' }) ∧
          Watch N L past s' log') :
    Mirrors Never (Watching N L past) Eq (fetch name step) (fetch name step') := by
  refine .of_exists ?_
  rintro s _ ⟨log, rfl, hw⟩
  cases hcomputed : s.computed.get? name with
  | some T =>
    exact ⟨_, _, _, _, run_fetch_computed hcomputed, run_fetch_computed hcomputed, rfl, log,
      rfl, hw⟩
  | none =>
    by_cases hbusy : name ∈ s.computing
    · exact ⟨_, _, _, _, run_fetch_computing hcomputed hbusy,
        run_fetch_computing hcomputed hbusy, rfl,
        _, rfl, hw.computing, hw.keys, hw.definesOnly, hw.tells.other rfl⟩
    · cases hd : s.definitions.get? name with
      | none =>
        exact ⟨_, _, _, _, run_fetch_unknown hcomputed hbusy hd,
          run_fetch_unknown hcomputed hbusy hd,
          rfl, log, rfl, hw⟩
      | some d =>
        obtain ⟨T, s', log', hrun, hrun', hw'⟩ := h d s log hw hcomputed (hw.computing ▸ hbusy) hd
        exact ⟨_, _, _, _, run_fetch_waiting hcomputed hbusy hd hrun,
          run_fetch_waiting hcomputed hbusy hd hrun', rfl, log', rfl, hw'⟩

/-- If a definition waits that is not in `L`, then `L` does not have all names of `N`. -/
theorem length_lt_of_waiting {s : CheckerState} {name : String} {d : Pending}
    (hw : Watch N L past s log) (hL : L.Nodup) (hsub : L ⊆ N) (hname : name ∉ L)
    (hd : s.definitions.get? name = some d) : name ∈ N ∧ L.length < N.length := by
  have hmem : name ∈ N := hw.keys name (OrdMap.isSome_get?_iff.1 (by rw [hd]; rfl))
  exact ⟨hmem, (List.subperm_of_subset (List.nodup_cons.2 ⟨hname, hL⟩)
    (List.cons_subset.2 ⟨hmem, hsub⟩)).length_le⟩

theorem mirrors_compute (revision : Nat → Nat) {find find' : String → Check (Option Ty)}
    (h : ∀ name, Mirrors Never (Watching N L past) Eq (find name) (find' name)) {d : Pending}
    (hd : d.node.expr.All (Expr.DefinesOnly N)) :
    Mirrors Never (Watching N L past) Eq (compute ⟨revision, find⟩ d)
      (compute ⟨revision, find'⟩ d) := by
  have hstep := inStep_watching revision h
  refine hstep.compute rfl fun name value hexpr ↦ ?_
  rw [hexpr] at hd
  exact ⟨hstep.slotted (p := d.place) hd, fun _ _ ↦ trivial, hstep.children hd⟩

/-- A computation begins under a name that was not computed before. -/
theorem Watch.begin {s : CheckerState} {name : String} (hw : Watch N L past s log)
    (hcomputed : s.computed.get? name = none) (hname : name ∉ L) :
    Watching N (name :: L) past { s with computing := name :: s.computing }
      { s with
        computing := name :: s.computing
        log := log.push (.inferring (.var name)) } := by
  refine ⟨_, rfl, by rw [hw.computing], hw.keys, hw.definesOnly, ?_⟩
  refine (hw.tells.inferring name (by simp [hcomputed, hname])).congr fun n ↦ ?_
  rw [List.mem_cons, or_assoc]

/-- A computation ends, and its name has a type from then on. -/
theorem Watch.finish {s : CheckerState} {name : String}
    (hw : Watch N (name :: L) past s log) (T : Ty) :
    Watch N L past { s with
      computing := s.computing.erase name
      computed := s.computed.insert name T } log := by
  refine ⟨by simp [hw.computing], hw.keys, hw.definesOnly, hw.tells.congr fun n ↦ ?_⟩
  rw [OrdMap.get?_insert, List.mem_cons]
  by_cases hn : name = n
  · simp [hn]
  · simp [hn, Ne.symm hn]

/-- `typeOfDefinition` and `typeOfWatched` mirror each other, if `depth` is no less than the number
of names of `N` that are not in `L`. -/
theorem mirrors_typeOfWatched (revision : Nat → Nat) {depth : Nat} (hL : L.Nodup) (hsub : L ⊆ N)
    (hdepth : N.length ≤ depth + L.length) (name : String) :
    Mirrors Never (Watching N L past) Eq (typeOfDefinition revision depth name)
      (typeOfWatched revision depth name) := by
  induction depth generalizing L name with
  | zero =>
    refine mirrors_fetch fun d s log hw _ hname hd ↦ ?_
    have hlt := (length_lt_of_waiting hw hL hsub hname hd).2
    omega
  | succ depth ih =>
    refine mirrors_fetch fun d s log hw hcomputed hname hd ↦ ?_
    -- Under this name, one more name is being computed and one less is left.
    obtain ⟨hmem, -⟩ := length_lt_of_waiting hw hL hsub hname hd
    have hfind := ih (List.nodup_cons.2 ⟨hname, hL⟩) (List.cons_subset.2 ⟨hmem, hsub⟩)
      (by rw [List.length_cons]; omega)
    obtain ⟨T, s', _, _, hrun, hrun', rfl, log', rfl, hw'⟩ :=
      (mirrors_compute revision hfind (hw.definesOnly d (OrdMap.mem_values_of_get? hd))).exists_run
        (hw.begin hcomputed hname)
    refine ⟨T, _, log', run_marked hrun, ?_, hw'.finish T⟩
    exact run_marked (s := { s with log := log.push (.inferring (.var name)) }) hrun'

/-! ## Requests -/

/-- The requests to a checker. -/
inductive Request
  | addDefines (trees : List Tree)
  | typeAt (context : Env) (tree : Tree) (path : Path)

namespace Request

/-- The trees that a request is about. -/
def trees : Request → List Tree
  | .addDefines trees => trees
  | .typeAt _ tree _ => [tree]

/-- Performs a request.  There is a type if the request is for one. -/
def perform (r : Resolver) (base : Env) : Request → Check (Option Ty)
  | .addDefines trees => do
    Check.addDefines r base trees
    return none
  | .typeAt context tree path => some <$> Check.typeAt r context tree path

end Request

/-! ## Between two requests -/

/-- The names that `e` and the waiting definitions define. -/
def namesAround (s : CheckerState) (e : Expr) : List String :=
  s.definitions.keys ++ (s.definitions.values.flatMap fun d ↦ d.node.expr.definedNames) ++
    e.definedNames

/-- `nesting` is a bound for the number of names. -/
theorem length_namesAround_le (s : CheckerState) (e : Expr) :
    (namesAround s e).length ≤ nesting s + e.defineCount := by
  have hnesting : s.definitions.keys.length +
      (s.definitions.values.flatMap fun d ↦ d.node.expr.definedNames).length ≤ nesting s := by
    rw [nesting, ← List.sum_eq_foldl, OrdMap.keys, OrdMap.values]
    induction s.definitions.entries with
    | nil => simp
    | cons entry entries ih =>
      have hentry := Expr.length_definedNames_le entry.2.node.expr
      simp only [List.map_cons, List.flatMap_cons, List.length_cons, List.length_append,
        List.sum_cons] at ih ⊢
      omega
  have he := Expr.length_definedNames_le e
  simp only [namesAround, List.length_append]
  omega

/-- As `Watching`, where nothing is being computed. -/
def Idle (past : List Event) (s t : CheckerState) : Prop := ∃ N, Watching N [] past s t

/-- `namesAround s e` can be taken for `N`. -/
theorem Watch.around {s : CheckerState} (hw : Watch N [] past s log) (e : Expr) :
    Watch (namesAround s e) [] past s log := by
  refine ⟨hw.computing, fun name hname ↦ ?_, fun d hd ↦ ?_, hw.tells⟩
  · exact List.mem_append_left _ (List.mem_append_left _ hname)
  · refine Expr.all_definesOnly (fun q hq ↦ (hw.definesOnly d hd q hq).1) fun name hname ↦ ?_
    exact List.mem_append_left _ (List.mem_append_right _ (List.mem_flatMap.2 ⟨d, hd, hname⟩))

/-- A step that resolves names with the depth that `nesting` and `e` give. -/
theorem mirrors_nesting {α : Type} (revision : Nat → Nat) {e : Expr} (he : e.All Expr.Slotted)
    {step : (String → Check (Option Ty)) → Check α}
    (hstep : ∀ N find find', e.All (Expr.DefinesOnly N) →
      (∀ name, Mirrors Never (Watching N [] past) Eq (find name) (find' name)) →
      Mirrors Never (Watching N [] past) Eq (step find) (step find')) :
    Mirrors Never (Idle past) Eq
      (do step (typeOfDefinition revision (nesting (← get) + e.defineCount)))
      (do step (typeOfWatched revision (nesting (← get) + e.defineCount))) := by
  refine .of_exists ?_
  rintro s _ ⟨N, log, rfl, hw⟩
  -- `N` may be longer than the depth allows, so it is replaced before anything is computed.
  have hfind : ∀ name, Mirrors Never (Watching (namesAround s e) [] past) Eq _ _ :=
    mirrors_typeOfWatched revision List.nodup_nil (List.nil_subset _) (length_namesAround_le s e)
  have hdefines := Expr.all_definesOnly he (List.subset_append_right _ _ : _ ⊆ namesAround s e)
  obtain ⟨a, s', b, t', hrun, hrun', hab, hw'⟩ :=
    (hstep _ _ _ hdefines hfind).exists_run ⟨log, rfl, hw.around e⟩
  exact ⟨a, s', b, t', hrun, hrun', hab, _, hw'⟩

/-- The resolvers `r` and `r'` mirror each other on every request about trees with `A`, because they
do on roots and on names of definitions. -/
structure Serves (r r' : Resolver) (A : Tree → Prop) (R : CheckerState → CheckerState → Prop) :
    Prop where
  slotted : ∀ {tree : Tree}, A tree → tree.root.Slotted
  definitions : ∀ {s t : CheckerState}, R s t → t.definitions = s.definitions
  cached : ∀ {s t : CheckerState}, R s t → t.cache = s.cache
  report : ∀ {p : Place} {id : String} {s t : CheckerState}, R s t →
    R { s with errors := s.errors.insert p (.duplicateDefinition id) }
      { t with errors := t.errors.insert p (.duplicateDefinition id) }
  tell : ∀ {path : Path} {s t : CheckerState}, R s t →
    R { s with log := s.log.push (.noType path) } { t with log := t.log.push (.noType path) }
  typeOfRoot : ∀ (Γ : Env) {tree : Tree}, A tree →
    Mirrors Never R Eq (typeOfRoot r Γ tree) (typeOfRoot r' Γ tree)
  definitionType :
    ∀ name : String, Mirrors Never R Eq (definitionType r name) (definitionType r' name)

namespace Serves

variable {r r' : Resolver} {A : Tree → Prop} {R : CheckerState → CheckerState → Prop}

theorem computeNames (h : Serves r r' A R) (names : List String) :
    Mirrors Never R Eq (computeNames r names) (computeNames r' names) := by
  induction names with
  | nil => exact .pure rfl
  | cons name names ih => exact (h.definitionType name).next fun _ ↦ ih

theorem addDefine (h : Serves r r' A R) (base : Env) {tree : Tree} (ht : A tree)
    (hdefine : tree.root.isDefine) :
    Mirrors Never R Eq (addDefine r base tree) (addDefine r' base tree) := by
  rw [Check.addDefine, Check.addDefine]
  have htop := h.slotted ht
  split
  · rename_i name value hroot
    rw [hroot] at htop
    obtain ⟨id, hid⟩ := Option.isSome_iff_exists.1 htop
    rw [show identifier name = pure id by rw [identifier, hid], pure_bind, pure_bind]
    have hrest : Mirrors Never R Eq (do let _ ← Check.typeOfRoot r base tree)
        (do let _ ← Check.typeOfRoot r' base tree) :=
      (h.typeOfRoot base ht).next fun _ ↦ .pure rfl
    refine mirrors_get fun s t hst ↦ ?_
    rw [h.definitions hst]
    split
    · exact (mirrors_report fun s t ↦ h.report).next fun _ ↦ hrest
    · exact hrest
  · rename_i root hroot
    obtain ⟨name, value, heq⟩ := Expr.exists_define hdefine
    exact absurd heq (hroot name value)

theorem addDefines (h : Serves r r' A R) (base : Env) {trees : List Tree}
    (htrees : ∀ tree ∈ trees, A tree) :
    Mirrors Never R Eq (addDefines r base trees) (addDefines r' base trees) := by
  induction trees with
  | nil => exact .pure rfl
  | cons tree trees ih =>
    rw [List.forall_mem_cons] at htrees
    rw [Check.addDefines, Check.addDefines]
    split
    · rename_i hdefine
      exact (h.addDefine base htrees.1 hdefine).next fun _ ↦ ih htrees.2
    · exact ih htrees.2

theorem typeAt (h : Serves r r' A R) (Γ : Env) {tree : Tree} (ht : A tree) (path : Path) :
    Mirrors Never R Eq (typeAt r Γ tree path) (typeAt r' Γ tree path) := by
  rw [Check.typeAt, Check.typeAt]
  refine (h.typeOfRoot Γ ht).next fun _ ↦ ?_
  have hcompute : Mirrors Never R Eq (computeAll r) (computeAll r') := by
    refine mirrors_get fun s t hst ↦ ?_
    rw [h.definitions hst]
    exact h.computeNames _
  refine hcompute.next fun _ ↦ mirrors_get fun s t hst ↦ ?_
  rw [h.cached hst]
  cases s.cache.get? (tree.key path) with
  | some T => exact .pure rfl
  | none => exact (mirrors_modify fun s t ↦ h.tell).next fun _ ↦ .pure rfl

theorem perform (h : Serves r r' A R) (base : Env) {request : Request}
    (hrequest : ∀ tree ∈ request.trees, A tree) :
    Mirrors Never R Eq (request.perform r base) (request.perform r' base) := by
  cases request with
  | addDefines trees => exact (h.addDefines base hrequest).next fun _ ↦ .pure rfl
  | typeAt context tree path =>
    rw [Request.perform, Request.perform, map_eq_pure_bind, map_eq_pure_bind]
    exact (h.typeAt context (hrequest tree List.mem_cons_self) path).next fun _ ↦ .pure rfl

theorem requests (h : Serves r r' A R) (base : Env) {requests : List Request}
    (hrequests : ∀ request ∈ requests, ∀ tree ∈ request.trees, A tree) :
    Mirrors Never R Eq (requests.mapM (Request.perform r base))
      (requests.mapM (Request.perform r' base)) := by
  induction requests with
  | nil => exact .pure rfl
  | cons request requests ih =>
    rw [List.forall_mem_cons] at hrequests
    rw [List.mapM_cons, List.mapM_cons]
    exact (h.perform base hrequests.1).next fun _ ↦ (ih hrequests.2).next fun _ ↦ .pure rfl

end Serves

/-- `Resolver.onDemand` and `Resolver.watched` serve alike. -/
theorem serves_watched (revision : Nat → Nat) :
    Serves (.onDemand revision) (.watched revision) (·.root.All Expr.Slotted) (Idle past) where
  slotted h := (Expr.all_iff.1 h).1
  definitions := by
    rintro s _ ⟨N, log, rfl, -⟩
    rfl
  cached := by
    rintro s _ ⟨N, log, rfl, -⟩
    rfl
  report := by
    rintro p id s _ ⟨N, log, rfl, hw⟩
    exact ⟨N, log, rfl, hw.computing, hw.keys, hw.definesOnly, hw.tells⟩
  tell := by
    rintro path s _ ⟨N, log, rfl, hw⟩
    exact ⟨N, _, rfl, hw.computing, hw.keys, hw.definesOnly, hw.tells.other rfl⟩
  typeOfRoot Γ tree h := mirrors_nesting revision h fun _ _ _ hdefines hfind ↦
    (inStep_watching revision hfind).synth (fun _ _ ↦ trivial) _ _ _ _ rfl hdefines
  definitionType name := by
    have hhole : Expr.hole.All Expr.Slotted := by simp [Expr.All, Expr.parts, Expr.Slotted]
    exact mirrors_nesting revision hhole fun _ _ _ _ hfind ↦ hfind name

theorem idle_reset (s : CheckerState) : Idle s.log.toList s.reset s.reset :=
  ⟨[], s.log, rfl, rfl, fun _ h ↦ absurd h List.not_mem_nil, fun _ h ↦ absurd h List.not_mem_nil,
    [], by simp, by simp [begun], by simp [begun, CheckerState.reset, CheckerState.initial]⟩

/-- **Every request is answered.**  A checker that was reset returns for all requests about trees
that were read, and no computation is left unfinished.  With `Resolver.watched` it gives the same
answers and ends with the same types.  Since that would fail where computations are nested too deep,
they never are; and it records one computation for every name that has got a type. -/
theorem requests_answered {first : Nat} {source : String} {trees : List Tree}
    (hread : Tree.readAll first source = .ok trees) (revision : Nat → Nat) (base : Env)
    {requests : List Request} (hrequests : ∀ r ∈ requests, r.trees ⊆ trees) (s : CheckerState) :
    ∃ answers s' log events,
      (requests.mapM (Request.perform (.onDemand revision) base)).run s.reset = (.ok answers, s') ∧
      s'.computing = [] ∧
      (requests.mapM (Request.perform (.watched revision) base)).run s.reset =
        (.ok answers, { s' with log := log }) ∧
      log.toList = s.log.toList ++ events ∧ (begun events).Nodup ∧
      ∀ name, name ∈ begun events ↔ s'.computed.contains name := by
  have hslotted : ∀ r ∈ requests, ∀ tree ∈ r.trees, tree.root.All Expr.Slotted :=
    fun r hr tree ht ↦ Tree.slotted_of_readAll hread (hrequests r hr ht)
  obtain ⟨answers, s', _, _, hrun, hrun', rfl, N, log, rfl, hw⟩ :=
    ((serves_watched revision).requests base hslotted).exists_run (idle_reset s)
  obtain ⟨events, hlog, hnodup, hbegun⟩ := hw.tells
  refine ⟨answers, s', log, events, hrun, hw.computing, hrun', hlog, hnodup, fun name ↦ ?_⟩
  simpa [OrdMap.contains] using hbegun name

/-- Two definitions that need each other, one of them through a definition inside of it. -/
def circularTrees : List Tree := Tree.numbered 1 [
  .define (.binding "a" none) (.call (.var "b") []),
  .define (.binding "b" none)
    (.sequence [.define (.binding "c" none) (.var "a"), .call (.var "c") []])]

/-- The definitions are added, and then the types of both values are asked for. -/
def circularRequests : List Request :=
  .addDefines circularTrees :: circularTrees.map fun tree ↦ .typeAt ∅ tree [1]

theorem requests_answered_circular :
    Tree.readAll 1 "(define a (b)) (define b (begin (define c a) (c)))" = .ok circularTrees ∧
    (∀ r ∈ circularRequests, r.trees ⊆ circularTrees) ∧
    ∃ answers s' log events,
      (circularRequests.mapM (Request.perform (.onDemand fun _ ↦ 0) ∅)).run
        CheckerState.initial.reset = (.ok answers, s') ∧
      s'.computing = [] ∧
      (circularRequests.mapM (Request.perform (.watched fun _ ↦ 0) ∅)).run
        CheckerState.initial.reset = (.ok answers, { s' with log := log }) ∧
      log.toList = CheckerState.initial.log.toList ++ events ∧ (begun events).Nodup ∧
      ∀ name, name ∈ begun events ↔ s'.computed.contains name := by
  have hread : Tree.readAll 1 "(define a (b)) (define b (begin (define c a) (c)))" =
      .ok circularTrees := by decide +kernel
  have hrequests : ∀ r ∈ circularRequests, r.trees ⊆ circularTrees := by
    intro r hr
    rcases List.mem_cons.1 hr with rfl | hr
    · exact List.Subset.refl _
    · obtain ⟨tree, htree, rfl⟩ := List.mem_map.1 hr
      exact List.cons_subset.2 ⟨htree, List.nil_subset _⟩
  exact ⟨hread, hrequests, requests_answered hread (fun _ ↦ 0) ∅ hrequests .initial⟩

end Check

end SchemeTyping
