import SchemeTyping.Proofs.Checker.Layers

/-!
# Trees that are checked among others

A definition is computed when something first asks for it, in the middle of checking another tree.
In a `Layered` program this makes no difference to the other tree.  While it is checked, nothing
else changes its part of the cache and of the diagnostics, and whatever it asks for has the type of
an `Oracle`; so it ends up with what it gets when it is checked alone (`Scene.run_solo`).

A state of the checker is `Settled` if every tree that is not being checked is `Unchecked` or `Done`
in this sense.  Asking for a definition leads from one such state to another
(`Scene.answers_typeOfDefinition`).
-/

set_option autoImplicit false

namespace SchemeTyping

theorem OrdMap.mapValues_eq_self {κ α : Type} {f : α → α} {m : OrdMap κ α}
    (h : ∀ a ∈ m.values, f a = a) : m.mapValues f = m := by
  have hentries : (m.entries.map fun e ↦ (e.1, f e.2)) = m.entries.map id :=
    List.map_congr_left fun e he ↦ by rw [h e.2 (List.mem_map_of_mem he), id]
  rw [mapValues, hentries, List.map_id]

theorem Expr.isDefine_of_definedName? {e : Expr} {name : String} (h : e.definedName? = some name) :
    e.isDefine := by
  cases e with
  | define => rfl
  | _ => cases h

namespace Check

open Ty

/-! ## The part of a tree -/

/-- The states have the same types and diagnostics for `tree`. -/
structure SameSlice (tree : Tree) (s t : CheckerState) : Prop where
  cache : ∀ path, s.cache.get? (tree.key path) = t.cache.get? (tree.key path)
  errors : ∀ path, s.errors.get? ⟨tree.number, path⟩ = t.errors.get? ⟨tree.number, path⟩

/-- The states differ in types and diagnostics for `tree` only. -/
structure Elsewhere (tree : Tree) (s t : CheckerState) : Prop where
  computing : t.computing = s.computing
  definitions : t.definitions = s.definitions
  computed : t.computed = s.computed
  cache : ∀ key : CacheKey, key.tree ≠ tree.number → t.cache.get? key = s.cache.get? key
  errors : ∀ p : Place, p.tree ≠ tree.number → t.errors.get? p = s.errors.get? p

variable {tree tree' : Tree} {s t u : CheckerState}

theorem SameSlice.refl (tree : Tree) (s : CheckerState) : SameSlice tree s s :=
  ⟨fun _ ↦ rfl, fun _ ↦ rfl⟩

theorem SameSlice.trans (h : SameSlice tree s t) (h' : SameSlice tree t u) : SameSlice tree s u :=
  ⟨fun path ↦ (h.cache path).trans (h'.cache path),
    fun path ↦ (h.errors path).trans (h'.errors path)⟩

theorem SameSlice.record (h : SameSlice tree s t) (path : Path) (T : Ty) :
    SameSlice tree { s with cache := s.cache.insert (tree.key path) T }
      { t with cache := t.cache.insert (tree.key path) T } :=
  ⟨fun path' ↦ by rw [OrdMap.get?_insert, OrdMap.get?_insert, h.cache], h.errors⟩

theorem SameSlice.report (h : SameSlice tree s t) (p : Place) (d : Diagnostic) :
    SameSlice tree { s with errors := s.errors.insert p d }
      { t with errors := t.errors.insert p d } :=
  ⟨h.cache, fun path ↦ by rw [OrdMap.get?_insert, OrdMap.get?_insert, h.errors]⟩

theorem Elsewhere.sameSlice (h : Elsewhere tree s t) (hne : tree'.number ≠ tree.number) :
    SameSlice tree' t s :=
  ⟨fun _ ↦ h.cache _ hne, fun _ ↦ h.errors _ hne⟩

theorem elsewhere_record (tree : Tree) (s : CheckerState) (path : Path) (T : Ty) :
    Elsewhere tree s { s with cache := s.cache.insert (tree.key path) T } where
  computing := rfl
  definitions := rfl
  computed := rfl
  cache key hkey := by
    rw [OrdMap.get?_insert, if_neg]
    rintro rfl
    exact hkey rfl
  errors _ _ := rfl

theorem elsewhere_report {p : Place} (hp : p.tree = tree.number) (s : CheckerState)
    (d : Diagnostic) :
    Elsewhere tree s { s with errors := s.errors.insert p d } where
  computing := rfl
  definitions := rfl
  computed := rfl
  cache _ _ := rfl
  errors p' hp' := by
    rw [OrdMap.get?_insert, if_neg]
    rintro rfl
    exact hp' hp

/-! ## Settled states -/

/-- The waiting definitions are those at the roots of the trees, in a context that does not
change. -/
structure Awaiting (base : Env) (trees : List Tree)
    (definitions : OrdMap String Pending) : Prop where
  waits : ∀ tree ∈ trees, ∀ slot value name, tree.root = .define slot value →
    slot.identifier? = some name →
    definitions.get? name = some (waiting (.fixed base) ⟨tree.rootPlace, true⟩ slot value)
  known : ∀ name, (definitions.get? name).isSome →
    ∃ tree ∈ trees, tree.root.definedName? = some name
  fixed : ∀ d ∈ definitions.values, d.context.group = none

/-- A layered program with its waiting definitions, an oracle and ranks. -/
structure Scene where
  revision : Nat → Nat
  base : Env
  trees : List Tree
  definitions : OrdMap String Pending
  table : String → Option Ty
  rank : String → Nat
  layered : Layered trees
  current : ∀ tree ∈ trees, revision tree.number = tree.revision
  oracle : Oracle revision base trees table
  descends : ∀ name mentioned, Needs trees name mentioned → rank mentioned < rank name
  awaiting : Awaiting base trees definitions

/-- Nothing is known of `tree` yet. -/
structure Unchecked (tree : Tree) (s : CheckerState) : Prop where
  slice : SameSlice tree s (untouched tree)
  computed : ∀ name, tree.root.definedName? = some name → s.computed.get? name = none

namespace Scene

/-- The outcome of checking `tree` alone. -/
def alone (P : Scene) (tree : Tree) : Except Fault Ty × CheckerState :=
  Check.alone P.revision P.base P.table tree

/-- What is known of `tree` is what there is when it is checked alone. -/
structure Done (P : Scene) (tree : Tree) (s : CheckerState) : Prop where
  slice : SameSlice tree s (P.alone tree).2
  root : (s.cache.get? (tree.key [])).isSome
  computed : ∀ name, tree.root.definedName? = some name →
    (P.table name).isSome ∧ s.computed.get? name = P.table name

/-- The types of `L` are being computed, and the trees of `B` are being checked.  Every other tree
is `Unchecked` or `Done`. -/
structure Settled (P : Scene) (L : List String) (B : List Tree) (s : CheckerState) : Prop where
  computing : s.computing = L
  definitions : s.definitions = P.definitions
  others : ∀ tree ∈ P.trees, tree ∉ B → Unchecked tree s ∨ P.Done tree s
  computed : ∀ name, (s.computed.get? name).isSome →
    ∃ tree ∈ P.trees, tree.root.definedName? = some name
  outside : ∀ p : Place, (∀ tree ∈ P.trees, tree.number ≠ p.tree) → s.errors.get? p = none

/-- A tree that is `Done` in `s` is so in `t`, and the trees of `B` are left alone. -/
structure Kept (P : Scene) (B : List Tree) (s t : CheckerState) : Prop where
  done : ∀ tree ∈ P.trees, tree ∉ B → P.Done tree s → P.Done tree t
  busy : ∀ tree ∈ B, SameSlice tree t s

/-- `tree` is being checked since the state `start`, with the state `s`; `t` is the state of a check
of `tree` alone. -/
structure Running (P : Scene) (L : List String) (B : List Tree) (tree : Tree)
    (start s t : CheckerState) : Prop where
  slice : SameSlice tree s t
  root : tree.root.isDefine → (t.cache.get? (tree.key [])).isSome
  settled : P.Settled L (tree :: B) s
  done : ∀ tree' ∈ P.trees, tree' ∉ tree :: B → P.Done tree' start → P.Done tree' s
  busy : ∀ tree' ∈ B, SameSlice tree' s start

/-- `find` gives the oracle's types for names with `V`, and leaves the trees of `B` alone. -/
def Supplies (P : Scene) (L : List String) (B : List Tree) (find : String → Check (Option Ty))
    (V : String → Prop) : Prop :=
  ∀ name, V name → ∀ s, P.Settled L B s → ∃ s',
    (find name).run s = (.ok (P.table name), s') ∧ P.Settled L B s' ∧ P.Kept B s s'

end Scene

variable {P : Scene} {L : List String} {B : List Tree} {start : CheckerState} {name : String}

/-- The states know the same of `tree`. -/
structure SameTree (tree : Tree) (s t : CheckerState) : Prop extends SameSlice tree s t where
  computed : ∀ name, tree.root.definedName? = some name →
    s.computed.get? name = t.computed.get? name

theorem SameTree.of_eq (hcache : s.cache = t.cache) (herrors : s.errors = t.errors)
    (hcomputed : s.computed = t.computed) : SameTree tree s t :=
  ⟨⟨fun _ ↦ by rw [hcache], fun _ ↦ by rw [herrors]⟩, fun _ _ ↦ by rw [hcomputed]⟩

theorem Elsewhere.sameTree (h : Elsewhere tree s t) (hne : tree'.number ≠ tree.number) :
    SameTree tree' t s :=
  ⟨h.sameSlice hne, fun _ _ ↦ by rw [h.computed]⟩

theorem sameTree_insert (hname : tree.root.definedName? ≠ some name) (T : Ty) (s : CheckerState)
    (computing : List String) :
    SameTree tree { s with computing := computing, computed := s.computed.insert name T } s :=
  ⟨⟨fun _ ↦ rfl, fun _ ↦ rfl⟩, fun n hn ↦ by
    rw [OrdMap.get?_insert, if_neg (by rintro rfl; exact hname hn)]⟩

theorem Unchecked.of_same (h : Unchecked tree s) (hst : SameTree tree t s) : Unchecked tree t :=
  ⟨hst.trans h.slice, fun name hname ↦ (hst.computed name hname).trans (h.computed name hname)⟩

namespace Scene

theorem Done.of_same (h : P.Done tree s) (hst : SameTree tree t s) : P.Done tree t :=
  ⟨hst.trans h.slice, hst.cache [] ▸ h.root,
    fun name hname ↦ hst.computed name hname ▸ h.computed name hname⟩

theorem number_ne (ht : tree ∈ P.trees) (ht' : tree' ∈ P.trees) (h : tree' ≠ tree) :
    tree'.number ≠ tree.number :=
  fun heq ↦ h (P.layered.eq_of_number ht' ht heq)

theorem Settled.elsewhere (h : P.Settled L (tree :: B) s) (ht : tree ∈ P.trees)
    (hst : Elsewhere tree s t) : P.Settled L (tree :: B) t where
  computing := hst.computing.trans h.computing
  definitions := hst.definitions.trans h.definitions
  others tree' ht' hB := by
    have hsame := hst.sameTree (number_ne ht ht' (List.ne_of_not_mem_cons hB))
    exact (h.others tree' ht' hB).imp (·.of_same hsame) (·.of_same hsame)
  computed := hst.computed ▸ h.computed
  outside p hp := (hst.errors p (hp tree ht).symm).trans (h.outside p hp)

/-- A step that changes only the part of the tree being checked. -/
theorem Running.elsewhere {v : CheckerState} (h : P.Running L B tree start s u)
    (ht : tree ∈ P.trees) (hB : ∀ tree' ∈ B, tree' ∈ P.trees ∧ tree' ≠ tree)
    (hst : Elsewhere tree s t) (hslice : SameSlice tree t v)
    (hroot : tree.root.isDefine → (v.cache.get? (tree.key [])).isSome) :
    P.Running L B tree start t v where
  slice := hslice
  root := hroot
  settled := h.settled.elsewhere ht hst
  done tree' ht' hB' hdone :=
    (h.done tree' ht' hB' hdone).of_same
      (hst.sameTree (number_ne ht ht' (List.ne_of_not_mem_cons hB')))
  busy tree' ht' := by
    obtain ⟨hmem, hne⟩ := hB tree' ht'
    exact (hst.sameSlice (number_ne ht hmem hne)).trans (h.busy tree' ht')

/-- Definitions that wait at roots are not part of a `letrec`. -/
theorem Settled.settle (h : P.Settled L B s) (g : Nat) (name : String) (T : Ty) :
    s.settle (some g) name T = s := by
  have hsame : (s.settle (some g) name T).definitions = s.definitions := by
    rw [CheckerState.settle, h.definitions]
    dsimp only
    refine OrdMap.mapValues_eq_self fun d hd ↦ if_neg ?_
    rw [P.awaiting.fixed d hd]
    exact Option.some_ne_none g ∘ Eq.symm
  exact congrArg (fun definitions ↦ { s with definitions := definitions }) hsame

/-- The rules are `InStep` for a tree that is checked among others and the same tree alone, if
`find` `Supplies` the names that they ask for. -/
theorem inStep (ht : tree ∈ P.trees) (hB : ∀ tree' ∈ B, tree' ∈ P.trees ∧ tree' ≠ tree)
    {find : String → Check (Option Ty)} {V : String → Prop}
    (hfind : P.Supplies L (tree :: B) find V) :
    InStep ⟨P.revision, find⟩ (tabled P.revision P.table) (Clear (Ours tree)) V
      (P.Running L B tree start) (fun c c' ↦ c'.types = c.types) where
  slotted := Clear.slotted
  children hp := hp.children hp.1.child
  revision _ := rfl
  cached hp h := by rw [keyAt_eq (P.current tree ht) hp.1.1, h.slice.cache]
  record := by
    intro p e T s t hp h
    rw [keyAt_eq (P.current tree ht) hp.1.1]
    refine h.elsewhere ht hB (elsewhere_record tree s p.path T) (h.slice.record p.path T)
      fun hd ↦ ?_
    rw [OrdMap.get?_insert]
    split
    · rfl
    · exact h.root hd
  report := by
    intro p e d s t hp _ h
    exact h.elsewhere ht hB (elsewhere_report hp.1.1 s d) (h.slice.report p d) h.root
  typeOf := by
    refine fun {name} hname ↦ .of_exists fun s t h ↦ ?_
    obtain ⟨s', hrun, hsettled, hkept⟩ := hfind name hname s h.settled
    refine ⟨_, s', _, t, hrun, rfl, rfl, (hkept.busy tree List.mem_cons_self).trans h.slice, h.root,
      hsettled, fun tree' ht' hB' hdone ↦ ?_, fun tree' ht' ↦ ?_⟩
    · exact hkept.done tree' ht' hB' (h.done tree' ht' hB' hdone)
    · exact (hkept.busy tree' (List.mem_cons_of_mem _ ht')).trans (h.busy tree' ht')
  types h := h
  fixed _ := rfl
  newGroup := by
    intro Γ s t h
    exact ⟨h.elsewhere ht hB ⟨rfl, rfl, rfl, fun _ _ ↦ rfl, fun _ _ ↦ rfl⟩
      ⟨h.slice.cache, h.slice.errors⟩ h.root, rfl⟩
  insert _ _ _ := rfl
  settle := by
    intro Γ g g' name T s t _ h
    rw [h.settled.settle]
    exact ⟨⟨h.slice.cache, h.slice.errors⟩, h.root, h.settled, h.done, h.busy⟩
  postpone hp := absurd rfl hp.2.not_isDefine

/-- A tree that is checked among others ends up with what it gets when it is checked alone. -/
theorem run_solo (ht : tree ∈ P.trees) (hB : ∀ tree' ∈ B, tree' ∈ P.trees ∧ tree' ≠ tree)
    {find : String → Check (Option Ty)} {V : String → Prop}
    (hfind : P.Supplies L (tree :: B) find V) (hV : ∀ name, .var name ∈ tree.root.parts → V name)
    (hs : P.Settled L (tree :: B) s) (hslice : SameSlice tree s (untouched tree)) :
    ∃ T s', (solo ⟨P.revision, find⟩ P.base tree).run s = (.ok T, s') ∧ (P.alone tree).1 = .ok T ∧
      P.Running L B tree s s' (P.alone tree).2 := by
  have hstart : P.Running L B tree s s (untouched tree) := by
    refine ⟨hslice, fun hd ↦ ?_, hs, fun _ _ _ ↦ id, fun tree' _ ↦ .refl tree' s⟩
    rw [untouched, if_pos hd, OrdMap.get?_insert_self]
    rfl
  obtain ⟨T, s', _, t, hrun, hrun', rfl, h⟩ :=
    (P.layered.mirrors_solo ht (inStep ht hB hfind) P.base hV).exists_run hstart
  have halone : P.alone tree = (.ok T, t) := hrun'
  exact ⟨T, s', hrun, by rw [halone], by rw [halone]; exact h⟩

/-! ## Asking for a definition -/

/-- The trees of `B` are among those of the program, and the names that they define are in `L`. -/
def Busy (P : Scene) (L : List String) (B : List Tree) : Prop :=
  ∀ tree ∈ B, tree ∈ P.trees ∧ ∀ name, tree.root.definedName? = some name → name ∈ L

/-- `x` gives the oracle's type for `name`, and the tree that defines it is `Done` after that. -/
def Answers (P : Scene) (L : List String) (B : List Tree) (name : String) (x : Check (Option Ty))
    (s : CheckerState) : Prop :=
  ∃ s', x.run s = (.ok (P.table name), s') ∧ P.Settled L B s' ∧ P.Kept B s s' ∧
    ∀ tree ∈ P.trees, tree.root.definedName? = some name → P.Done tree s'

theorem key_mem (ht : tree ∈ P.trees) (hdefines : tree.root.definedName? = some name) :
    name ∈ P.definitions.keys := by
  obtain ⟨declared, value, hroot⟩ := P.layered.exists_root ht hdefines
  exact OrdMap.isSome_get?_iff.1 (by rw [P.awaiting.waits tree ht _ _ name hroot rfl]; rfl)

theorem Busy.cons (hB : P.Busy L B) (ht : tree ∈ P.trees)
    (hdefines : tree.root.definedName? = some name) : P.Busy (name :: L) (tree :: B) := by
  refine List.forall_mem_cons.2
    ⟨⟨ht, fun n hn ↦ ?_⟩, fun tree' ht' ↦ ⟨(hB tree' ht').1, fun n hn ↦ ?_⟩⟩
  · cases hdefines.symm.trans hn
    exact List.mem_cons_self
  · exact List.mem_cons_of_mem _ ((hB tree' ht').2 n hn)

theorem Kept.refl (P : Scene) (B : List Tree) (s : CheckerState) : P.Kept B s s :=
  ⟨fun _ _ _ ↦ id, fun tree _ ↦ .refl tree s⟩

theorem Kept.trans (h : P.Kept B s t) (h' : P.Kept B t u) : P.Kept B s u :=
  ⟨fun tree ht hB ↦ h'.done tree ht hB ∘ h.done tree ht hB,
    fun tree ht ↦ (h'.busy tree ht).trans (h.busy tree ht)⟩

/-- `fetch` answers: the definition is done or unknown, or `step` computes its type. -/
theorem answers_fetch {step : Pending → Check Ty} (hs : P.Settled L B s) (hB : P.Busy L B)
    (hname : name ∉ L)
    (hstep : ∀ tree ∈ P.trees, tree ∉ B → tree.root.definedName? = some name → Unchecked tree s →
      ∀ slot value, tree.root = .define slot value → ∃ T s',
        (step (waiting (.fixed P.base) ⟨tree.rootPlace, true⟩ slot value)).run s = (.ok T, s') ∧
        P.table name = some T ∧ P.Settled L B s' ∧ P.Kept B s s' ∧ P.Done tree s') :
    P.Answers L B name (fetch name step) s := by
  have hcomputing : name ∉ s.computing := hs.computing ▸ hname
  by_cases hdef : ∃ tree ∈ P.trees, tree.root.definedName? = some name
  · obtain ⟨tree, ht, hdefines⟩ := hdef
    have htB : tree ∉ B := fun h ↦ hname ((hB tree h).2 name hdefines)
    have honly : ∀ tree' ∈ P.trees, tree'.root.definedName? = some name → tree = tree' :=
      fun tree' ht' hdefines' ↦ P.layered.eq_of_name ht ht' hdefines hdefines'
    rcases hs.others tree ht htB with hunchecked | hdone
    · obtain ⟨declared, value, hroot⟩ := P.layered.exists_root ht hdefines
      obtain ⟨T, s', hrun, htable, hs', hkept, hdone⟩ :=
        hstep tree ht htB hdefines hunchecked _ _ hroot
      have hwaits := P.awaiting.waits tree ht _ _ name hroot rfl
      refine ⟨s', ?_, hs', hkept, fun tree' ht' h' ↦ honly tree' ht' h' ▸ hdone⟩
      rw [htable]
      exact run_fetch_waiting (hunchecked.computed name hdefines) hcomputing
        (hs.definitions ▸ hwaits) hrun
    · obtain ⟨hsome, hcomputed⟩ := hdone.computed name hdefines
      obtain ⟨T, hT⟩ := Option.isSome_iff_exists.1 hsome
      refine ⟨s, ?_, hs, .refl P B s, fun tree' ht' h' ↦ honly tree' ht' h' ▸ hdone⟩
      rw [hT]
      exact run_fetch_computed (hcomputed.trans hT)
  · have hcomputed : s.computed.get? name = none :=
      Option.not_isSome_iff_eq_none.1 fun h ↦ hdef (hs.computed name h)
    have hwaits : s.definitions.get? name = none :=
      hs.definitions ▸ Option.not_isSome_iff_eq_none.1 fun h ↦ hdef (P.awaiting.known name h)
    refine ⟨s, ?_, hs, .refl P B s, fun tree ht h ↦ absurd ⟨tree, ht, h⟩ hdef⟩
    rw [P.oracle.undefined name fun tree ht h ↦ hdef ⟨tree, ht, h⟩]
    exact run_fetch_unknown hcomputed hcomputing hwaits

theorem Settled.begin (h : P.Settled L B s) (name : String) (tree : Tree) :
    P.Settled (name :: L) (tree :: B) { s with computing := name :: s.computing } where
  computing := congrArg _ h.computing
  definitions := h.definitions
  others tree' ht' hB := (h.others tree' ht' fun hmem ↦ hB (List.mem_cons_of_mem _ hmem)).imp
    (·.of_same (.of_eq rfl rfl rfl)) (·.of_same (.of_eq rfl rfl rfl))
  computed := h.computed
  outside := h.outside

/-- The type of a definition is computed, and its tree is `Done`. -/
theorem run_marked_solo (ht : tree ∈ P.trees) (hdefines : tree.root.definedName? = some name)
    (hB : ∀ tree' ∈ B, tree' ∈ P.trees ∧ tree' ≠ tree) {find : String → Check (Option Ty)}
    {V : String → Prop} (hfind : P.Supplies (name :: L) (tree :: B) find V)
    (hV : ∀ n, .var n ∈ tree.root.parts → V n) (hs : P.Settled L B s)
    (hunchecked : Unchecked tree s) :
    ∃ T s', (marked name (solo ⟨P.revision, find⟩ P.base tree)).run s = (.ok T, s') ∧
      P.table name = some T ∧ P.Settled L B s' ∧ P.Kept B s s' ∧ P.Done tree s' := by
  obtain ⟨T, s', hrun, halone, h⟩ := run_solo ht hB hfind hV (hs.begin name tree)
    ⟨hunchecked.slice.cache, hunchecked.slice.errors⟩
  have htable : P.table name = some T := by
    rw [P.oracle.defined tree ht name hdefines]
    exact congrArg Except.toOption halone
  have hsame : ∀ tree' ∈ P.trees, tree' ≠ tree → SameTree tree' { s' with
      computing := s'.computing.erase name
      computed := s'.computed.insert name T } s' := fun tree' ht' hne ↦
    sameTree_insert (fun hdefines' ↦ hne (P.layered.eq_of_name ht' ht hdefines' hdefines)) T s' _
  have hdone : P.Done tree { s' with
      computing := s'.computing.erase name
      computed := s'.computed.insert name T } := by
    refine ⟨⟨h.slice.cache, h.slice.errors⟩, ?_, fun n hn ↦ ?_⟩
    · rw [h.slice.cache]
      exact h.root (Expr.isDefine_of_definedName? hdefines)
    · cases hdefines.symm.trans hn
      rw [OrdMap.get?_insert_self, htable]
      exact ⟨rfl, rfl⟩
  -- All other trees are as the check has left them, because the new type is for this tree's name.
  refine ⟨T, _, run_marked hrun, htable,
    ⟨?_, h.settled.definitions, fun tree' ht' htB ↦ ?_, fun n hn ↦ ?_,
    h.settled.outside⟩, ⟨fun tree' ht' htB hdone' ↦ ?_, fun tree' ht' ↦ ?_⟩, hdone⟩
  · rw [h.settled.computing, List.erase_cons_head]
  · by_cases hne : tree' = tree
    · exact .inr (hne ▸ hdone)
    · exact (h.settled.others tree' ht' (List.not_mem_cons_of_ne_of_not_mem hne htB)).imp
        (·.of_same (hsame tree' ht' hne)) (·.of_same (hsame tree' ht' hne))
  · rw [OrdMap.get?_insert] at hn
    split at hn
    · rename_i heq
      exact ⟨tree, ht, heq ▸ hdefines⟩
    · exact h.settled.computed n hn
  · by_cases hne : tree' = tree
    · exact hne ▸ hdone
    · exact (h.done tree' ht' (List.not_mem_cons_of_ne_of_not_mem hne htB)
        (hdone'.of_same (.of_eq rfl rfl rfl))).of_same (hsame tree' ht' hne)
  · exact ⟨(h.busy tree' ht').cache, (h.busy tree' ht').errors⟩

/-- A definition whose rank is less than those being computed has the type of the oracle.  The
induction is on `depth`, which is never used up. -/
theorem answers_typeOfDefinition {depth : Nat} (hL : L.Nodup) (hsub : L ⊆ P.definitions.keys)
    (hdepth : P.definitions.keys.length ≤ depth + L.length) (hB : P.Busy L B)
    (hname : ∀ n ∈ L, P.rank name < P.rank n) (hs : P.Settled L B s) :
    P.Answers L B name (typeOfDefinition P.revision depth name) s := by
  have hnotin : name ∉ L := fun h ↦ Nat.lt_irrefl _ (hname name h)
  induction depth generalizing L B s name with
  | zero =>
    refine answers_fetch hs hB hnotin fun tree ht _ hdefines _ slot value hroot ↦ ?_
    have hkey := key_mem ht hdefines
    have hlt := (List.subperm_of_subset (List.nodup_cons.2 ⟨hnotin, hL⟩)
      (List.cons_subset.2 ⟨hkey, hsub⟩)).length_le
    rw [List.length_cons] at hlt
    omega
  | succ depth ih =>
    refine answers_fetch hs hB hnotin fun tree ht htB hdefines hunchecked slot value hroot ↦ ?_
    have hkey := key_mem ht hdefines
    have hsolo : ∀ w, compute w (waiting (.fixed P.base) ⟨tree.rootPlace, true⟩ slot value) =
        solo w P.base tree := by
      intro w
      simp only [solo, hroot]
    rw [hsolo]
    -- What the tree mentions is below its own name, and so below all names being computed.
    refine run_marked_solo (V := fun n ↦ ∀ m ∈ name :: L, P.rank n < P.rank m) ht hdefines
      (fun tree' ht' ↦ ⟨(hB tree' ht').1, fun heq ↦ htB (heq ▸ ht')⟩) (fun n hn s hs ↦ ?_)
      (fun n hn ↦ ?_) hs hunchecked
    · obtain ⟨s', hrun, hs', hkept, -⟩ := ih (List.nodup_cons.2 ⟨hnotin, hL⟩)
        (List.cons_subset.2 ⟨hkey, hsub⟩) (by rw [List.length_cons]; omega)
          (hB.cons ht hdefines) hn hs
        (fun h ↦ Nat.lt_irrefl _ (hn n h))
      exact ⟨s', hrun, hs', hkept⟩
    · have hlt := P.descends name n (P.layered.needs ht hdefines hn)
      refine List.forall_mem_cons.2 ⟨hlt, fun m hm ↦ Nat.lt_trans hlt (hname m hm)⟩

end Scene

end Check

end SchemeTyping
