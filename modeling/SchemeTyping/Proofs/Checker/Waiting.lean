import Mathlib.Data.List.Nodup
import SchemeTyping.Proofs.Checker.Invariants
import SchemeTyping.Proofs.Checker.OnDemand
import SchemeTyping.Proofs.Tree

/-!
# Waiting definitions

A session adds the definitions among its trees, and then asks for the type of every tree.  Each
query computes the waiting definitions after it has found the type of the root.  Definitions in the
value of a definition are met when that value is typed, and so the innermost ones are computed by
later queries. `dueAt` is the number of the query that computes a definition at the latest.

The last query does not compute what it meets on the way.  A definition that is due later may be
left without a type, and its value unchecked (`nested_definition_unchecked`); all others are
computed (`definitions_computed`).
-/

set_option autoImplicit false

namespace SchemeTyping

namespace Expr

/-- The name of a definition that is not a hole. -/
def defines? : Expr → Option String
  | .define name _ => name.name?
  | _ => none

/-- The number of definitions with names around the path. -/
def enclosing (e : Expr) : Path → Nat
  | [] => 0
  | i :: path => (if e.defines?.isSome then 1 else 0) + (e.child? i).elim 0 (·.enclosing path)

theorem at?_child {e q : Expr} {path : Path} (h : e.at? path = some q) (i : Nat) :
    e.at? (path.child i) = q.children[i]? := by
  rw [Path.child, at?_concat, h, Option.bind_some, child?_natCast]

theorem enclosing_child {e q : Expr} {path : Path} (h : e.at? path = some q) (i : Nat) :
    e.enclosing (path.child i) = e.enclosing path + if q.defines?.isSome then 1 else 0 := by
  induction path generalizing e with
  | nil =>
    cases h
    cases hc : q.child? i <;> simp [Path.child, enclosing, hc]
  | cons j path ih =>
    obtain ⟨c, hc, hq⟩ := Option.bind_eq_some_iff.1 h
    have := ih hq
    rw [Path.child, List.cons_append, enclosing, enclosing, hc, Option.elim_some, Option.elim_some]
    rw [Path.child] at this
    omega

theorem mem_parts_of_at? {e q : Expr} {path : Path} (h : e.at? path = some q) : q ∈ e.parts := by
  induction path generalizing e with
  | nil =>
    cases h
    exact mem_parts_self q
  | cons j path ih =>
    obtain ⟨c, hc, hq⟩ := Option.bind_eq_some_iff.1 h
    rw [child?] at hc
    split at hc
    · cases hc
    · rw [parts_eq]
      exact List.mem_cons_of_mem _ (List.mem_flatMap.2 ⟨c, List.mem_of_getElem? hc, ih hq⟩)

/-- A definition with a name has it in a slot. -/
theorem exists_binding_of_defines? {e : Expr} {name : String} (h : e.defines? = some name)
    (he : e.Slotted) : ∃ declared value, e = .define (.binding name declared) value := by
  cases e with
  | define slot value =>
    cases slot with
    | binding id declared =>
      cases h
      exact ⟨declared, value, rfl⟩
    | var => cases he
    | _ => cases h
  | _ => cases h

end Expr

namespace Check

open Ty

/-! ## Places of trees -/

section

variable {trees : List Tree} {p : Place} {e : Expr}

/-- The tree with the given number, and its position in `trees`. -/
def listed (trees : List Tree) (number : Nat) : Option (Tree × Nat) :=
  trees.zipIdx.find? (·.1.number == number)

/-- The expression at a place of the trees. -/
def standing (trees : List Tree) (p : Place) : Option Expr :=
  (listed trees p.tree).bind (·.1.root.at? p.path)

/-- The number, from one on, of the query that computes a definition at a place: that of its tree,
or one if the tree is itself a definition, and one more for every definition around the place. -/
def dueAt (trees : List Tree) (p : Place) : Nat :=
  (listed trees p.tree).elim 0 fun entry ↦
    (if entry.1.root.isDefine then 1 else entry.2 + 1) + entry.1.root.enclosing p.path

theorem listed_eq {tree : Tree} {i : Nat} (hnumbers : (trees.map Tree.number).Nodup)
    (h : trees[i]? = some tree) : listed trees tree.number = some (tree, i) := by
  obtain ⟨hi, hget⟩ := List.getElem?_eq_some_iff.1 h
  rw [listed, List.find?_eq_some_iff_getElem]
  refine ⟨by simp, i, by simpa using hi, by simp [hget], fun j hj ↦ ?_⟩
  have hne : ¬ (trees[j].number = tree.number) := fun heq ↦ by
    have hvalues : (trees.map Tree.number)[j]? = (trees.map Tree.number)[i]? := by
      simp [h, heq, hj.trans hi]
    exact hj.ne ((List.getElem?_inj (by rw [List.length_map]; exact hj.trans hi) hnumbers).1
      hvalues)
  simpa using hne

theorem standing_root {tree : Tree} {i : Nat} (hnumbers : (trees.map Tree.number).Nodup)
    (h : trees[i]? = some tree) : standing trees tree.rootPlace = some tree.root := by
  rw [standing, Tree.rootPlace, listed_eq hnumbers h]
  rfl

theorem standing_child (h : standing trees p = some e) (i : Nat) :
    standing trees (p.child i) = e.children[i]? := by
  obtain ⟨entry, hentry, he⟩ := Option.bind_eq_some_iff.1 h
  rw [standing, Place.child, hentry]
  exact Expr.at?_child he i

theorem dueAt_child (h : standing trees p = some e) (i : Nat) :
    dueAt trees (p.child i) = dueAt trees p + if e.defines?.isSome then 1 else 0 := by
  obtain ⟨entry, hentry, he⟩ := Option.bind_eq_some_iff.1 h
  rw [dueAt, dueAt, Place.child, hentry, Option.elim_some, Option.elim_some,
    Expr.enclosing_child he,
    Nat.add_assoc]

theorem slotted_of_standing (htrees : ∀ tree ∈ trees, tree.root.All Expr.Slotted)
    (h : standing trees p = some e) : e.Slotted := by
  obtain ⟨entry, hentry, he⟩ := Option.bind_eq_some_iff.1 h
  have hmem := (List.mem_zipIdx (List.mem_of_find?_eq_some hentry)).2.2
  exact htrees _ (hmem ▸ List.getElem_mem _) e (Expr.mem_parts_of_at? he)

theorem one_le_dueAt (h : standing trees p = some e) : 1 ≤ dueAt trees p := by
  obtain ⟨entry, hentry, -⟩ := Option.bind_eq_some_iff.1 h
  rw [dueAt, hentry, Option.elim_some]
  split <;> omega

end

/-! ## Accounts of waiting definitions -/

/-- `s'` has a type for every name and every key for which `s` has one. -/
structure Grows (s s' : CheckerState) : Prop where
  computed : ∀ name, (s.computed.get? name).isSome → (s'.computed.get? name).isSome
  cache : ∀ key, (s.cache.get? key).isSome → (s'.cache.get? key).isSome

theorem Grows.refl (s : CheckerState) : Grows s s := ⟨fun _ ↦ id, fun _ ↦ id⟩

theorem Grows.trans {s s' s'' : CheckerState} (h : Grows s s') (h' : Grows s' s'') : Grows s s'' :=
  ⟨fun name hs ↦ h'.computed name (h.computed name hs), fun key hs ↦ h'.cache key (h.cache key hs)⟩

theorem isSome_get?_insert {κ ι : Type} [DecidableEq κ] {m : OrdMap κ ι} {k k' : κ} {a : ι}
    (h : (m.get? k).isSome) : ((m.insert k' a).get? k).isSome := by
  rw [OrdMap.get?_insert]
  split
  · rfl
  · exact h

/-- The key of the value of a definition at `p`. -/
def valueKey (revision : Nat → Nat) (p : Place) : CacheKey :=
  ⟨p.tree, revision p.tree, p.path.child 1⟩

/-- The types of `L` are being computed.  Waiting definitions are at their places.  One that was not
computed yet is due after `n`, or at `n` if its name has `K`.  A name with a type is that of a
definition whose value was typed. -/
structure Accounts (trees : List Tree) (revision : Nat → Nat) (n : Nat) (K : String → Prop)
    (L : List String) (s : CheckerState) : Prop where
  computing : s.computing = L
  stands : ∀ name d, s.definitions.get? name = some d →
    standing trees d.place = some d.node.expr ∧ d.node.expr.defines? = some name
  due : ∀ name d, s.definitions.get? name = some d → s.computed.get? name = none → name ∉ L →
    n < dueAt trees d.place ∨ n = dueAt trees d.place ∧ K name
  valued : ∀ name, (s.computed.get? name).isSome → ∃ p e, standing trees p = some e ∧
    e.defines? = some name ∧ (s.cache.get? (valueKey revision p)).isSome

section

variable {trees : List Tree} {revision : Nat → Nat} {n b : Nat} {K : String → Prop}
  {L : List String}
  {s base : CheckerState} {find : String → Check (Option Ty)} {name : String} {d : Pending}

/-- `s` has `Accounts` and `Grows` from `base`. -/
def Runs (trees : List Tree) (revision : Nat → Nat) (n : Nat) (K : String → Prop) (L : List String)
    (base s : CheckerState) : Prop :=
  Accounts trees revision n K L s ∧ Grows base s

/-- The places of the trees where definitions are due at `b` or later. -/
def DueFrom (trees : List Tree) (b : Nat) (p : Place) (e : Expr) : Prop :=
  standing trees p = some e ∧ b ≤ dueAt trees p

theorem row_dueFrom {p : Place} {e : Expr} (h : standing trees p = some e)
    (hb : b ≤ dueAt trees p + if e.defines?.isSome then 1 else 0) :
    Row (DueFrom trees b) p 0 e.children := by
  refine row_of_getElem? fun i c hc ↦ ?_
  rw [Nat.zero_add]
  exact ⟨(standing_child h i).trans hc, (dueAt_child h i).symm ▸ hb⟩

/-- `settle` changes the contexts of waiting definitions only. -/
theorem forall_get?_settle {P : String → Pending → Prop} {group : Option Nat} {T : Ty}
    (h : ∀ name d, s.definitions.get? name = some d → P name d)
    (hP : ∀ name d context, P name d → P name { d with context := context }) (name' : String)
    (d : Pending) (hd : (s.settle group name T).definitions.get? name' = some d) : P name' d := by
  rw [CheckerState.settle, OrdMap.get?_mapValues, Option.map_eq_some_iff] at hd
  obtain ⟨d', hd', rfl⟩ := hd
  split
  · exact hP name' d' _ (h name' d' hd')
  · exact h name' d' hd'

/-- `Runs` is `Stable` where all definitions are due at `b` or later. -/
theorem stable_runs (htrees : ∀ tree ∈ trees, tree.root.All Expr.Slotted)
    (hb : ∀ m, b ≤ m → n < m ∨ n = m ∧ ∀ name, K name)
    (hfind : ∀ name, Keeps (Runs trees revision n K L base) (find name)) :
    Stable ⟨revision, find⟩ (DueFrom trees b) (Runs trees revision n K L base) where
  slotted h := slotted_of_standing htrees h.1
  children h := row_dueFrom h.1 (Nat.le_add_right_of_le h.2)
  record T _ _ h := by
    obtain ⟨⟨hcomputing, hstands, hdue, hvalued⟩, hgrows⟩ := h
    refine ⟨⟨hcomputing, hstands, hdue, fun name hname ↦ ?_⟩, hgrows.computed, fun k hk ↦ ?_⟩
    · obtain ⟨p, e, he, hdefines, hcached⟩ := hvalued name hname
      exact ⟨p, e, he, hdefines, isSome_get?_insert hcached⟩
    · exact isSome_get?_insert (hgrows.cache k hk)
  report _ _ _ _ h := ⟨⟨h.1.computing, h.1.stands, h.1.due, h.1.valued⟩, h.2.computed, h.2.cache⟩
  typeOf := hfind
  newGroup h := ⟨⟨h.1.computing, h.1.stands, h.1.due, h.1.valued⟩, h.2.computed, h.2.cache⟩
  settle group name T s h := ⟨⟨h.1.computing, forall_get?_settle h.1.stands fun _ _ _ ↦ id,
    forall_get?_settle h.1.due fun _ _ _ ↦ id, h.1.valued⟩, h.2.computed, h.2.cache⟩
  postpone {spot name declared value} c s harea h := by
    refine ⟨⟨h.1.computing, OrdMap.forall_get?_insert h.1.stands ⟨harea.1, rfl⟩,
      OrdMap.forall_get?_insert h.1.due fun _ _ ↦ ?_, h.1.valued⟩, h.2.computed, h.2.cache⟩
    exact (hb _ harea.2).imp_right fun h ↦ ⟨h.1, h.2 name⟩

/-! ## Computing a definition -/

/-- The definitions inside of a definition are due later than itself.  So `compute` preserves
`Accounts`, and the value gets a type. -/
theorem ensures_compute (htrees : ∀ tree ∈ trees, tree.root.All Expr.Slotted)
    (hfind : ∀ base name, Keeps (Runs trees revision n K L base) (find name))
    (hd : standing trees d.place = some d.node.expr) (hname : d.node.expr.defines? = some name)
    (hdue : n ≤ dueAt trees d.place) (hs : Accounts trees revision n K L s) :
    Ensures (compute ⟨revision, find⟩ d) s (fun _ s' ↦ Runs trees revision n K L s s' ∧
      (s'.cache.get? (valueKey revision d.place)).isSome) fun _ _ ↦ False := by
  obtain ⟨declared, value, hexpr⟩ :=
    Expr.exists_binding_of_defines? hname (slotted_of_standing htrees hd)
  have hrow : Row (DueFrom trees (n + 1)) d.place 0 d.node.expr.children :=
    row_dueFrom hd (by rw [hname]; exact Nat.add_le_add_right hdue 1)
  rw [hexpr] at hrow
  have hstable (base : CheckerState) :
      Stable ⟨revision, find⟩ (DueFrom trees (n + 1)) (Runs trees revision n K L base) :=
    stable_runs htrees (fun m hm ↦ .inl hm) (hfind base)
  have hkept :=
    keeps_iff.1 ((hstable s).synth d.context ⟨d.place.child 1, d.node.place.isSome⟩ d.declared
    hrow.2.1) s ⟨hs, .refl s⟩
  rw [compute_eq _ hexpr, ensures_bind]
  rcases hrun : (synth ⟨revision, find⟩ d.context ⟨d.place.child 1, d.node.place.isSome⟩ d.declared
    value).run s with ⟨fault | found, s₁⟩
  · exact ((ensures_error hrun).1 hkept).elim
  · obtain ⟨hs₁, hgrows⟩ := (ensures_ok hrun).1 hkept
    refine (ensures_ok hrun).2 ?_
    -- From here on nothing is lost of what is known when the value has been typed.
    have hrest := keeps_iff.1 ((hstable s₁).inStep.conclude rfl rfl hrow found) s₁ ⟨hs₁, .refl s₁⟩
    refine hrest.mono (fun _ s₂ h ↦ ?_) fun _ _ ↦ id
    obtain ⟨hs₂, hgrows₂⟩ := h
    exact ⟨⟨hs₂, hgrows.trans hgrows₂⟩,
      hgrows₂.cache _ (Option.isSome_iff_exists.2 ⟨found, cached_of_run_synth hrun⟩)⟩

theorem Accounts.begin (hs : Accounts trees revision n K L s) (name : String) :
    Accounts trees revision n K (name :: L) { s with computing := name :: s.computing } :=
  ⟨by rw [hs.computing], hs.stands, fun name' d hd hnone hL ↦
    hs.due name' d hd hnone fun h ↦ hL (List.mem_cons_of_mem _ h), hs.valued⟩

theorem Accounts.finish (hs : Accounts trees revision n K (name :: L) s) {p : Place} {e : Expr}
    (hp : standing trees p = some e) (he : e.defines? = some name)
    (hcached : (s.cache.get? (valueKey revision p)).isSome) (T : Ty) :
    Accounts trees revision n K L { s with
      computing := s.computing.erase name
      computed := s.computed.insert name T } := by
  refine ⟨by simp [hs.computing], hs.stands, fun name' d hd hnone hL ↦ ?_, fun name' hname' ↦ ?_⟩
  · rw [OrdMap.get?_insert] at hnone
    split at hnone
    · cases hnone
    · rename_i hne
      refine hs.due name' d hd hnone (List.not_mem_cons_of_ne_of_not_mem (Ne.symm hne) hL)
  · rw [OrdMap.get?_insert] at hname'
    split at hname'
    · rename_i heq
      exact ⟨p, e, hp, heq ▸ he, hcached⟩
    · exact hs.valued name' hname'

/-- `fetch` preserves `Accounts` if the computation of a waiting definition does. -/
theorem Accounts.fetch {P : Prop} {step : Pending → Check Ty} (hs : Accounts trees revision n K L s)
    (h : ∀ d, name ∉ L → s.computed.get? name = none → s.definitions.get? name = some d →
      Ensures (step d) s (fun _ s' ↦ Runs trees revision n K L s s' ∧
        (P → (s'.computed.get? name).isSome)) fun _ _ ↦ False) :
    Ensures (fetch name step) s (fun _ s' ↦ Runs trees revision n K L s s' ∧
      (P → name ∉ L → ∀ d, s'.definitions.get? name = some d → (s'.computed.get? name).isSome))
      fun _ _ ↦ False := by
  refine ensures_fetch (fun T hT ↦ ?_) (fun hbusy ↦ ?_) (fun hd ↦ ?_) fun d hcomputed hfree hd ↦ ?_
  · exact ⟨⟨hs, .refl s⟩, fun _ _ _ _ ↦ by rw [hT]; rfl⟩
  · exact ⟨⟨⟨hs.computing, hs.stands, hs.due, hs.valued⟩, fun _ ↦ id, fun _ ↦ id⟩,
      fun _ hL ↦ absurd (hs.computing ▸ hbusy) hL⟩
  · exact ⟨⟨hs, .refl s⟩, fun _ _ d hd' ↦ nomatch hd.symm.trans hd'⟩
  · exact (h d (hs.computing ▸ hfree) hcomputed hd).mono
      (fun _ s' h' ↦ ⟨h'.1, fun hp _ _ _ ↦ h'.2 hp⟩)
      fun _ _ ↦ id

/-- `typeOfDefinition` preserves `Accounts`.  Unless the name is being computed, it has a type
afterwards if a definition of it waits, as long as `depth` is positive. -/
theorem ensures_typeOfDefinition (htrees : ∀ tree ∈ trees, tree.root.All Expr.Slotted) (depth : Nat)
    (name : String) (hs : Accounts trees revision n K L s) :
    Ensures (typeOfDefinition revision depth name) s (fun _ s' ↦ Runs trees revision n K L s s' ∧
      ((∀ d, s.definitions.get? name = some d → 0 < depth) → name ∉ L →
        ∀ d, s'.definitions.get? name = some d → (s'.computed.get? name).isSome))
          fun _ _ ↦ False := by
  induction depth generalizing L name s with
  | zero =>
    exact hs.fetch fun d _ _ hd ↦ ⟨⟨hs, .refl s⟩, fun h ↦ absurd (h d hd) (Nat.lt_irrefl 0)⟩
  | succ depth ih =>
    refine hs.fetch fun d hL hcomputed hd ↦ ?_
    obtain ⟨hstands, hname⟩ := hs.stands name d hd
    have hdue : n ≤ dueAt trees d.place := by
      rcases hs.due name d hd hcomputed hL with h | h
      · exact h.le
      · exact h.1.le
    have hfind : ∀ base name', Keeps (Runs trees revision n K (name :: L) base)
        (typeOfDefinition revision depth name') := by
      refine fun base name' ↦ keeps_iff.2 fun s' hs' ↦ ?_
      refine (ih name' hs'.1).mono (fun _ s'' h ↦ ?_) fun _ _ ↦ False.elim
      exact ⟨h.1.1, hs'.2.trans h.1.2⟩
    refine ensures_marked ((ensures_compute htrees hfind hstands hname hdue (hs.begin name)).mono ?_
      fun _ _ ↦ id)
    rintro T s' ⟨⟨hs', hgrows⟩, hcached⟩
    refine ⟨⟨hs'.finish hstands hname hcached T, ?_, hgrows.cache⟩, ?_⟩
    · exact fun name' hname' ↦ isSome_get?_insert (hgrows.computed name' hname')
    · intro
      rw [OrdMap.get?_insert_self]
      rfl

/-! ## Requests -/

/-- `nesting` is positive if a definition waits. -/
theorem nesting_pos (h : s.definitions.get? name = some d) : 0 < nesting s := by
  have hkey : name ∈ s.definitions.keys := OrdMap.isSome_get?_iff.1 (by rw [h]; rfl)
  have hlen := length_namesAround_le s .hole
  have hpos := List.length_pos_of_mem hkey
  simp only [namesAround, List.length_append, Expr.defineCount] at hlen
  omega

/-- After `computeNames`, none of the names is left to compute. -/
theorem ensures_computeNames (htrees : ∀ tree ∈ trees, tree.root.All Expr.Slotted)
    {names : List String} (hs : Accounts trees revision n (· ∈ names) [] s) :
    Ensures (computeNames (.onDemand revision) names) s
      (fun _ s' ↦ Runs trees revision n (fun _ ↦ False) [] s s') fun _ _ ↦ False := by
  induction names generalizing s with
  | nil => exact ⟨⟨hs.computing, hs.stands, fun name d hd hnone hL ↦
      (hs.due name d hd hnone hL).imp_right fun h ↦ ⟨h.1, List.not_mem_nil h.2⟩, hs.valued⟩,
        .refl s⟩
  | cons name names ih =>
    rw [computeNames, ensures_bind]
    change Ensures (typeOfDefinition revision (nesting s) name) s _ _
    refine (ensures_typeOfDefinition htrees (nesting s) name hs).mono ?_ fun _ _ ↦ id
    rintro _ s' ⟨⟨hs', hgrows⟩, hname⟩
    refine (ih ⟨hs'.computing, hs'.stands, fun name' d hd hnone hL ↦ ?_, hs'.valued⟩).mono
      (fun _ s'' h ↦ ⟨h.1, hgrows.trans h.2⟩) fun _ _ ↦ id
    refine (hs'.due name' d hd hnone hL).imp_right fun ⟨hn, hmem⟩ ↦ ⟨hn, ?_⟩
    refine (List.mem_cons.1 hmem).resolve_left ?_
    rintro rfl
    have := hname (fun _ ↦ nesting_pos) List.not_mem_nil d hd
    rw [hnone] at this
    cases this

/-- The root of `tree` has a cached type. -/
def RootTyped (revision : Nat → Nat) (tree : Tree) (s : CheckerState) : Prop :=
  (s.cache.get? ⟨tree.number, revision tree.number, []⟩).isSome

theorem RootTyped.grows {tree : Tree} {s' : CheckerState} (h : RootTyped revision tree s)
    (hgrows : Grows s s') : RootTyped revision tree s' := hgrows.cache _ h

/-- `typeOfRoot` preserves `Accounts` if the definitions of the tree are due at `n` or later, or if
the root has a type already. -/
theorem ensures_typeOfRoot (htrees : ∀ tree ∈ trees, tree.root.All Expr.Slotted) (Γ : Env)
    {tree : Tree} (hroot : RootTyped revision tree s ∨ DueFrom trees n tree.rootPlace tree.root)
    (hs : Accounts trees revision n (fun _ ↦ True) [] s) :
    Ensures (typeOfRoot (.onDemand revision) Γ tree) s
      (fun _ s' ↦ Runs trees revision n (fun _ ↦ True) [] s s' ∧
      RootTyped revision tree s') fun _ _ ↦ False := by
  rw [Ensures, run_typeOfRoot, ← Ensures]
  rcases hroot with hroot | hroot
  · obtain ⟨T, hT⟩ := Option.isSome_iff_exists.1 hroot
    exact (ensures_ok (run_synth_of_cached hT)).2 ⟨⟨hs, .refl s⟩, hroot⟩
  · have hfind : ∀ name, Keeps (Runs trees revision n (fun _ ↦ True) [] s)
        (typeOfDefinition revision (nesting s + tree.root.defineCount) name) := by
      refine fun name ↦ keeps_iff.2 fun s' hs' ↦ ?_
      refine (ensures_typeOfDefinition htrees _ name hs'.1).mono (fun _ s'' h ↦ ?_)
        fun _ _ ↦ False.elim
      exact ⟨h.1.1, hs'.2.trans h.1.2⟩
    have hstable := stable_runs htrees
      (fun m (hm : n ≤ m) ↦ hm.lt_or_eq.imp_right fun h ↦ ⟨h, fun _ ↦ trivial⟩) hfind
    have hkept :=
      keeps_iff.1 (hstable.synth (.fixed Γ) ⟨tree.rootPlace, true⟩ none hroot) s ⟨hs, .refl s⟩
    rcases hrun : (synth ⟨revision, typeOfDefinition revision (nesting s + tree.root.defineCount)⟩
      (.fixed Γ) ⟨tree.rootPlace, true⟩ none tree.root).run s with ⟨fault | T, s'⟩
    · exact ((ensures_error hrun).1 hkept).elim
    · refine (ensures_ok hrun).2 ⟨(ensures_ok hrun).1 hkept, ?_⟩
      exact Option.isSome_iff_exists.2 ⟨T, cached_of_run_synth hrun⟩

/-- `addDefine` preserves `Accounts`, since nothing is due before the first query. -/
theorem ensures_addDefine (htrees : ∀ tree ∈ trees, tree.root.All Expr.Slotted)
    (hnumbers : (trees.map Tree.number).Nodup) (Γ : Env) {tree : Tree} (htree : tree ∈ trees)
    (hdefine : tree.root.isDefine) (hs : Accounts trees revision 1 (fun _ ↦ True) [] s) :
    Ensures (addDefine (.onDemand revision) Γ tree) s
      (fun _ s' ↦ Runs trees revision 1 (fun _ ↦ True) [] s s' ∧
      RootTyped revision tree s') fun _ _ ↦ False := by
  obtain ⟨name, value, hroot⟩ := Expr.exists_define hdefine
  obtain ⟨i, hi⟩ := List.getElem?_of_mem htree
  have hslot : tree.root.Slotted := (Expr.all_iff.1 (htrees tree htree)).1
  rw [hroot] at hslot
  obtain ⟨defined, hdefined⟩ := Option.isSome_iff_exists.1 hslot
  have hdue : DueFrom trees 1 tree.rootPlace tree.root :=
    have hstanding := standing_root hnumbers hi
    ⟨hstanding, one_le_dueAt hstanding⟩
  have htype (s₁ : CheckerState) (hs₁ : Accounts trees revision 1 (fun _ ↦ True) [] s₁)
      (hgrows : Grows s s₁) : Ensures (do let _ ← typeOfRoot (.onDemand revision) Γ tree) s₁
        (fun _ s' ↦ Runs trees revision 1 (fun _ ↦ True) [] s s' ∧ RootTyped revision tree s')
        fun _ _ ↦ False := by
    rw [ensures_bind]
    refine (ensures_typeOfRoot htrees Γ (.inr hdue) hs₁).mono (fun _ s' h ↦ ?_) fun _ _ ↦ id
    exact ⟨⟨h.1.1, hgrows.trans h.1.2⟩, h.2⟩
  rw [addDefine, hroot]
  dsimp only
  rw [show identifier name = pure defined by rw [identifier, hdefined], pure_bind, ensures_bind,
    ensures_get]
  split
  · rw [ensures_bind]
    exact htype _ ⟨hs.computing, hs.stands, hs.due, hs.valued⟩ ⟨fun _ ↦ id, fun _ ↦ id⟩
  · exact htype s hs (.refl s)

theorem ensures_addDefines (htrees : ∀ tree ∈ trees, tree.root.All Expr.Slotted)
    (hnumbers : (trees.map Tree.number).Nodup) (Γ : Env) {added : List Tree}
    (hadded : added ⊆ trees) (hs : Accounts trees revision 1 (fun _ ↦ True) [] s) :
    Ensures (addDefines (.onDemand revision) Γ added) s (fun _ s' ↦
      Runs trees revision 1 (fun _ ↦ True) [] s s' ∧
      ∀ tree ∈ added, tree.root.isDefine → RootTyped revision tree s') fun _ _ ↦ False := by
  induction added generalizing s with
  | nil => exact ⟨⟨hs, .refl s⟩, by simp⟩
  | cons tree added ih =>
    obtain ⟨htree, hadded⟩ := List.cons_subset.1 hadded
    rw [addDefines]
    split
    · rename_i hdefine
      rw [ensures_bind]
      refine (ensures_addDefine htrees hnumbers Γ htree hdefine hs).mono ?_ fun _ _ ↦ id
      rintro _ s₁ ⟨⟨hs₁, hgrows⟩, htyped⟩
      refine (ih hadded hs₁).mono ?_ fun _ _ ↦ id
      rintro _ s₂ ⟨⟨hs₂, hgrows₂⟩, hrest⟩
      exact ⟨⟨hs₂, hgrows.trans hgrows₂⟩,
        List.forall_mem_cons.2 ⟨fun _ ↦ htyped.grows hgrows₂, hrest⟩⟩
    · rename_i hdefine
      refine (ih hadded hs).mono ?_ fun _ _ ↦ id
      rintro _ s₁ ⟨hruns, hrest⟩
      exact ⟨hruns, List.forall_mem_cons.2 ⟨fun h ↦ absurd h hdefine, hrest⟩⟩

/-- The query for a tree computes all definitions that are due by then. -/
theorem ensures_typeAt (htrees : ∀ tree ∈ trees, tree.root.All Expr.Slotted)
    (hnumbers : (trees.map Tree.number).Nodup) (Γ : Env) {tree : Tree} {i : Nat}
    (hi : trees[i]? = some tree) (hdefine : tree.root.isDefine → RootTyped revision tree s)
    (hs : Accounts trees revision (i + 1) (fun _ ↦ True) [] s) (path : Path) :
    Ensures (typeAt (.onDemand revision) Γ tree path) s (fun _ s' ↦
      Runs trees revision (i + 2) (fun _ ↦ True) [] s s') fun _ _ ↦ False := by
  have hroot : RootTyped revision tree s ∨ DueFrom trees (i + 1) tree.rootPlace tree.root := by
    by_cases hdef : tree.root.isDefine
    · exact .inl (hdefine hdef)
    · refine .inr ⟨standing_root hnumbers hi, ?_⟩
      rw [dueAt, Tree.rootPlace, listed_eq hnumbers hi, Option.elim_some, if_neg hdef]
      exact Nat.le_add_right _ _
  rw [typeAt, ensures_bind]
  refine (ensures_typeOfRoot htrees Γ hroot hs).mono ?_ fun _ _ ↦ id
  rintro _ s₁ ⟨⟨hs₁, hgrows₁⟩, -⟩
  rw [computeAll, ensures_bind, ensures_bind, ensures_get]
  -- Everything that waits now gets computed, and the rest is due later.
  have hkeys : Accounts trees revision (i + 1) (· ∈ s₁.definitions.keys) [] s₁ :=
    ⟨hs₁.computing, hs₁.stands, fun name d hd hnone hL ↦ (hs₁.due name d hd hnone hL).imp_right
      fun h ↦ ⟨h.1, OrdMap.isSome_get?_iff.1 (by rw [hd]; rfl)⟩, hs₁.valued⟩
  refine (ensures_computeNames htrees hkeys).mono ?_ fun _ _ ↦ id
  rintro _ s₂ ⟨hs₂, hgrows₂⟩
  have hlater : Accounts trees revision (i + 2) (fun _ ↦ True) [] s₂ := by
    refine ⟨hs₂.computing, hs₂.stands, fun name d hd hnone hL ↦ ?_, hs₂.valued⟩
    have hlt := (hs₂.due name d hd hnone hL).resolve_right And.right
    exact (Nat.succ_le_of_lt hlt).lt_or_eq.imp_right fun h ↦ ⟨h, trivial⟩
  rw [ensures_bind, ensures_get]
  split
  · exact ⟨hlater, hgrows₁.trans hgrows₂⟩
  · rw [ensures_bind]
    exact ⟨⟨hlater.computing, hlater.stands, hlater.due, hlater.valued⟩,
      (hgrows₁.trans hgrows₂).computed, (hgrows₁.trans hgrows₂).cache⟩

/-! ## Sessions -/

/-- The request that adds the definitions among the trees, and one for the type of every tree. -/
def requestsFor (context : Tree → Env) (trees : List Tree) : List Request :=
  .addDefines trees :: trees.map fun tree ↦ .typeAt (context tree) tree []

/-- The queries for the trees from a position on compute all definitions that are due by the end. -/
theorem ensures_queries (htrees : ∀ tree ∈ trees, tree.root.All Expr.Slotted)
    (hnumbers : (trees.map Tree.number).Nodup) (Γ : Env) (context : Tree → Env)
    {done left : List Tree} (h : trees = done ++ left)
    (hdefine : ∀ tree ∈ trees, tree.root.isDefine → RootTyped revision tree s)
    (hs : Accounts trees revision (done.length + 1) (fun _ ↦ True) [] s) :
    Ensures ((left.map fun tree ↦ Request.typeAt (context tree) tree []).mapM
      (Request.perform (.onDemand revision) Γ)) s
      (fun _ s' ↦ Accounts trees revision (trees.length + 1) (fun _ ↦ True) [] s')
        fun _ _ ↦ False := by
  induction left generalizing done s with
  | nil =>
    rw [List.append_nil] at h
    rw [h] at hs ⊢
    exact hs
  | cons tree left ih =>
    have hi : trees[done.length]? = some tree := by simp [h]
    rw [List.map_cons, List.mapM_cons, ensures_bind, Request.perform, ensures_map]
    refine (ensures_typeAt htrees hnumbers (context tree) hi (hdefine tree (by simp [h])) hs
      []).mono ?_
      fun _ _ ↦ id
    rintro _ s₁ ⟨hs₁, hgrows⟩
    rw [ensures_bind]
    have hleft : trees = (done ++ [tree]) ++ left := by simp [h]
    refine (ih hleft (fun t ht hdef ↦ ?_) ?_).mono (fun _ _ ↦ id) fun _ _ ↦ id
    · exact (hdefine t ht hdef).grows hgrows
    · rwa [List.length_append, List.length_singleton]

theorem accounts_reset (s : CheckerState) :
    Accounts trees revision 1 (fun _ ↦ True) [] s.reset := by
  refine ⟨rfl, fun name d hd ↦ ?_, fun name d hd ↦ ?_, fun name h ↦ ?_⟩
  · cases hd
  · cases hd
  · cases h

end

/-- The trees define `name` at one place only. -/
def DefinedOnce (trees : List Tree) (name : String) : Prop :=
  ∀ p q d e, standing trees p = some d → standing trees q = some e → d.defines? = some name →
    e.defines? = some name → p = q

theorem nodup_numbers {first : Nat} {source : String} {trees : List Tree}
    (h : Tree.readAll first source = .ok trees) : (trees.map Tree.number).Nodup := by
  obtain ⟨es, -, rfl⟩ := Tree.exists_of_readAll h
  have hnumbers :
      (Tree.numbered first es).map Tree.number = (es.zipIdx.map Prod.snd).map (first + ·) := by
    simp only [Tree.numbered, List.map_map, Function.comp_def]
  rw [hnumbers, List.zipIdx_map_snd]
  exact List.Nodup.map (fun i j hij ↦ Nat.add_left_cancel hij) List.nodup_range'

/-- **Definitions get computed** in a session with trees that were read, which always returns.  A
definition that waits then has a type if it is due by the last query.  If it has one and its name is
defined at one place only, then its value was typed. -/
theorem definitions_computed {first : Nat} {source : String} {trees : List Tree}
    (hread : Tree.readAll first source = .ok trees) (revision : Nat → Nat) (base : Env)
    (context : Tree → Env) (s : CheckerState) :
    ∃ answers s',
      ((requestsFor context trees).mapM (Request.perform (.onDemand revision) base)).run s.reset =
        (.ok answers, s') ∧
      ∀ name d, s'.definitions.get? name = some d →
        (dueAt trees d.place ≤ trees.length → s'.computed.contains name) ∧
        (s'.computed.contains name → DefinedOnce trees name →
          (s'.cache.get? (valueKey revision d.place)).isSome) := by
  have htrees : ∀ tree ∈ trees, tree.root.All Expr.Slotted := fun _ ↦ Tree.slotted_of_readAll hread
  have hnumbers := nodup_numbers hread
  have hsession :
    Ensures ((requestsFor context trees).mapM (Request.perform (.onDemand revision) base)) s.reset
      (fun _ s' ↦ Accounts trees revision (trees.length + 1) (fun _ ↦ True) [] s')
        fun _ _ ↦ False := by
    rw [requestsFor, List.mapM_cons, ensures_bind, Request.perform, ensures_bind]
    refine (ensures_addDefines htrees hnumbers base (List.Subset.refl trees)
      (accounts_reset s)).mono ?_
      fun _ _ ↦ id
    rintro _ s₁ ⟨⟨hs₁, -⟩, hdefine⟩
    rw [ensures_pure, ensures_bind]
    exact (ensures_queries htrees hnumbers base context
      (List.nil_append trees).symm hdefine hs₁).mono
      (fun _ _ ↦ id) fun _ _ ↦ id
  rcases hrun :
    ((requestsFor context trees).mapM (Request.perform (.onDemand revision) base)).run s.reset with
    ⟨fault | answers, s'⟩
  · exact ((ensures_error hrun).1 hsession).elim
  · have hs' := (ensures_ok hrun).1 hsession
    refine ⟨answers, s', rfl, fun name d hd ↦ ⟨fun hdue ↦ ?_, fun hcomputed honce ↦ ?_⟩⟩
    · by_contra hnone
      rw [OrdMap.contains, Bool.not_eq_true, Option.isSome_eq_false_iff, Option.isNone_iff_eq_none]
        at hnone
      have := hs'.due name d hd hnone List.not_mem_nil
      omega
    · obtain ⟨hstands, hname⟩ := hs'.stands name d hd
      obtain ⟨p, e, hp, he, hcached⟩ := hs'.valued name hcomputed
      rw [honce d.place p _ e hstands hp hname he]
      exact hcached

/-- A function with a definition in its body. -/
def outerDefinition : Expr :=
  .define (.binding "f" none) (.lambda [] (.define (.binding "g" none) (.var "x")))

/-- The function and a call of it. -/
def calledTrees : List Tree := Tree.numbered 1 [outerDefinition, .call (.var "f") []]

theorem definitions_computed_called :
    Tree.readAll 1 "(define f (lambda () (define g x))) (f)" = .ok calledTrees ∧
    dueAt calledTrees ⟨1, [1, 0]⟩ = 2 ∧
    ∃ answers s',
      ((requestsFor (fun _ ↦ ∅) calledTrees).mapM (Request.perform (.onDemand fun _ ↦ 0) ∅)).run
        CheckerState.initial.reset = (.ok answers, s') ∧
      ∀ name d, s'.definitions.get? name = some d →
        (dueAt calledTrees d.place ≤ 2 → s'.computed.contains name) ∧
        (s'.computed.contains name → DefinedOnce calledTrees name →
          (s'.cache.get? (valueKey (fun _ ↦ 0) d.place)).isSome) := by
  have hread : Tree.readAll 1 "(define f (lambda () (define g x))) (f)" = .ok calledTrees := by
    decide +kernel
  exact ⟨hread, by decide +kernel, definitions_computed hread (fun _ ↦ 0) ∅ (fun _ ↦ ∅) .initial⟩

/-- The state of the checker after a session with the function alone. -/
def afterOuter : CheckerState :=
  (((requestsFor (fun _ ↦ ∅) (Tree.numbered 1 [outerDefinition])).mapM
    (Request.perform (.onDemand fun _ ↦ 0) ∅)).run CheckerState.initial.reset).2

/-- Without the call, the definition in the body waits to the end, and the unbound name in its value
is not reported. -/
theorem nested_definition_unchecked :
    Tree.readAll 1 "(define f (lambda () (define g x)))" = .ok (Tree.numbered 1 [outerDefinition]) ∧
    dueAt (Tree.numbered 1 [outerDefinition]) ⟨1, [1, 0]⟩ = 2 ∧
    afterOuter.definitions.keys = ["f", "g"] ∧ afterOuter.computed.keys = ["f"] ∧
    afterOuter.cache.get? (valueKey (fun _ ↦ 0) ⟨1, [1, 0]⟩) = none ∧
    afterOuter.errors.keys = [] := by
  refine ⟨by decide +kernel, ?_⟩
  exact ⟨by decide +kernel, by decide +kernel, by decide +kernel, by decide +kernel,
    by decide +kernel⟩

end Check

end SchemeTyping
