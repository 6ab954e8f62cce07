import Mathlib.Data.Finset.Card
import Mathlib.Data.List.Pairwise
import Mathlib.Logic.Relation
import SchemeTyping.Proofs.Checker.OnDemand

/-!
# Definitions in layers

Let the definitions of a program be roots of trees, and let them not depend on each other in a cycle
(`Layered`).  Then the types of all definitions can be given before any of them is computed.

## What is here

* `Layered.exists_rank` — every definition has a rank greater than those that it needs.
* `Oracle`, `Layered.exists_oracle` — a table of types in which every definition has the type that
  is computed for it alone, where the names in it have their types from the table.
-/

set_option autoImplicit false

namespace SchemeTyping

/-! ## The names that were read -/

namespace Expr

/-- The expression was read from a datum. -/
def Parsed (e : Expr) : Prop := ∃ d, ofDatum d = .ok e

theorem Parsed.slotted {e : Expr} (h : e.Parsed) : e.All Slotted := by
  obtain ⟨d, hd⟩ := h
  exact fun q hq ↦ slotted_of_formed (formed_of_ofDatum hd q hq)

theorem parsed_of_row {ds : List Datum} {es : List Expr} {c : Expr}
    (h : List.Forall₂ (fun d e ↦ ofDatum d = .ok e) ds es) (hc : c ∈ es) : c.Parsed := by
  obtain ⟨d, -, hd⟩ := exists_mem_of_forall₂ h.flip hc
  exact ⟨d, hd⟩

theorem parsed_of_bindings {first : Datum → Except SyntaxError Expr} {ds : List Datum}
    {bindings : List (Expr × Expr)} (h : List.Forall₂ (Pair first) ds bindings) {b : Expr × Expr}
    (hb : b ∈ bindings) : (∃ d, first d = .ok b.1) ∧ b.2.Parsed := by
  obtain ⟨_, -, x, y, -, hx, hy⟩ := exists_mem_of_forall₂ h.flip hb
  exact ⟨⟨x, hx⟩, y, hy⟩

theorem Parsed.operand {e c : Expr} (h : e.Parsed) (hc : c ∈ e.operands) : c.Parsed := by
  obtain ⟨d, hd⟩ := h
  cases understood_of_ofDatum hd with
  | bool | number | string | hole | var | null => cases hc
  | list _ hrow => exact parsed_of_row hrow hc
  | sequence _ hrow => exact parsed_of_row hrow hc
  | call _ hcalled hrow =>
    rcases List.mem_cons.1 hc with rfl | hc
    · exact ⟨_, hcalled⟩
    · exact parsed_of_row hrow hc
  | define _ _ hvalue =>
    cases List.mem_singleton.1 hc
    exact ⟨_, hvalue⟩
  | letIn _ hrow hbody | letrec _ hrow hbody =>
    rcases List.mem_append.1 hc with hc | hc
    · obtain ⟨b, hb, rfl⟩ := List.mem_map.1 hc
      exact (parsed_of_bindings hrow hb).2
    · cases List.mem_singleton.1 hc
      exact ⟨_, hbody⟩
  | lambda _ _ hbody =>
    cases List.mem_singleton.1 hc
    exact ⟨_, hbody⟩
  | branch _ hx hy hz =>
    simp only [operands, List.mem_cons, List.not_mem_nil, or_false] at hc
    rcases hc with rfl | rfl | rfl
    · exact ⟨_, hx⟩
    · exact ⟨_, hy⟩
    · exact ⟨_, hz⟩
  | cond _ hrow =>
    obtain ⟨b, hb, hc⟩ := List.mem_flatMap.1 hc
    simp only [List.mem_cons, List.not_mem_nil, or_false] at hc
    rcases hc with rfl | rfl
    · exact (parsed_of_bindings hrow hb).1
    · exact (parsed_of_bindings hrow hb).2

/-- In an expression that was read, the names that it asks for are those of its variables: the names
of bindings are in slots. -/
theorem Parsed.var_mem_parts {e : Expr} {name : String} (h : e.Parsed) (hname : e.Asks name) :
    .var name ∈ e.parts := by
  induction hname with
  | var => exact mem_parts_self _
  | binding =>
    obtain ⟨d, hd⟩ := h
    cases understood_of_ofDatum hd
  | @operand e c name hc _ ih =>
    rw [parts_eq]
    exact List.mem_cons_of_mem _
      (List.mem_flatMap.2 ⟨c, mem_children_of_mem_operands hc, ih (h.operand hc)⟩)

end Expr

namespace Check

open Ty

/-! ## Ranks -/

/-- The value of the definition of `name` has the variable `mentioned`. -/
def Needs (trees : List Tree) (name mentioned : String) : Prop :=
  ∃ tree ∈ trees, ∃ slot value, tree.root = .define slot value ∧ slot.identifier? = some name ∧
    .var mentioned ∈ value.parts

/-- Trees that were read, in which only roots are definitions.  The definitions have different
names, and `Needs` has no cycles. -/
structure Layered (trees : List Tree) : Prop where
  numbers : (trees.map Tree.number).Nodup
  read : ∀ tree ∈ trees, ∃ source es, Expr.readAll source = .ok es ∧ tree.root ∈ es
  shallow : ∀ tree ∈ trees, ∀ c ∈ tree.root.children, c.defineCount = 0
  named : ∀ tree ∈ trees, ∀ value, tree.root ≠ .define .hole value
  names : (trees.filterMap (·.root.definedName?)).Nodup
  acyclic : ∀ name, ¬ Relation.TransGen (Needs trees) name name

variable {trees : List Tree} {tree tree' : Tree} {name : String}

theorem Layered.parsed (h : Layered trees) (ht : tree ∈ trees) : tree.root.Parsed := by
  obtain ⟨source, es, hread, hmem⟩ := h.read tree ht
  exact Expr.exists_ofDatum_of_readAll hread hmem

theorem Layered.eq_of_number (h : Layered trees) (ht : tree ∈ trees) (ht' : tree' ∈ trees)
    (hnumber : tree.number = tree'.number) : tree = tree' :=
  List.inj_on_of_nodup_map h.numbers ht ht' hnumber

theorem Layered.eq_of_name (h : Layered trees) (ht : tree ∈ trees) (ht' : tree' ∈ trees)
    (hname : tree.root.definedName? = some name) (hname' : tree'.root.definedName? = some name) :
    tree = tree' := by
  by_contra hne
  have hpairs := List.pairwise_filterMap.1 h.names
  have hsymm : Std.Symm fun t t' : Tree ↦ ∀ n, t.root.definedName? = some n →
      ∀ n', t'.root.definedName? = some n' → n ≠ n' :=
    ⟨fun _ _ hdiff n hn n' hn' ↦ (hdiff n' hn' n hn).symm⟩
  exact hpairs.forall ht ht' hne name hname name hname' rfl

/-- The names that the roots of trees mention. -/
def mentions (trees : List Tree) : List String :=
  trees.flatMap fun tree ↦ tree.root.parts.filterMap Expr.name?

theorem Needs.mem_mentions {mentioned : String} (h : Needs trees name mentioned) :
    mentioned ∈ mentions trees := by
  obtain ⟨tree, ht, slot, value, hroot, -, hmem⟩ := h
  refine List.mem_flatMap.2 ⟨tree, ht, List.mem_filterMap.2 ⟨.var mentioned, ?_, rfl⟩⟩
  rw [hroot, Expr.parts_eq]
  exact List.mem_cons_of_mem _ (List.mem_flatMap.2 ⟨value, by simp [Expr.children], hmem⟩)

/-- The rank of a name is the number of names that it needs, directly or indirectly. -/
theorem Layered.exists_rank (h : Layered trees) :
    ∃ rank : String → Nat, ∀ name mentioned, Needs trees name mentioned →
      rank mentioned < rank name := by
  classical
  refine ⟨fun name ↦ ((mentions trees).toFinset.filter (Relation.TransGen (Needs trees) name)).card,
    fun name mentioned hneeds ↦ Finset.card_lt_card ?_⟩
  refine (Finset.ssubset_iff_of_subset fun n hn ↦ ?_).2 ⟨mentioned, ?_, ?_⟩
  · rw [Finset.mem_filter] at hn ⊢
    exact ⟨hn.1, .head hneeds hn.2⟩
  · exact Finset.mem_filter.2 ⟨List.mem_toFinset.2 hneeds.mem_mentions, .single hneeds⟩
  · exact fun hmem ↦ h.acyclic mentioned (Finset.mem_filter.1 hmem).2

theorem acyclic_of_rank {rank : String → Nat}
    (h : ∀ name mentioned, Needs trees name mentioned → rank mentioned < rank name)
    (name : String) : ¬ Relation.TransGen (Needs trees) name name := by
  have hlt : ∀ m, Relation.TransGen (Needs trees) name m → rank m < rank name := by
    intro m hm
    induction hm with
    | single hstep => exact h _ _ hstep
    | tail _ hstep ih => exact Nat.lt_trans (h _ _ hstep) ih
  exact fun hcycle ↦ Nat.lt_irrefl _ (hlt name hcycle)

/-! ## The contents of a tree -/

/-- A root that defines a name binds it in a slot. -/
theorem Layered.exists_root (h : Layered trees) (ht : tree ∈ trees)
    (hname : tree.root.definedName? = some name) :
    ∃ declared value, tree.root = .define (.binding name declared) value := by
  have hslotted := (Expr.all_iff.1 (h.parsed ht).slotted).1
  have hnamed := h.named tree ht
  cases hroot : tree.root with
  | define slot value =>
    rw [hroot] at hname hslotted hnamed
    cases slot with
    | binding name' declared =>
      cases hname
      exact ⟨declared, value, rfl⟩
    | hole => exact absurd rfl (hnamed value)
    | _ => cases hslotted
  | _ => rw [hroot] at hname; cases hname

theorem Layered.needs (h : Layered trees) (ht : tree ∈ trees)
    (hname : tree.root.definedName? = some name) {mentioned : String}
    (hmem : .var mentioned ∈ tree.root.parts) : Needs trees name mentioned := by
  obtain ⟨declared, value, hroot⟩ := h.exists_root ht hname
  refine ⟨tree, ht, _, value, hroot, rfl, ?_⟩
  simpa [hroot, Expr.parts] using hmem

theorem Layered.exists_name (h : Layered trees) (ht : tree ∈ trees) (hdefine : tree.root.isDefine) :
    ∃ name, tree.root.definedName? = some name := by
  obtain ⟨slot, value, hroot⟩ := Expr.exists_define hdefine
  have hslotted := (Expr.all_iff.1 (h.parsed ht).slotted).1
  rw [hroot] at hslotted ⊢
  exact Option.isSome_iff_exists.1 hslotted

theorem Layered.defineCount_root (h : Layered trees) (ht : tree ∈ trees)
    (hdefine : ¬ tree.root.isDefine) : tree.root.defineCount = 0 :=
  Expr.defineCount_eq_zero_iff.2 (Expr.all_iff.2
    ⟨hdefine, fun c hc ↦ Expr.defineCount_eq_zero_iff.1 (h.shallow tree ht c hc)⟩)

/-! ## Trees alone -/

/-- The places of a tree that are typed when it is checked.  A definition at the root is postponed,
so only the places below it are. -/
def Ours (tree : Tree) (p : Place) : Prop :=
  p.tree = tree.number ∧ (tree.root.isDefine → p.path ≠ [])

theorem Ours.child {p : Place} (h : Ours tree p) (i : Nat) : Ours tree (p.child i) :=
  ⟨h.1, fun _ ↦ List.append_ne_nil_of_right_ne_nil _ (List.cons_ne_nil _ _)⟩

/-- The type of what a tree defines, or of its root if it is not a definition. -/
def solo (w : Surroundings) (base : Env) (tree : Tree) : Check Ty :=
  match tree.root with
  | .define slot value => compute w (waiting (.fixed base) ⟨tree.rootPlace, true⟩ slot value)
  | root => synth w (.fixed base) ⟨tree.rootPlace, true⟩ none root

theorem solo_of_not_define (w : Surroundings) (base : Env) (hdefine : ¬ tree.root.isDefine) :
    solo w base tree = synth w (.fixed base) ⟨tree.rootPlace, true⟩ none tree.root := by
  rw [solo]
  split
  · rename_i hroot
    rw [hroot] at hdefine
    exact absurd rfl hdefine
  · rfl

/-- `solo` succeeds alike in two surroundings that are in step for the names the tree mentions. -/
theorem Layered.mirrors_solo (h : Layered trees) (ht : tree ∈ trees) {w w' : Surroundings}
    {V : String → Prop} {R : CheckerState → CheckerState → Prop} {C : Context → Context → Prop}
    (hw : InStep w w' (Clear (Ours tree)) V R C) (base : Env)
    (hV : ∀ name, .var name ∈ tree.root.parts → V name) :
    Mirrors Never R Eq (solo w base tree) (solo w' base tree) := by
  by_cases hdefine : tree.root.isDefine
  · obtain ⟨slot, value, hroot⟩ := Expr.exists_define hdefine
    have hvalue : value ∈ tree.root.children := by simp [hroot, Expr.children]
    have hparsed : value.Parsed := (h.parsed ht).operand (by rw [hroot]; exact List.mem_cons_self)
    obtain ⟨htop, hchildren⟩ := Expr.all_iff.1 (h.parsed ht).slotted
    have hrow : Row (Clear (Ours tree)) tree.rootPlace 0 tree.root.children :=
      row_of_forall fun c hc i ↦
      ⟨⟨rfl, fun _ ↦ List.cons_ne_nil _ _⟩, hchildren c hc, h.shallow tree ht c hc⟩
    rw [hroot] at htop hrow
    simp only [solo, hroot]
    refine hw.compute (hw.fixed base) ?_
    rintro _ _ ⟨⟩
    refine ⟨htop, fun name hname ↦ hV name ?_, hrow⟩
    rw [Expr.parts_eq]
    exact List.mem_cons_of_mem _ (List.mem_flatMap.2 ⟨value, hvalue, hparsed.var_mem_parts hname⟩)
  · rw [solo_of_not_define w base hdefine, solo_of_not_define w' base hdefine]
    have hfree : DefineFree tree.root := ⟨(h.parsed ht).slotted, h.defineCount_root ht hdefine⟩
    exact hw.synth (fun name hname ↦ hV name ((h.parsed ht).var_mem_parts hname)) _ _ _ _
      (hw.fixed base)
      ⟨⟨rfl, fun hd ↦ absurd hd hdefine⟩, hfree⟩

/-! ## The types of all definitions -/

/-- Surroundings in which the types of definitions come from a table. -/
def tabled (revision : Nat → Nat) (table : String → Option Ty) : Surroundings :=
  ⟨revision, fun name ↦ pure (table name)⟩

/-- The state before a tree is checked: the root of a definition is cached already. -/
def untouched (tree : Tree) : CheckerState :=
  if tree.root.isDefine then
    { CheckerState.initial with cache := (∅ : Cache).insert (tree.key []) empty }
  else .initial

/-- The outcome of `solo` for a tree, with a table of types for definitions. -/
def alone (revision : Nat → Nat) (base : Env) (table : String → Option Ty) (tree : Tree) :
    Except Fault Ty × CheckerState :=
  (solo (tabled revision table) base tree).run (untouched tree)

theorem Layered.alone_congr (h : Layered trees) (ht : tree ∈ trees) (revision : Nat → Nat)
    (base : Env) {table table' : String → Option Ty}
    (htables : ∀ name, .var name ∈ tree.root.parts → table name = table' name) :
    alone revision base table tree = alone revision base table' tree := by
  have hstep : InStep (tabled revision table) (tabled revision table') (Clear (Ours tree))
      (fun name ↦ table name = table' name) Eq Eq := {
    slotted := Clear.slotted
    children := fun hp ↦ hp.children hp.1.child
    revision := fun _ ↦ rfl
    cached := by rintro p e s _ - rfl; rfl
    record := by rintro p e T s _ - rfl; rfl
    report := by rintro p e d s _ - - rfl; rfl
    typeOf := fun hname ↦ .pure hname
    types := by rintro c _ rfl; rfl
    fixed := fun _ ↦ rfl
    newGroup := by rintro Γ s _ rfl; exact ⟨rfl, rfl⟩
    insert := by rintro Γ g g' name T ⟨⟩; rfl
    settle := by rintro Γ g g' name T s _ ⟨⟩ rfl; rfl
    postpone := fun hp ↦ absurd rfl hp.2.not_isDefine }
  obtain ⟨T, s, _, _, hrun, hrun', rfl, rfl⟩ :=
    (h.mirrors_solo ht hstep base htables).exists_run (rfl : untouched tree = untouched tree)
  rw [alone, alone, hrun, hrun']

/-- A name that is defined has in the table the type that `alone` gives for its tree; no other name
is in the table. -/
structure Oracle (revision : Nat → Nat) (base : Env) (trees : List Tree)
    (table : String → Option Ty) :
    Prop where
  defined : ∀ tree ∈ trees, ∀ name, tree.root.definedName? = some name →
    table name = (alone revision base table tree).1.toOption
  undefined : ∀ name, (∀ tree ∈ trees, tree.root.definedName? ≠ some name) → table name = none

/-- The table is built up along the ranks. -/
theorem Layered.exists_oracle (h : Layered trees) (revision : Nat → Nat) (base : Env) :
    ∃ table, Oracle revision base trees table := by
  obtain ⟨rank, hrank⟩ := h.exists_rank
  -- The table below a rank tells the types at that rank.
  let find (name : String) := trees.find? (·.root.definedName? = some name)
  let below (name : String) (types : ∀ n, rank n < rank name → Option Ty) (n : String) :
    Option Ty :=
    if hn : rank n < rank name then types n hn else none
  let table := (measure rank).wf.fix fun name types ↦
    (find name).bind fun tree ↦ (alone revision base (below name types) tree).1.toOption
  have htable : ∀ name, table name = (find name).bind fun tree ↦
      (alone revision base (below name fun n _ ↦ table n) tree).1.toOption :=
    fun name ↦ (measure rank).wf.fix_eq _ name
  refine ⟨table, fun tree ht name hname ↦ ?_, fun name hname ↦ ?_⟩
  · have hfind : find name = some tree := by
      cases hfound : find name with
      | none => exact absurd (by simpa using hname) (List.find?_eq_none.1 hfound tree ht)
      | some tree' =>
        have hname' : tree'.root.definedName? = some name := by simpa using List.find?_some hfound
        rw [h.eq_of_name (List.mem_of_find?_eq_some hfound) ht hname' hname]
    have hbelow : alone revision base (below name fun n _ ↦ table n) tree =
        alone revision base table tree :=
      h.alone_congr ht revision base fun n hn ↦ dif_pos (hrank name n (h.needs ht hname hn))
    rw [htable, hfind]
    exact congrArg (·.1.toOption) hbelow
  · rw [htable, show find name = none
      from List.find?_eq_none.2 fun tree ht ↦ by simpa using hname tree ht]
    rfl

end Check

end SchemeTyping
