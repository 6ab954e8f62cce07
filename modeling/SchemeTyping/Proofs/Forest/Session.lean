import Mathlib.Data.List.Forall2
import Mathlib.Data.Multiset.MapFold
import SchemeTyping.Proofs.Forest
import SchemeTyping.Proofs.Partition

/-!
# A forest answers like a partition

A session is a list of commands to a list of stores, which grows when a store is copied.  It can be
run on forests and on partitions.  As long as only new keys are added, both give the same answers
(`run_forest_eq_run_partition`): which keys share a class, the value of a class and the value that a
union makes do not depend on links, ranks or the order of look-ups.

`Represents` relates the two stores by keys, classes and values only, with one exception: every cell
belongs to a key.  It follows that `values` lists every class once and that copies are possible.
-/

set_option autoImplicit false

namespace SchemeTyping

variable {κ ν : Type}

namespace Session

/-- The commands to a store of classes. -/
inductive Command (κ ν : Type)
  | add (key : κ) (value : ν)
  | union (key key' : κ)
  | setValue (key : κ) (value : ν)
  | value (key : κ)
  | same (key key' : κ)
  | values
  | contains (key : κ)
  | size
  | copy
  deriving Repr

/-- The key that a command adds. -/
def Command.added? : Command κ ν → Option κ
  | .add k _ => some k
  | _ => none

/-- The answers of a store.  `values` has no order. -/
inductive Answer (κ ν : Type)
  | done
  | value (value : Option ν)
  | truth (truth : Bool)
  | values (values : Multiset ν)
  | size (size : Nat)
  /-- A key that has to be there is not. -/
  | missing (key : κ)
  /-- The store cannot be copied. -/
  | noCopy
  /-- There is no store of that number. -/
  | noStore
  deriving DecidableEq

/-- An answer, the store after it and the copies that were made. -/
structure Reply (κ ν σ : Type) where
  answer : Answer κ ν
  store : σ
  copies : List σ

variable {σ : Type}

/-- Gives the command `c` to the store with the given number. -/
def step (exec : Command κ ν → σ → Reply κ ν σ) (number : Nat) (c : Command κ ν) (stores : List σ) :
    Answer κ ν × List σ :=
  match stores[number]? with
  | none => (.noStore, stores)
  | some s => ((exec c s).answer, stores.set number (exec c s).store ++ (exec c s).copies)

theorem step_cons_succ (exec : Command κ ν → σ → Reply κ ν σ) (number : Nat)
    (c : Command κ ν) (s : σ) (stores : List σ) :
    step exec (number + 1) c (s :: stores) =
      ((step exec number c stores).1, s :: (step exec number c stores).2) := by
  rw [step, step, List.getElem?_cons_succ]
  cases stores[number]? <;> rfl

/-- The answers to a list of commands, each with the number of its store. -/
def run (exec : Command κ ν → σ → Reply κ ν σ) :
    List (Nat × Command κ ν) → List σ → List (Answer κ ν)
  | [], _ => []
  | (number, c) :: rest, stores =>
    (step exec number c stores).1 :: run exec rest (step exec number c stores).2

end Session

open Session

variable [DecidableEq κ]

namespace Partition

/-- The reply `reply` if `P` has all the keys, and `missing` with the first one that it does not
have otherwise. -/
def demand (P : Partition κ ν) (reply : Reply κ ν (Partition κ ν)) :
    List κ → Reply κ ν (Partition κ ν)
  | [] => reply
  | k :: ks => if k ∈ P.keys then P.demand reply ks else ⟨.missing k, P, []⟩

/-- The reply of a partition to a command. -/
def exec (combine : ν → ν → ν) : Command κ ν → Partition κ ν → Reply κ ν (Partition κ ν)
  | .add k v, P => ⟨.done, if hk : k ∈ P.keys then P else P.add k v hk, []⟩
  | .union k k', P => P.demand ⟨.done, P.union combine k k', []⟩ [k, k']
  | .setValue k v, P => P.demand ⟨.done, P.setValue k v, []⟩ [k]
  | .value k, P => ⟨.value (P.value? k), P, []⟩
  | .same k k', P => P.demand ⟨.truth (decide (P.Same k k')), P, []⟩ [k, k']
  | .values, P => ⟨.values P.values, P, []⟩
  | .contains k, P => ⟨.truth (decide (k ∈ P.keys)), P, []⟩
  | .size, P => ⟨.size P.keys.length, P, []⟩
  | .copy, P => ⟨.done, P, [P]⟩

/-- Every key that a session adds is new to its store at that time. -/
def AddsNew (combine : ν → ν → ν) : List (Nat × Command κ ν) → List (Partition κ ν) → Prop
  | [], _ => True
  | (number, c) :: rest, stores =>
    (∀ P ∈ stores[number]?, ∀ k ∈ c.added?, k ∉ P.keys) ∧
      AddsNew combine rest (step (exec combine) number c stores).2

instance instDecidableAddsNew (combine : ν → ν → ν) : ∀ (steps : List (Nat × Command κ ν))
    (stores : List (Partition κ ν)), Decidable (AddsNew combine steps stores)
  | [], _ => isTrue trivial
  | (_, _) :: rest, _ => @instDecidableAnd _ _ inferInstance (instDecidableAddsNew combine rest _)

end Partition

namespace Forest

/-- Runs `op` on `f` and makes an answer of its result. -/
def perform {α : Type} (op : Op κ ν α) (f : Forest κ ν) (answer : α → Answer κ ν) :
    Reply κ ν (Forest κ ν) :=
  match op.run f with
  | (.ok a, f') => ⟨answer a, f', []⟩
  | (.error k, f') => ⟨.missing k, f', []⟩

/-- The reply of a forest to a command. -/
def exec (combine : ν → ν → ν) : Command κ ν → Forest κ ν → Reply κ ν (Forest κ ν)
  | .add k v, f => ⟨.done, f.add k v, []⟩
  | .union k k', f => perform (union combine k k') f fun _ ↦ .done
  | .setValue k v, f => perform (setValue k v) f fun _ ↦ .done
  | .value k, f => perform (look k) f .value
  | .same k k', f => perform (same k k') f .truth
  | .values, f => ⟨.values f.values, f, []⟩
  | .contains k, f => ⟨.truth (f.contains k), f, []⟩
  | .size, f => ⟨.size f.size, f, []⟩
  | .copy, f =>
    match f.copy? with
    | some g => ⟨.done, f, [g]⟩
    | none => ⟨.noCopy, f, []⟩

/-! ## What no operation changes -/

/-- `f'` has the keys of `f` in the same cells. -/
structure Frame (f f' : Forest κ ν) : Prop where
  index : f'.index = f.index
  size : f'.cells.size = f.cells.size

variable {f f' : Forest κ ν} {P P' : Partition κ ν} {k k' : κ} {v : ν} {α : Type}

omit [DecidableEq κ] in
theorem Frame.refl (f : Forest κ ν) : Frame f f := ⟨rfl, rfl⟩

omit [DecidableEq κ] in
theorem Frame.trans {f'' : Forest κ ν} (h : Frame f f') (h' : Frame f' f'') : Frame f f'' :=
  ⟨h'.index.trans h.index, h'.size.trans h.size⟩

theorem size_shorten (r : Nat) : ∀ (steps i : Nat) (cells : Array (Cell ν)),
    (shorten r steps i cells).size = cells.size
  | 0, _, _ => rfl
  | steps + 1, i, cells => by
    rw [shorten]
    split
    · rfl
    · split
      · rfl
      · rw [size_shorten r steps, Array.size_modify]

theorem size_merge (combine : ν → ν → ν) (cells : Array (Cell ν)) (r r' : Nat) :
    (merge combine cells r r').size = cells.size := by
  rw [merge]
  split
  · dsimp only
    split <;> simp [link]
  · rfl

/-- `x` preserves the `Frame`, also if it fails. -/
def Framed (x : Op κ ν α) : Prop :=
  ∀ f, Ensures x f (fun _ f' ↦ Frame f f') fun _ f' ↦ Frame f f'

theorem framed_find (k : κ) : Framed (find k : Op κ ν Nat) := by
  intro f
  rw [find, ensures_bind, ensures_get]
  split
  · exact .refl f
  · exact ⟨rfl, size_shorten ..⟩

theorem framed_find_bind (k : κ) {next : Nat → Op κ ν α} (h : ∀ r, Framed (next r)) :
    Framed (find k >>= next) := by
  intro f
  rw [ensures_bind]
  refine (framed_find k f).mono (fun r f' h₁ ↦ ?_) fun _ _ ↦ id
  exact (h r f').mono (fun _ _ ↦ h₁.trans) fun _ _ ↦ h₁.trans

theorem framed_look (k : κ) : Framed (look k : Op κ ν (Option ν)) := by
  intro f
  rw [look, ensures_bind, ensures_get, ensures_ite]
  refine ⟨fun _ ↦ framed_find_bind k ?_ f, fun _ ↦ .refl f⟩
  exact fun _ f' ↦ .refl f'

theorem framed_same (k k' : κ) : Framed (same k k' : Op κ ν Bool) :=
  framed_find_bind k fun _ ↦ framed_find_bind k' fun _ ↦ Frame.refl

theorem framed_setValue (k : κ) (v : ν) : Framed (setValue k v) :=
  framed_find_bind k fun _ _ ↦ ⟨rfl, Array.size_modify⟩

theorem framed_union (combine : ν → ν → ν) (k k' : κ) : Framed (union combine k k') := by
  refine framed_find_bind k fun r ↦ framed_find_bind k' fun r' f ↦ ?_
  rw [ensures_ite]
  exact ⟨fun _ ↦ .refl f, fun _ ↦ ⟨rfl, size_merge ..⟩⟩

/-! ## Forests that represent partitions -/

/-- `f` has the keys, classes and values of `P`, and every cell belongs to a key. -/
structure Represents (f : Forest κ ν) (P : Partition κ ν) : Prop where
  wf : f.WF
  dense : f.index.values = List.range f.cells.size
  keys : f.keys.Perm P.keys
  same : ∀ a b, f.Same a b ↔ P.Same a b
  value : ∀ a, f.value? a = P.value? a

theorem Represents.contains_iff (h : Represents f P) : f.contains k = true ↔ k ∈ P.keys := by
  rw [← h.keys.mem_iff, contains, OrdMap.contains, OrdMap.isSome_get?_iff]
  rfl

theorem Represents.like (h : Represents f P) (hlike : Like f f') (hframe : Frame f f') :
    Represents f' P where
  wf := hlike.wf
  dense := by rw [hframe.index, hframe.size, h.dense]
  keys := by
    rw [Forest.keys, hframe.index]
    exact h.keys
  same a b := hlike.same_iff.trans (h.same a b)
  value a := (hlike.value a).trans (h.value a)

theorem represents_empty : Represents (∅ : Forest κ ν) ∅ where
  wf := wf_empty
  dense := rfl
  keys := .refl _
  same _ _ := by
    rw [same_iff]
    exact ⟨fun ⟨_, h, _⟩ ↦ by simp [rep?, show (∅ : Forest κ ν).index = ∅ from rfl] at h,
      fun ⟨_, h, _⟩ ↦ absurd h List.not_mem_nil⟩
  value _ := rfl

/-- A new key gets the next cell. -/
theorem entries_index_add (hk : f.contains k = false) (v : ν) :
    (f.add k v).index.entries = f.index.entries ++ [(k, f.cells.size)] := by
  refine OrdMap.put_of_notMem fun hmem ↦ ?_
  rw [contains, OrdMap.contains, OrdMap.isSome_get?_iff.2 hmem] at hk
  cases hk

/-- Every cell belongs to a key also after `add`. -/
theorem dense_add (hdense : f.index.values = List.range f.cells.size) (hk : f.contains k = false)
    (v : ν) : (f.add k v).index.values = List.range (f.add k v).cells.size := by
  rw [OrdMap.values] at hdense ⊢
  rw [entries_index_add hk, List.map_append, hdense, Forest.add, Array.size_push, List.range_succ]
  rfl

theorem Represents.add (h : Represents f P) (hk : k ∉ P.keys) :
    Represents (f.add k v) (P.add k v hk) := by
  have hnew : f.contains k = false := Bool.eq_false_iff.2 fun hmem ↦ hk (h.contains_iff.1 hmem)
  refine ⟨h.wf.add k v, dense_add h.dense hnew v, ?_, fun a b ↦ ?_, fun a ↦ ?_⟩
  · rw [Forest.keys, OrdMap.keys, entries_index_add hnew, List.map_append]
    exact List.perm_append_comm.trans (h.keys.cons k)
  · rw [Forest.same_add h.wf, Partition.same_add, h.same]
  · rw [(Forest.value?_add h.wf k v).2, Partition.value?_add, h.value]

/-! ## Values and copies -/

/-- The cells without a parent. -/
def roots (f : Forest κ ν) : List Nat :=
  (List.range f.cells.size).filter fun i ↦ (parent? f.cells i).isNone

omit [DecidableEq κ] in
theorem mem_roots {r : Nat} : r ∈ f.roots ↔ RootOf f.cells r r := by
  rw [rootOf_self_iff, roots, List.mem_filter, List.mem_range, Option.isNone_iff_eq_none]

omit [DecidableEq κ] in
theorem values_eq (hdense : f.index.values = List.range f.cells.size) :
    f.values = f.roots.filterMap (valueAt? f.cells) := by
  rw [values, roots, hdense, List.filterMap_filter]
  refine List.filterMap_congr fun i _ ↦ ?_
  rw [parent?, valueAt?]
  cases f.cells[i]? <;> rfl

/-- `values` has the value of every class. -/
theorem mem_values (hwf : f.WF) (hdense : f.index.values = List.range f.cells.size)
    (h : f.value? k = some v) : v ∈ f.values := by
  rw [value?_eq] at h
  obtain ⟨r, hr, hv⟩ := Option.bind_eq_some_iff.1 h
  obtain ⟨i, hi, rfl⟩ := Option.map_eq_some_iff.1 hr
  rw [values_eq hdense]
  exact List.mem_filterMap.2 ⟨_, mem_roots.2 (rootOf_self_iff.2 (hwf.rootOf_rep hi).isRoot), hv⟩

/-- The root of the class `c`. -/
def classRoot? (f : Forest κ ν) (c : List κ × ν) : Option Nat := c.1.head?.bind f.rep?

/-- All keys of a class have one root, and its value is that of the class. -/
theorem Represents.exists_classRoot (h : Represents f P) {c : List κ × ν} (hc : c ∈ P.classes) :
    ∃ r, f.classRoot? c = some r ∧ valueAt? f.cells r = some c.2 ∧
      ∀ k ∈ c.1, f.rep? k = some r := by
  obtain ⟨k, ks, hks⟩ := List.exists_cons_of_ne_nil (P.inhabited c hc)
  have hk : k ∈ c.1 := by simp [hks]
  have hvalue : f.value? k = some c.2 := (h.value k).trans (Partition.value?_of_mem hc hk)
  rw [value?_eq] at hvalue
  obtain ⟨r, hr, hv⟩ := Option.bind_eq_some_iff.1 hvalue
  refine ⟨r, by simp [classRoot?, hks, hr], hv, fun a ha ↦ ?_⟩
  have hsame : f.Same k a := (h.same k a).2 ⟨c, hc, hk, ha⟩
  exact hsame.2 ▸ hr

theorem Represents.isRoot_rep (h : Represents f P) {r : Nat} (hr : f.rep? k = some r) :
    RootOf f.cells r r := by
  obtain ⟨i, hi, rfl⟩ := Option.map_eq_some_iff.1 hr
  exact rootOf_self_iff.2 (h.wf.rootOf_rep hi).isRoot

/-- Every root belongs to a key. -/
theorem Represents.exists_key (h : Represents f P) {r : Nat} (hr : r ∈ f.roots) :
    ∃ k ∈ P.keys, f.rep? k = some r := by
  have hroot := mem_roots.1 hr
  have hmem : r ∈ f.index.values := by
    rw [h.dense, List.mem_range]
    exact hroot.isRoot.1
  obtain ⟨⟨k, i⟩, he, rfl⟩ := List.mem_map.1 hmem
  have hkeys : f.index.keys.Nodup := h.keys.nodup_iff.2 P.disjoint
  refine ⟨k, h.keys.mem_iff.1 (List.mem_map_of_mem he), h.wf.rep_eq ?_ hroot⟩
  exact OrdMap.get?_of_mem_entries hkeys he

/-- `f.roots` are the roots of the classes, each once. -/
theorem Represents.roots_perm (h : Represents f P) :
    f.roots.Perm (P.classes.filterMap f.classRoot?) := by
  have hnodup : (P.classes.filterMap f.classRoot?).Nodup := by
    refine List.pairwise_filterMap.2 ?_
    refine (List.nodup_flatMap.1 P.disjoint).2.imp_of_mem fun {c d} hc hd hdisj r hr r' hr' ↦ ?_
    rintro rfl
    obtain ⟨s, hs, -, hkeys⟩ := h.exists_classRoot hc
    obtain ⟨s', hs', -, hkeys'⟩ := h.exists_classRoot hd
    rw [hr] at hs
    rw [hr'] at hs'
    cases hs
    cases hs'
    obtain ⟨k, hk⟩ := List.exists_mem_of_ne_nil _ (P.inhabited c hc)
    obtain ⟨k', hk'⟩ := List.exists_mem_of_ne_nil _ (P.inhabited d hd)
    have hsame : P.Same k k' := (h.same k k').1 (same_iff.2 ⟨r, hkeys k hk, hkeys' k' hk'⟩)
    exact hdisj ((Partition.same_iff_mem hc hk).1 hsame) hk'
  refine (List.perm_ext_iff_of_nodup (List.nodup_range.filter _) hnodup).2 fun r ↦ ⟨fun hr ↦ ?_, ?_⟩
  · obtain ⟨k, hk, hrep⟩ := h.exists_key hr
    obtain ⟨c, hc, hkc⟩ := Partition.mem_keys.1 hk
    obtain ⟨s, hs, -, hkeys⟩ := h.exists_classRoot hc
    rw [hkeys k hkc] at hrep
    cases hrep
    exact List.mem_filterMap.2 ⟨c, hc, hs⟩
  · intro hr
    obtain ⟨c, hc, hs⟩ := List.mem_filterMap.1 hr
    obtain ⟨k, -, hrep⟩ := Option.bind_eq_some_iff.1 hs
    exact mem_roots.2 (h.isRoot_rep hrep)

/-- `f.values` are the values of the classes, each once. -/
theorem Represents.values_perm (h : Represents f P) : f.values.Perm P.values := by
  rw [values_eq h.dense]
  refine (h.roots_perm.filterMap _).trans (.of_eq ?_)
  rw [List.filterMap_filterMap, Partition.values, ← List.filterMap_eq_map]
  refine List.filterMap_congr fun c hc ↦ ?_
  obtain ⟨r, hr, hv, -⟩ := h.exists_classRoot hc
  rw [hr, Option.bind_some, hv]
  rfl

theorem Represents.copy? (h : Represents f P) : f.copy? = some f := by
  rw [Forest.copy?, if_pos]
  rw [isClosed, h.dense, List.all_eq_true]
  intro i _
  cases hp : parent? f.cells i with
  | none => rfl
  | some j =>
    obtain ⟨-, n, -, hn, -⟩ := h.wf.ranked i j hp
    have hj := rank?_eq_some_iff.1 ⟨n, hn⟩
    simpa using hj

/-! ## Sessions -/

/-- The same answer, and forests that represent the partitions. -/
structure Agrees (r : Reply κ ν (Forest κ ν)) (r' : Reply κ ν (Partition κ ν)) : Prop where
  answer : r.answer = r'.answer
  store : Represents r.store r'.store
  copies : List.Forall₂ Represents r.copies r'.copies

omit [DecidableEq κ] in
/-- `perform op f answer` satisfies `R` if `op` ensures `R` of the reply that is made of its
outcome. -/
theorem perform_spec {op : Op κ ν α} {answer : α → Answer κ ν} {R : Reply κ ν (Forest κ ν) → Prop}
    (h : Ensures op f (fun a f' ↦ R ⟨answer a, f', []⟩) fun k f' ↦ R ⟨.missing k, f', []⟩) :
    R (perform op f answer) := by
  rw [perform]
  split
  · rename_i hrun
    exact (ensures_ok hrun).1 h
  · rename_i hrun
    exact (ensures_error hrun).1 h

/-- The failure of `ensures_find_find` is the reply `missing` of `demand`. -/
theorem Represents.agrees_missing (h : Represents f P) {e : κ} {r : Reply κ ν (Partition κ ν)}
    (he : f.contains k = false ∧ e = k ∨ f.contains k = true ∧ f.contains k' = false ∧ e = k')
    (hlike : Like f f') (hframe : Frame f f') :
    Agrees ⟨.missing e, f', []⟩ (P.demand r [k, k']) := by
  have hnot : ∀ a, f.contains a = false → a ∉ P.keys := fun a ha hmem ↦ by
    rw [h.contains_iff.2 hmem] at ha
    cases ha
  rcases he with ⟨hk, rfl⟩ | ⟨hk, hk', rfl⟩
  · rw [Partition.demand, if_neg (hnot _ hk)]
    exact ⟨rfl, h.like hlike hframe, .nil⟩
  · rw [Partition.demand, if_pos (h.contains_iff.1 hk), Partition.demand, if_neg (hnot _ hk')]
    exact ⟨rfl, h.like hlike hframe, .nil⟩

theorem Represents.demand_eq (h : Represents f P) {r : Reply κ ν (Partition κ ν)}
    (hk : f.contains k = true) (hk' : f.contains k' = true) : P.demand r [k, k'] = r := by
  rw [Partition.demand, if_pos (h.contains_iff.1 hk), Partition.demand,
    if_pos (h.contains_iff.1 hk'),
    Partition.demand]

theorem Represents.union (h : Represents f P) (combine : ν → ν → ν) (k k' : κ) :
    Agrees (exec combine (.union k k') f) (P.exec combine (.union k k')) := by
  refine perform_spec (R := (Agrees · _))
    (((ensures_union h.wf combine k k').and (framed_union combine k k' f)).mono ?_ ?_)
  · rintro - f' ⟨⟨hwf, -, hsame, v, v', hv, hv', hvalue⟩, hframe⟩
    have hk := contains_of_value? hv
    have hk' := contains_of_value? hv'
    rw [Partition.exec, h.demand_eq hk hk']
    rw [h.contains_iff] at hk hk'
    refine ⟨rfl,
      ⟨hwf, by rw [hframe.index, hframe.size, h.dense], ?_, fun a b ↦ ?_, fun a ↦ ?_⟩, .nil⟩
    · rw [Forest.keys, hframe.index]
      exact h.keys.trans (Partition.keys_union combine hk hk').symm
    · rw [hsame, Partition.same_union combine hk hk']
      simp only [h.same]
    · rw [h.value] at hv hv'
      rw [hvalue, Partition.value?_union combine hk hk' hv hv', h.value]
      simp only [h.same]
  · rintro e f' ⟨⟨he, hlike⟩, hframe⟩
    exact h.agrees_missing he hlike hframe

theorem Represents.setValue (h : Represents f P) (combine : ν → ν → ν) (k : κ) (v : ν) :
    Agrees (exec combine (.setValue k v) f) (P.exec combine (.setValue k v)) := by
  refine perform_spec (R := (Agrees · _))
    (((ensures_setValue h.wf k v).and (framed_setValue k v f)).mono ?_ ?_)
  · rintro - f' ⟨⟨hwf, -, hk, hsame, hvalue⟩, hframe⟩
    rw [h.contains_iff] at hk
    rw [Partition.exec, Partition.demand, if_pos hk, Partition.demand]
    refine ⟨rfl,
      ⟨hwf, by rw [hframe.index, hframe.size, h.dense], ?_, fun a b ↦ ?_, fun a ↦ ?_⟩, .nil⟩
    · rw [Forest.keys, hframe.index]
      exact h.keys.trans (Partition.keys_setValue hk).symm
    · rw [hsame, Partition.same_setValue hk, h.same]
    · rw [hvalue, Partition.value?_setValue hk, h.value]
      simp only [h.same]
  · rintro e f' ⟨⟨hk, rfl, rfl⟩, -⟩
    rw [Partition.exec, Partition.demand, if_neg fun hmem ↦ by simp [h.contains_iff.2 hmem] at hk]
    exact ⟨rfl, h, .nil⟩

/-- One command: if `f` represents `P`, the replies agree. -/
theorem Represents.exec (h : Represents f P) (combine : ν → ν → ν) (c : Command κ ν)
    (hnew : ∀ k ∈ c.added?, k ∉ P.keys) : Agrees (exec combine c f) (P.exec combine c) := by
  cases c with
  | add k v =>
    have hk : k ∉ P.keys := hnew k rfl
    rw [Partition.exec, dif_neg hk]
    exact ⟨rfl, h.add hk, .nil⟩
  | union k k' => exact h.union combine k k'
  | setValue k v => exact h.setValue combine k v
  | value k =>
    refine perform_spec (R := (Agrees · _))
      (((ensures_look h.wf k).and (framed_look k f)).mono ?_ fun _ _ ↦ (·.1.elim))
    rintro _ f' ⟨⟨rfl, hlike⟩, hframe⟩
    exact ⟨congrArg _ (h.value k), h.like hlike hframe, .nil⟩
  | same k k' =>
    refine perform_spec (R := (Agrees · _))
      (((ensures_same h.wf k k').and (framed_same k k' f)).mono ?_ ?_)
    · rintro _ f' ⟨⟨hk, hk', rfl, hlike⟩, hframe⟩
      rw [Partition.exec, h.demand_eq hk hk']
      exact ⟨congrArg _ (decide_eq_decide.2 (h.same k k')), h.like hlike hframe, .nil⟩
    · rintro e f' ⟨⟨he, hlike⟩, hframe⟩
      exact h.agrees_missing he hlike hframe
  | values => exact ⟨congrArg _ (Multiset.coe_eq_coe.2 h.values_perm), h, .nil⟩
  | contains k =>
    refine ⟨congrArg _ (Bool.eq_iff_iff.2 ?_), h, .nil⟩
    rw [h.contains_iff, decide_eq_true_iff]
  | size => exact ⟨congrArg _ ((List.length_map _).symm.trans h.keys.length_eq), h, .nil⟩
  | copy =>
    rw [Forest.exec, h.copy?]
    exact ⟨rfl, h, .cons h .nil⟩

variable {fs : List (Forest κ ν)} {Ps : List (Partition κ ν)}

/-- One command to one of many stores. -/
theorem step_agrees (combine : ν → ν → ν) (hfs : List.Forall₂ Represents fs Ps) (number : Nat)
    (c : Command κ ν) (hnew : ∀ P ∈ Ps[number]?, ∀ k ∈ c.added?, k ∉ P.keys) :
    (step (exec combine) number c fs).1 = (step (Partition.exec combine) number c Ps).1 ∧
      List.Forall₂ Represents (step (exec combine) number c fs).2
        (step (Partition.exec combine) number c Ps).2 := by
  induction hfs generalizing number with
  | nil => exact ⟨rfl, .nil⟩
  | cons h hrest ih =>
    cases number with
    | zero =>
      have hagrees := h.exec combine c (hnew _ rfl)
      exact ⟨hagrees.answer, .cons hagrees.store (List.rel_append hrest hagrees.copies)⟩
    | succ number =>
      rw [step_cons_succ, step_cons_succ]
      obtain ⟨hanswer, hstores⟩ := ih number hnew
      exact ⟨hanswer, .cons h hstores⟩

/-- The answers to a whole session agree. -/
theorem run_agrees (combine : ν → ν → ν) {steps : List (Nat × Command κ ν)}
    (hfs : List.Forall₂ Represents fs Ps) (hnew : Partition.AddsNew combine steps Ps) :
    run (exec combine) steps fs = run (Partition.exec combine) steps Ps := by
  induction steps generalizing fs Ps with
  | nil => rfl
  | cons s steps ih =>
    obtain ⟨hnew, hrest⟩ := hnew
    obtain ⟨hanswer, hstores⟩ := step_agrees combine hfs s.1 s.2 hnew
    rw [run, run, hanswer, ih hstores hrest]

/-- **A forest answers like a partition.**  Let any list of commands be given to a new store and to
its copies, where `add` is given keys only that are new to their store.  Then all answers are those
of a `Partition`, which keeps its classes as lists. -/
theorem run_forest_eq_run_partition (combine : ν → ν → ν) (steps : List (Nat × Command κ ν))
    (hnew : Partition.AddsNew combine steps [∅]) :
    run (exec combine) steps [∅] = run (Partition.exec combine) steps [∅] :=
  run_agrees combine (.cons represents_empty .nil) hnew

/-- The second of two unions swaps the roots because of their ranks.  A value set in a copy does not
show in the first store, and the order of the arguments of `union` shows in the combined text. -/
theorem run_forest_eq_run_partition_copy :
    run (exec (· ++ ·))
      [(0, .add 'a' "a"), (0, .add 'b' "b"), (0, .add 'c' "c"), (0, .union 'a' 'b'),
        (0, .union 'c' 'b'), (0, .copy), (1, .setValue 'b' "new"), (0, .value 'a'), (1, .value 'c'),
        (1, .union 'c' 'd'), (1, .values)] [∅] =
      [.done, .done, .done, .done, .done, .done, .done, .value (some "cab"), .value (some "new"),
        .missing 'd', .values {"new"}] := by
  rw [run_forest_eq_run_partition _ _ (by decide)]
  rfl

end Forest

end SchemeTyping
