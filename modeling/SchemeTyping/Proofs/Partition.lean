import Mathlib.Data.List.Nodup
import Mathlib.Data.List.Pairwise
import Mathlib.Data.List.Perm.Basic

/-!
# Classes as lists

A `Partition` is a list of disjoint classes, each a list of keys with one value.  To change a class,
`take?` removes it from the list, and the new one is put in front.

`Same` and `value?` are the observations.  Every operation has a law for each of the two, and the
laws do not mention the list of classes.
-/

set_option autoImplicit false

namespace SchemeTyping

/-- Keys in disjoint classes, each class with its value. -/
structure Partition (κ ν : Type) where
  classes : List (List κ × ν)
  inhabited : ∀ c ∈ classes, c.1 ≠ []
  disjoint : (classes.flatMap (·.1)).Nodup

namespace Partition

variable {κ ν : Type}

instance : EmptyCollection (Partition κ ν) := ⟨⟨[], nofun, .nil⟩⟩

/-- The keys of all classes. -/
def keys (P : Partition κ ν) : List κ := P.classes.flatMap (·.1)

/-- The values of the classes. -/
def values (P : Partition κ ν) : List ν := P.classes.map (·.2)

/-- `k` and `k'` are in one class. -/
def Same (P : Partition κ ν) (k k' : κ) : Prop := ∃ c ∈ P.classes, k ∈ c.1 ∧ k' ∈ c.1

variable {P : Partition κ ν} {c d : List κ × ν} {cs ds : List (List κ × ν)}
  {k k' a b : κ} {v v' : ν}

theorem mem_keys : k ∈ P.keys ↔ ∃ c ∈ P.classes, k ∈ c.1 := List.mem_flatMap

theorem Same.mem_keys (h : P.Same k k') : k ∈ P.keys ∧ k' ∈ P.keys := by
  obtain ⟨c, hc, hk, hk'⟩ := h
  exact ⟨Partition.mem_keys.2 ⟨c, hc, hk⟩, Partition.mem_keys.2 ⟨c, hc, hk'⟩⟩

/-- A key is in one class only. -/
theorem eq_of_mem (hc : c ∈ P.classes) (hd : d ∈ P.classes) (hk : k ∈ c.1)
    (hk' : k ∈ d.1) : c = d := by
  by_contra hne
  have hpair := (List.nodup_flatMap.1 P.disjoint).2
  have : Std.Symm (Function.onFun List.Disjoint fun c : List κ × ν ↦ c.1) :=
    ⟨fun _ _ h _ hc hd ↦ h hd hc⟩
  exact hpair.forall hc hd hne hk hk'

theorem same_iff_mem (hc : c ∈ P.classes) (hk : k ∈ c.1) : P.Same k a ↔ a ∈ c.1 := by
  refine ⟨fun ⟨d, hd, hk', ha⟩ ↦ ?_, fun ha ↦ ⟨c, hc, hk, ha⟩⟩
  rw [eq_of_mem hc hd hk hk']
  exact ha

variable [DecidableEq κ]

instance (P : Partition κ ν) (k k' : κ) : Decidable (P.Same k k') :=
  inferInstanceAs (Decidable (∃ c ∈ P.classes, _))

/-! ## Taking a class out -/

/-- The class of `k` and the other classes. -/
def take? (k : κ) : List (List κ × ν) → Option ((List κ × ν) × List (List κ × ν))
  | [] => none
  | c :: cs => if k ∈ c.1 then some (c, cs) else (take? k cs).map fun r ↦ (r.1, c :: r.2)

theorem take?_eq_some (h : take? k cs = some (c, ds)) : k ∈ c.1 ∧ cs.Perm (c :: ds) := by
  induction cs generalizing ds with
  | nil => cases h
  | cons e cs ih =>
    rw [take?] at h
    split at h
    · rename_i hk
      cases h
      exact ⟨hk, .refl _⟩
    · obtain ⟨⟨c', ds'⟩, h', heq⟩ := Option.map_eq_some_iff.1 h
      cases heq
      obtain ⟨hk, hperm⟩ := ih h'
      exact ⟨hk, (hperm.cons e).trans (.swap _ _ _)⟩

theorem take?_eq_none_iff : take? k cs = none ↔ ∀ c ∈ cs, k ∉ c.1 := by
  induction cs with
  | nil => simp [take?]
  | cons e cs ih =>
    rw [take?]
    split <;> simp_all

theorem exists_take? (hk : k ∈ P.keys) : ∃ c ds, take? k P.classes = some (c, ds) := by
  obtain ⟨c, hc, hkc⟩ := mem_keys.1 hk
  cases h : take? k P.classes with
  | none => exact absurd hkc (take?_eq_none_iff.1 h c hc)
  | some r => exact ⟨r.1, r.2, rfl⟩

/-- The other classes are nonempty, disjoint and disjoint from the one that was taken out. -/
theorem take?_apart (hne : ∀ d ∈ cs, d.1 ≠ []) (hcs : (cs.flatMap (·.1)).Nodup)
    (h : take? k cs = some (c, ds)) :
    (c.1 ≠ [] ∧ ∀ d ∈ ds, d.1 ≠ []) ∧ (c.1 ++ ds.flatMap (·.1)).Nodup := by
  have hperm := (take?_eq_some h).2
  refine ⟨List.forall_mem_cons.1 fun d hd ↦ hne d (hperm.mem_iff.2 hd), ?_⟩
  exact (hperm.flatMap_right (·.1)).nodup_iff.1 hcs

/-! ## The operations -/

/-- The value of the class of `k`. -/
def value? (P : Partition κ ν) (k : κ) : Option ν := (take? k P.classes).map (·.1.2)

/-- Adds a class with the new key `k` alone. -/
def add (P : Partition κ ν) (k : κ) (v : ν) (hk : k ∉ P.keys) : Partition κ ν where
  classes := ([k], v) :: P.classes
  inhabited := List.forall_mem_cons.2 ⟨by simp, P.inhabited⟩
  disjoint := List.nodup_cons.2 ⟨hk, P.disjoint⟩

/-- Replaces the value of the class of `k`. -/
def setValue (P : Partition κ ν) (k : κ) (v : ν) : Partition κ ν :=
  match h : take? k P.classes with
  | none => P
  | some (c, cs) =>
    have hapart := take?_apart P.inhabited P.disjoint h
    ⟨(c.1, v) :: cs, List.forall_mem_cons.2 hapart.1, hapart.2⟩

/-- Merges the classes of `k` and `k'` and combines their values. -/
def union (combine : ν → ν → ν) (P : Partition κ ν) (k k' : κ) : Partition κ ν :=
  match h : take? k P.classes with
  | none => P
  | some (c, cs) =>
    match h' : take? k' cs with
    -- The second key is in the class of the first one, or nowhere.
    | none => P
    | some (c', cs') =>
      have hapart := take?_apart P.inhabited P.disjoint h
      have hapart' := take?_apart hapart.1.2 (List.nodup_append.1 hapart.2).2.1 h'
      { classes := (c.1 ++ c'.1, combine c.2 c'.2) :: cs'
        inhabited := List.forall_mem_cons.2 ⟨by simp [hapart.1.1], hapart'.1.2⟩
        disjoint := by
          have hperm := ((take?_eq_some h').2.flatMap_right (·.1)).append_left c.1
          rw [List.flatMap_cons, List.append_assoc]
          exact hperm.nodup_iff.1 hapart.2 }

/-! ## Laws -/

theorem value?_eq_some_iff : P.value? k = some v ↔ ∃ c ∈ P.classes, k ∈ c.1 ∧ c.2 = v := by
  rw [value?]
  cases h : take? k P.classes with
  | none =>
    have hnone := take?_eq_none_iff.1 h
    simp only [Option.map_none, reduceCtorEq, false_iff]
    exact fun ⟨c, hc, hk, _⟩ ↦ hnone c hc hk
  | some r =>
    obtain ⟨hk, hperm⟩ := take?_eq_some h
    have hr : r.1 ∈ P.classes := hperm.mem_iff.2 List.mem_cons_self
    rw [Option.map_some, Option.some.injEq]
    refine ⟨fun hv ↦ ⟨r.1, hr, hk, hv⟩, fun ⟨c, hc, hkc, hv⟩ ↦ ?_⟩
    rw [eq_of_mem hr hc hk hkc, hv]

theorem value?_of_mem (hc : c ∈ P.classes) (hk : k ∈ c.1) : P.value? k = some c.2 :=
  value?_eq_some_iff.2 ⟨c, hc, hk, rfl⟩

/-- `P.value? k` depends on the class of `k` only. -/
theorem value?_congr {Q : Partition κ ν}
    (h : ∀ c, c ∈ P.classes ∧ k ∈ c.1 ↔ c ∈ Q.classes ∧ k ∈ c.1) : P.value? k = Q.value? k := by
  refine Option.ext fun v ↦ ?_
  simp only [value?_eq_some_iff, ← and_assoc, h]

omit [DecidableEq κ] in
theorem same_add (hk : k ∉ P.keys) :
    (P.add k v hk).Same a b ↔ k = a ∧ k = b ∨ k ≠ a ∧ k ≠ b ∧ P.Same a b := by
  have hcons : (P.add k v hk).Same a b ↔ a = k ∧ b = k ∨ P.Same a b := by simp [Same, add]
  have hne : P.Same a b → k ≠ a ∧ k ≠ b := fun h ↦
    ⟨fun ha ↦ hk (ha ▸ h.mem_keys.1), fun hb ↦ hk (hb ▸ h.mem_keys.2)⟩
  rw [hcons, eq_comm (a := a), eq_comm (a := b)]
  grind

theorem value?_add (hk : k ∉ P.keys) :
    (P.add k v hk).value? a = if k = a then some v else P.value? a := by
  split
  · rename_i ha
    exact value?_of_mem (c := ([k], v)) List.mem_cons_self (by simp [ha])
  · rename_i ha
    refine value?_congr fun c ↦ ?_
    rw [add, List.mem_cons]
    refine ⟨fun ⟨hc, hac⟩ ↦ ⟨hc.resolve_left ?_, hac⟩, fun ⟨hc, hac⟩ ↦ ⟨.inr hc, hac⟩⟩
    rintro rfl
    exact ha (List.mem_singleton.1 hac).symm

theorem classes_setValue (h : take? k P.classes = some (c, cs)) :
    (P.setValue k v).classes = (c.1, v) :: cs := by
  rw [setValue]
  split
  · rename_i h'
    rw [h] at h'
    cases h'
  · rename_i h'
    rw [h] at h'
    cases h'
    rfl

theorem keys_setValue (hk : k ∈ P.keys) : (P.setValue k v).keys.Perm P.keys := by
  obtain ⟨c, cs, h⟩ := exists_take? hk
  rw [keys, classes_setValue h]
  exact ((take?_eq_some h).2.flatMap_right (·.1)).symm

theorem same_setValue (hk : k ∈ P.keys) : (P.setValue k v).Same a b ↔ P.Same a b := by
  obtain ⟨c, cs, h⟩ := exists_take? hk
  rw [Same, Same, classes_setValue h]
  simp [(take?_eq_some h).2.mem_iff]

theorem value?_setValue (hk : k ∈ P.keys) :
    (P.setValue k v).value? a = if P.Same k a then some v else P.value? a := by
  obtain ⟨c, cs, h⟩ := exists_take? hk
  obtain ⟨hkc, hperm⟩ := take?_eq_some h
  have hsame : P.Same k a ↔ a ∈ c.1 := same_iff_mem (hperm.mem_iff.2 List.mem_cons_self) hkc
  split
  · rename_i ha
    refine value?_of_mem (c := (c.1, v)) ?_ (hsame.1 ha)
    rw [classes_setValue h]
    exact List.mem_cons_self
  · rename_i ha
    have hac : a ∉ c.1 := fun hac ↦ ha (hsame.2 hac)
    refine value?_congr fun d ↦ and_congr_left fun had ↦ ?_
    rw [classes_setValue h, hperm.mem_iff, List.mem_cons, List.mem_cons]
    refine or_congr_left ⟨?_, ?_⟩ <;> rintro rfl <;> exact absurd had hac

/-- `union` changes nothing if `k` and `k'` are in one class.  Otherwise the two classes are
replaced by one with the keys of both. -/
theorem union_cases (combine : ν → ν → ν) (hk : k ∈ P.keys) (hk' : k' ∈ P.keys) :
    P.Same k k' ∧ P.union combine k k' = P ∨
      ∃ c c' cs, k ∈ c.1 ∧ k' ∈ c'.1 ∧ P.classes.Perm (c :: c' :: cs) ∧
        (P.union combine k k').classes = (c.1 ++ c'.1, combine c.2 c'.2) :: cs := by
  obtain ⟨c, cs, h⟩ := exists_take? hk
  obtain ⟨hkc, hperm⟩ := take?_eq_some h
  cases h' : take? k' cs with
  | none =>
    refine .inl ⟨?_, ?_⟩
    · obtain ⟨d, hd, hkd⟩ := mem_keys.1 hk'
      rcases List.mem_cons.1 (hperm.mem_iff.1 hd) with rfl | hd'
      · exact ⟨d, hd, hkc, hkd⟩
      · exact absurd hkd (take?_eq_none_iff.1 h' d hd')
    · rw [union]
      split
      · rfl
      · rename_i h₂
        rw [h] at h₂
        cases h₂
        split
        · rfl
        · rename_i h₃
          rw [h'] at h₃
          cases h₃
  | some r =>
    obtain ⟨c', cs'⟩ := r
    obtain ⟨hkc', hperm'⟩ := take?_eq_some h'
    refine .inr ⟨c, c', cs', hkc, hkc', hperm.trans (hperm'.cons c), ?_⟩
    rw [union]
    split
    · rename_i h₂
      rw [h] at h₂
      cases h₂
    · rename_i h₂
      rw [h] at h₂
      cases h₂
      split
      · rename_i h₃
        rw [h'] at h₃
        cases h₃
      · rename_i h₃
        rw [h'] at h₃
        cases h₃
        rfl

section Union

variable (combine : ν → ν → ν) (hk : k ∈ P.keys) (hk' : k' ∈ P.keys)

include hk hk'

theorem keys_union : (P.union combine k k').keys.Perm P.keys := by
  rcases union_cases combine hk hk' with ⟨-, heq⟩ | ⟨c, c', cs, -, -, hperm, heq⟩
  · rw [heq]
  · rw [keys, heq, List.flatMap_cons, List.append_assoc]
    exact (hperm.flatMap_right (·.1)).symm

theorem same_union : (P.union combine k k').Same a b ↔
    P.Same a b ∨ (P.Same k a ∨ P.Same k' a) ∧ (P.Same k b ∨ P.Same k' b) := by
  rcases union_cases combine hk hk'
    with ⟨⟨c, hc, hkc, hkc'⟩, heq⟩ | ⟨c, c', cs, hkc, hkc', hperm, heq⟩
  · simp only [heq, same_iff_mem hc hkc, same_iff_mem hc hkc', or_self]
    exact ⟨.inl, fun h ↦ h.elim id fun ⟨ha, hb⟩ ↦ ⟨c, hc, ha, hb⟩⟩
  · have hc : c ∈ P.classes := hperm.mem_iff.2 (by simp)
    have hc' : c' ∈ P.classes := hperm.mem_iff.2 (by simp)
    simp only [same_iff_mem hc hkc, same_iff_mem hc' hkc']
    rw [Same, Same, heq]
    simp only [hperm.mem_iff, List.mem_cons, List.mem_append, exists_eq_or_imp]
    generalize (∃ d, d ∈ cs ∧ a ∈ d.1 ∧ b ∈ d.1) = inRest
    grind

theorem value?_union (hv : P.value? k = some v) (hv' : P.value? k' = some v') :
    (P.union combine k k').value? a =
      if ¬ P.Same k k' ∧ (P.Same k a ∨ P.Same k' a) then some (combine v v') else P.value? a := by
  rcases union_cases combine hk hk' with ⟨hsame, heq⟩ | ⟨c, c', cs, hkc, hkc', hperm, heq⟩
  · rw [heq, if_neg fun h ↦ h.1 hsame]
  · have hc : c ∈ P.classes := hperm.mem_iff.2 (by simp)
    have hc' : c' ∈ P.classes := hperm.mem_iff.2 (by simp)
    obtain rfl : c.2 = v := Option.some.inj ((value?_of_mem hc hkc).symm.trans hv)
    obtain rfl : c'.2 = v' := Option.some.inj ((value?_of_mem hc' hkc').symm.trans hv')
    have hin : P.Same k a ∨ P.Same k' a ↔ a ∈ c.1 ++ c'.1 := by
      rw [same_iff_mem hc hkc, same_iff_mem hc' hkc', List.mem_append]
    -- The two classes are disjoint, because they are two members of the list.
    have hnot : ¬ P.Same k k' := fun h ↦ by
      have hkeys := (hperm.flatMap_right (·.1)).nodup_iff.1 P.disjoint
      rw [List.flatMap_cons, List.flatMap_cons] at hkeys
      have hdisj := List.disjoint_of_nodup_append hkeys
      exact hdisj ((same_iff_mem hc hkc).1 h) (List.mem_append_left _ hkc')
    split
    · rename_i ha
      refine value?_of_mem (c := (c.1 ++ c'.1, combine c.2 c'.2)) ?_ (hin.1 ha.2)
      rw [heq]
      exact List.mem_cons_self
    · rename_i ha
      have hac : a ∉ c.1 ++ c'.1 := fun hac ↦ ha ⟨hnot, hin.2 hac⟩
      rw [List.mem_append, not_or] at hac
      refine value?_congr fun d ↦ and_congr_left fun had ↦ ?_
      rw [heq, hperm.mem_iff, List.mem_cons, List.mem_cons, List.mem_cons]
      refine ⟨fun h ↦ h.elim ?_ fun h ↦ .inr (.inr h), fun h ↦ ?_⟩
      · rintro rfl
        exact absurd (List.mem_append.1 had) (not_or.2 hac)
      · rcases h with rfl | rfl | h
        · exact absurd had hac.1
        · exact absurd had hac.2
        · exact .inr h

end Union

end Partition

end SchemeTyping
