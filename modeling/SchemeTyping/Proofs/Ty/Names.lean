import Mathlib.Data.List.Nodup
import Mathlib.Data.List.Perm.Subperm
import SchemeTyping.Ty.Names

/-!
# Fresh names

`Names` gives names that are not in a list to avoid: the letters, round after round.

## What is here

* `letterName_injective` — different indices have different names.
* `length_le_free`, `fresh_notMem_avoid` — more names are tried than there are to avoid, so one of
  them is free and `Names.fresh` finds it.
* `Search` — the search without a bound on the tries; `exists_search` says that it ends and that
  `Names.fresh` gives what it finds.
* `free_cons`, `take_eq_take_free` — a name that was given is avoided from then on but has a smaller
  index, so the names given are the first of the enumeration without those to avoid at the
  beginning.
-/

set_option autoImplicit false

namespace SchemeTyping

theorem toDigits_injective {m n : Nat} (h : Nat.toDigits 10 m = Nat.toDigits 10 n) : m = n := by
  rw [← Nat.ofDigitChars_ten_toDigits (n := m), h, Nat.ofDigitChars_ten_toDigits]

theorem toList_letterName (i : Nat) : (letterName i).toList =
    Char.ofNat ('a'.toNat + i % 26) :: if i / 26 = 0 then [] else Nat.toDigits 10 (i / 26) := by
  rw [letterName]
  split
  · simp
  · simp [Nat.toString_eq_repr, Nat.toList_repr]

theorem letter_injective {i j : Nat} (hi : i < 26) (hj : j < 26)
    (h : Char.ofNat ('a'.toNat + i) = Char.ofNat ('a'.toNat + j)) : i = j := by
  have hletter : ∀ k < 26, (Char.ofNat ('a'.toNat + k)).toNat = 'a'.toNat + k := by
    intro k hk
    have hvalid : ('a'.toNat + k).isValidChar := by
      left
      rw [show 'a'.toNat = 97 from rfl]
      omega
    rw [Char.ofNat, dif_pos hvalid]
    rfl
  have h := congrArg Char.toNat h
  rw [hletter i hi, hletter j hj] at h
  omega

theorem letterName_injective {i j : Nat} (h : letterName i = letterName j) : i = j := by
  have h := congrArg String.toList h
  rw [toList_letterName, toList_letterName, List.cons.injEq] at h
  have hmod : i % 26 = j % 26 :=
    letter_injective (Nat.mod_lt _ (by omega)) (Nat.mod_lt _ (by omega)) h.1
  have hdiv : i / 26 = j / 26 := by
    have h := h.2
    split at h <;> split at h
    · omega
    · exact absurd h.symm Nat.toDigits_ne_nil
    · exact absurd h Nat.toDigits_ne_nil
    · exact toDigits_injective h
  omega

namespace Names

/-! ## Free names -/

/-- The names of the `len` indices from `next` on that are not in `avoid`. -/
def free (avoid : List String) (next len : Nat) : List String :=
  ((List.range' next len).map letterName).filter (· ∉ avoid)

theorem nodup_letterNames (next len : Nat) : ((List.range' next len).map letterName).Nodup :=
  List.Nodup.map (fun _ _ h ↦ letterName_injective h) List.nodup_range'

/-- At most `avoid.length` of these names are missing. -/
theorem length_le_free (avoid : List String) (next len : Nat) :
    len ≤ (free avoid next len).length + avoid.length := by
  have hsub : ((List.range' next len).map letterName).filter (¬ · ∉ avoid) ⊆ avoid := by
    intro name hname
    simpa using (List.mem_filter.1 hname).2
  have hle := (((nodup_letterNames next len).filter _).subperm hsub).length_le
  have hsum :=
    List.length_eq_length_filter_add (l := (List.range' next len).map letterName) (· ∉ avoid)
  rw [List.length_map, List.length_range'] at hsum
  rw [free]
  simp only [decide_not] at *
  omega

/-- `firstFree` stops at `next + k`, where the names before are in `avoid`; the name at `next + k`
is not, unless the tries were used up. -/
theorem firstFree_spec (avoid : List String) (tries next : Nat) :
    ∃ k, firstFree avoid tries next = next + k ∧ (∀ i < k, letterName (next + i) ∈ avoid) ∧
      (k = tries ∨ letterName (next + k) ∉ avoid) := by
  induction tries generalizing next with
  | zero => exact ⟨0, rfl, by omega, .inl rfl⟩
  | succ tries ih =>
    rw [firstFree]
    split
    · rename_i hmem
      obtain ⟨k, hk, hbefore, hend⟩ := ih (next + 1)
      refine ⟨k + 1, by rw [hk]; omega, fun i hi ↦ ?_, ?_⟩
      · cases i with
        | zero => exact List.contains_iff_mem.1 hmem
        | succ i =>
          rw [show next + (i + 1) = next + 1 + i by omega]
          exact hbefore i (by omega)
      · rw [show next + (k + 1) = next + 1 + k by omega]
        exact hend.imp_left (by omega)
    · rename_i hmem
      exact ⟨0, rfl, by omega, .inr fun h ↦ hmem (List.contains_iff_mem.2 h)⟩

/-- `names.fresh` gives a name that is not in `names.avoid`. -/
theorem fresh_notMem_avoid (names : Names) : names.fresh.1 ∉ names.avoid := by
  obtain ⟨k, hk, hbefore, hend⟩ := firstFree_spec names.avoid (names.avoid.length + 1) names.next
  rw [fresh, hk]
  refine hend.resolve_left fun hfull ↦ ?_
  -- Otherwise more names than there are to avoid would be avoided.
  have hnone : free names.avoid names.next k = [] := by
    rw [free, List.filter_eq_nil_iff]
    intro name hname
    obtain ⟨i, hi, rfl⟩ := List.mem_map.1 hname
    obtain ⟨j, hj, rfl⟩ := List.mem_range'.1 hi
    simpa using hbefore j hj
  have hle := length_le_free names.avoid names.next k
  rw [hnone, List.length_nil] at hle
  omega

/-! ## Searching without a bound -/

/-- The search for a name that is not in `avoid`, from an index on, ends at an index. -/
inductive Search (avoid : List String) : Nat → Nat → Prop
  | found {i : Nat} (h : letterName i ∉ avoid) : Search avoid i i
  | later {i j : Nat} (h : letterName i ∈ avoid) (hs : Search avoid (i + 1) j) : Search avoid i j

theorem search_firstFree {avoid : List String} {tries next : Nat}
    (h : letterName (firstFree avoid tries next) ∉ avoid) :
    Search avoid next (firstFree avoid tries next) := by
  induction tries generalizing next with
  | zero => exact .found h
  | succ tries ih =>
    rw [firstFree] at h ⊢
    split at h
    · next hmem =>
      rw [if_pos hmem]
      exact .later (List.contains_iff_mem.1 hmem) (ih h)
    · next hmem =>
      rw [if_neg hmem]
      exact .found h

/-- `names.fresh` gives the name that the search finds, and the next one begins after it. -/
theorem exists_search (names : Names) : ∃ i, Search names.avoid names.next i ∧
    names.fresh = (letterName i, ⟨i + 1, letterName i :: names.avoid⟩) :=
  ⟨_, search_firstFree (fresh_notMem_avoid names), rfl⟩

theorem Search.le {avoid : List String} {next i : Nat} (h : Search avoid next i) : next ≤ i := by
  induction h with
  | found => exact Nat.le_refl _
  | later _ _ ih => omega

theorem free_succ (avoid : List String) (next len : Nat) : free avoid next (len + 1) =
    if letterName next ∉ avoid then letterName next :: free avoid (next + 1) len
    else free avoid (next + 1) len := by
  simp [free, List.range'_succ, List.filter_cons]

/-- The name that the search finds is the first of `free`. -/
theorem Search.free_eq {avoid : List String} {next i : Nat} (h : Search avoid next i) (len : Nat) :
    free avoid next len =
      if i < next + len then letterName i :: free avoid (i + 1) (next + len - (i + 1)) else [] := by
  induction h generalizing len with
  | @found next h =>
    cases len with
    | zero => simp [free]
    | succ len =>
      rw [free_succ, if_pos h, if_pos (by omega), show next + (len + 1) - (next + 1) = len by omega]
  | @later next i h hs ih =>
    cases len with
    | zero =>
      have := hs.le
      rw [if_neg (by omega)]
      rfl
    | succ len =>
      rw [free_succ, if_neg (not_not.2 h), ih, show next + 1 + len = next + (len + 1) by omega]

/-! ## The names that a supply gives -/

/-- To avoid a name of a smaller index does not change `free`. -/
theorem free_cons {i next : Nat} (h : i < next) (avoid : List String) (len : Nat) :
    free (letterName i :: avoid) next len = free avoid next len := by
  refine List.filter_congr fun name hname ↦ ?_
  obtain ⟨j, hj, rfl⟩ := List.mem_map.1 hname
  have hne : letterName j ≠ letterName i := fun heq ↦ by
    have := letterName_injective heq
    have := (List.mem_range'_1.1 hj).1
    omega
  simp [hne]

theorem take_eq_take_free {count len : Nat} {names : Names}
    (h : count ≤ (free names.avoid names.next len).length) :
    take count names = (free names.avoid names.next len).take count := by
  induction count generalizing names len with
  | zero => rfl
  | succ count ih =>
    obtain ⟨i, hsearch, hfresh⟩ := names.exists_search
    rw [hsearch.free_eq] at h ⊢
    split at h
    · next hi =>
      rw [if_pos hi, List.take_succ_cons, take, hfresh]
      have hbehind := free_cons (Nat.lt_succ_self i) names.avoid (names.next + len - (i + 1))
      rw [← hbehind]
      exact congrArg _ (ih (hbehind ▸ Nat.le_of_succ_le_succ h))
    · exact absurd h (Nat.not_succ_le_zero count)

/-! ## The enumeration -/

/-- The letters from `a` to `z`. -/
def letters : List Char := "abcdefghijklmnopqrstuvwxyz".toList

/-- The names of one round: the letters, followed by the number of the round unless it is the
first. -/
def roundNames (round : Nat) : List String :=
  letters.map fun c ↦ String.singleton c ++ if round = 0 then "" else toString round

/-- The names of the first `rounds` rounds. -/
def enumeration (rounds : Nat) : List String := (List.range rounds).flatMap roundNames

theorem roundNames_eq (round : Nat) :
    roundNames round = (List.range' (26 * round) 26).map letterName := by
  have hletters : letters = (List.range 26).map fun i ↦ Char.ofNat ('a'.toNat + i) := by decide
  rw [roundNames, hletters, List.range'_eq_map_range, List.map_map, List.map_map]
  refine List.map_congr_left fun i hi ↦ ?_
  have hi := List.mem_range.1 hi
  have hmod : (26 * round + i) % 26 = i := by omega
  have hdiv : (26 * round + i) / 26 = round := by omega
  simp only [Function.comp, letterName, hmod, hdiv]
  split <;> simp

theorem enumeration_eq (rounds : Nat) :
    enumeration rounds = (List.range' 0 (26 * rounds)).map letterName := by
  induction rounds with
  | zero => rfl
  | succ rounds ih =>
    rw [enumeration, List.range_succ, List.flatMap_append, ← enumeration, ih,
      List.flatMap_singleton,
      roundNames_eq, Nat.mul_succ, ← List.range'_append_1, List.map_append, Nat.zero_add]

/-- **Fresh names never run out and never repeat.**  Every `Search` ends, and `Names.fresh` gives
what it finds.  The first `count` names that are given are the first `count` of the enumeration
without `avoid`, in their order; so they are different from each other and from those of `avoid`. -/
theorem take_avoiding {avoid : List String} {count rounds : Nat}
    (h : avoid.length + count ≤ 26 * rounds) :
    (∀ names : Names, ∃ i, Search names.avoid names.next i ∧
      names.fresh = (letterName i, ⟨i + 1, letterName i :: names.avoid⟩)) ∧
    take count (avoiding avoid) = ((enumeration rounds).filter (· ∉ avoid)).take count ∧
    (take count (avoiding avoid)).length = count ∧ (take count (avoiding avoid)).Nodup ∧
    ∀ name ∈ take count (avoiding avoid), name ∉ avoid := by
  have henough : count ≤ (free avoid 0 (26 * rounds)).length := by
    have := length_le_free avoid 0 (26 * rounds)
    omega
  have htake : take count (avoiding avoid) = (free avoid 0 (26 * rounds)).take count :=
    take_eq_take_free henough
  refine ⟨exists_search, by rw [htake, enumeration_eq, free], ?_, ?_, fun name hname ↦ ?_⟩
  · rw [htake, List.length_take, Nat.min_eq_left henough]
  · rw [htake]
    exact ((nodup_letterNames _ _).filter _).sublist (List.take_sublist _ _)
  · rw [htake] at hname
    simpa using (List.mem_filter.1 (List.mem_of_mem_take hname)).2

/-- Two names are avoided, one of them in the second round, which is reached. -/
theorem take_avoiding_second_round :
    ["b", "a1"].length + 26 ≤ 26 * 2 ∧
    take 26 (avoiding ["b", "a1"]) = ((enumeration 2).filter (· ∉ ["b", "a1"])).take 26 ∧
    (take 26 (avoiding ["b", "a1"])).getLast? = some "b1" := by
  have h : ["b", "a1"].length + 26 ≤ 26 * 2 := by decide
  exact ⟨h, (take_avoiding h).2.1, by decide +kernel⟩

end Names

end SchemeTyping
