import Mathlib.Data.List.Nodup
import SchemeTyping.Forest
import SchemeTyping.Proofs.Outcome

/-!
# The classes of a forest

A forest is `WF` if every key has a cell and ranks grow along the links.  Then the links above a
cell lead to a root (`rootOf_root`), and the operations can be described without mentioning cells:
by `Same`, which says that two keys are in one class, and by the value `value?` of a class.

## What is here

* `ensures_find` — `find` changes neither.
* `ensures_setValue` — `setValue` changes the value of one class.
* `ensures_union` — `union` merges two classes and combines their values.
* `same_add`, `value?_add` — `add` puts a new key into a class of its own.

The modules after this one do not mention cells, parents and ranks, apart from `Forest.Rank`.
-/

set_option autoImplicit false

namespace SchemeTyping.Forest

variable {κ ν : Type}

/-! ## Links and ranks -/

/-- The rank of a cell. -/
def rank? (cells : Array (Cell ν)) (i : Nat) : Option Nat := (cells[i]?).map (·.rank)

/-- The value of a cell. -/
def valueAt? (cells : Array (Cell ν)) (i : Nat) : Option ν := (cells[i]?).map (·.value)

/-- Every parent is a cell of a greater rank. -/
def Ranked (cells : Array (Cell ν)) : Prop :=
  ∀ i j, parent? cells i = some j → ∃ m n, rank? cells i = some m ∧ rank? cells j = some n ∧ m < n

/-- The links above the cell `i` lead to the root `r`. -/
inductive RootOf (cells : Array (Cell ν)) : Nat → Nat → Prop
  | root {i : Nat} (hi : i < cells.size) (hp : parent? cells i = none) : RootOf cells i i
  | link {i j r : Nat} (hp : parent? cells i = some j) (hr : RootOf cells j r) : RootOf cells i r

variable {cells cells' : Array (Cell ν)} {i j r s : Nat}

theorem rank?_eq_some_iff : (∃ m, rank? cells i = some m) ↔ i < cells.size := by
  constructor
  · rintro ⟨m, hm⟩
    obtain ⟨c, hc, -⟩ := Option.map_eq_some_iff.1 hm
    exact (Array.getElem?_eq_some_iff.1 hc).1
  · intro hi
    exact ⟨cells[i].rank, by simp [rank?, hi]⟩

theorem RootOf.isRoot (h : RootOf cells i r) : r < cells.size ∧ parent? cells r = none := by
  induction h with
  | root hi hp => exact ⟨hi, hp⟩
  | link hp hr ih => exact ih

theorem RootOf.unique (h : RootOf cells i r) : ∀ {s : Nat}, RootOf cells i s → r = s := by
  induction h with
  | root hi hp =>
    intro s hs
    cases hs with
    | root => rfl
    | link hp' => rw [hp] at hp'; cases hp'
  | link hp hr ih =>
    intro s hs
    cases hs with
    | root hi hp' => rw [hp] at hp'; cases hp'
    | link hp' hs' =>
      rw [hp] at hp'
      cases hp'
      exact ih hs'

theorem rootOf_self_iff : RootOf cells r r ↔ r < cells.size ∧ parent? cells r = none :=
  ⟨RootOf.isRoot, fun h ↦ .root h.1 h.2⟩

/-- A root other than the cell itself has a greater rank. -/
theorem RootOf.rank_lt (h : RootOf cells i r) (hc : Ranked cells) (hne : i ≠ r) :
    ∃ m n, rank? cells i = some m ∧ rank? cells r = some n ∧ m < n := by
  induction h with
  | root => exact absurd rfl hne
  | @link i j r hp hr ih =>
    obtain ⟨m, n, hm, hn, hlt⟩ := hc i j hp
    by_cases hjr : j = r
    · subst hjr
      exact ⟨m, n, hm, hn, hlt⟩
    · obtain ⟨m', n', hm', hn', hlt'⟩ := ih hjr
      rw [hn] at hm'
      cases hm'
      exact ⟨m, n', hm, hn', Nat.lt_trans hlt hlt'⟩

/-- `RootOf` depends on the links only. -/
theorem RootOf.congr (h : RootOf cells i r) (hs : cells'.size = cells.size)
    (hp : ∀ j, parent? cells' j = parent? cells j) : RootOf cells' i r := by
  induction h with
  | root hi hp' => exact .root (hs ▸ hi) ((hp _).trans hp')
  | link hp' _ ih => exact .link ((hp _).trans hp') ih

/-!
## Climbing

Fewer cells have a greater rank with every link, so the number of cells bounds the length of a
climb.
-/

/-- The number of cells with a rank greater than `m`. -/
def higher (cells : Array (Cell ν)) (m : Nat) : Nat := cells.toList.countP fun c ↦ m < c.rank

theorem higher_lt {m n : Nat} (hm : rank? cells j = some n) (hlt : m < n) :
    higher cells n < higher cells m := by
  obtain ⟨c, hc, rfl⟩ : ∃ c, cells[j]? = some c ∧ c.rank = n := by simpa [rank?] using hm
  have hmem : c ∈ cells.toList := by
    rw [Array.mem_toList_iff]
    exact Array.mem_of_getElem? hc
  unfold higher
  generalize cells.toList = cs at hmem
  induction cs with
  | nil => simp at hmem
  | cons d ds ih =>
    have hle : ds.countP (fun x ↦ decide (c.rank < x.rank)) ≤
        ds.countP (fun x ↦ decide (m < x.rank)) :=
      List.countP_mono_left fun x _ hx ↦ by simp only [decide_eq_true_eq] at hx ⊢; omega
    rw [List.countP_cons, List.countP_cons]
    rcases List.mem_cons.1 hmem with rfl | hmem
    · simp [hlt]; omega
    · have := ih hmem
      by_cases hd : c.rank < d.rank
      · have hd' : m < d.rank := Nat.lt_trans hlt hd
        simp [hd, hd']; omega
      · simp [hd]; omega

theorem rootOf_climb (hc : Ranked cells) : ∀ (n i m : Nat), rank? cells i = some m →
    higher cells m ≤ n → RootOf cells i (climb cells n i)
  | n, i, m, hm, hn => by
    cases hp : parent? cells i with
    | none =>
      have hroot : RootOf cells i i := .root (rank?_eq_some_iff.1 ⟨m, hm⟩) hp
      cases n with
      | zero => exact hroot
      | succ n => rw [climb, hp]; exact hroot
    | some j =>
      obtain ⟨m', k, hm', hk, hlt⟩ := hc i j hp
      rw [hm] at hm'
      cases hm'
      have hlt' := higher_lt hk hlt
      cases n with
      | zero => omega
      | succ n =>
        rw [climb, hp]
        exact .link hp (rootOf_climb hc n j k hk (by omega))

theorem rootOf_root {f : Forest κ ν} (hc : Ranked f.cells) (hi : i < f.cells.size) :
    RootOf f.cells i (f.root i) := by
  obtain ⟨m, hm⟩ := rank?_eq_some_iff.2 hi
  refine rootOf_climb hc _ i m hm ?_
  rw [higher, ← Array.length_toList]
  exact List.countP_le_length

theorem root_eq {f : Forest κ ν} (hc : Ranked f.cells) (h : RootOf f.cells i r) : f.root i = r := by
  refine (rootOf_root hc ?_).unique h
  cases h with
  | root hi => exact hi
  | link hp hr =>
    obtain ⟨m, -, hm, -⟩ := hc _ _ hp
    exact rank?_eq_some_iff.1 ⟨m, hm⟩

/-! ## Changes that preserve roots and values -/

/-- `cells'` has the roots and values of `cells`, and is `Ranked`. -/
structure Keeps (cells cells' : Array (Cell ν)) : Prop where
  ranked : Ranked cells'
  size : cells'.size = cells.size
  roots : ∀ i r, RootOf cells i r → RootOf cells' i r
  values : ∀ i, valueAt? cells' i = valueAt? cells i

theorem Keeps.refl (hc : Ranked cells) : Keeps cells cells := ⟨hc, rfl, fun _ _ h ↦ h, fun _ ↦ rfl⟩

theorem Keeps.trans {cells'' : Array (Cell ν)} (h : Keeps cells cells')
    (h' : Keeps cells' cells'') : Keeps cells cells'' :=
  ⟨h'.ranked, h'.size.trans h.size, fun i r hr ↦ h'.roots i r (h.roots i r hr),
    fun i ↦ (h'.values i).trans (h.values i)⟩

theorem parent?_modify (g : Cell ν → Cell ν) (i j : Nat) :
    parent? (cells.modify i g) j
      = if i = j then (cells[i]?).bind fun c ↦ (g c).parent else parent? cells j := by
  rw [parent?, Array.getElem?_modify]
  split
  · rename_i h
    subst h
    cases cells[i]? <;> rfl
  · rfl

theorem rank?_modify (g : Cell ν → Cell ν) (i j : Nat) :
    rank? (cells.modify i g) j
      = if i = j then (cells[i]?).map fun c ↦ (g c).rank else rank? cells j := by
  rw [rank?, Array.getElem?_modify]
  split
  · rename_i h
    subst h
    cases cells[i]? <;> rfl
  · rfl

/-- To link a cell directly to its root preserves roots and values. -/
theorem keeps_relink (hc : Ranked cells) (h : RootOf cells i r) (hne : i ≠ r) :
    Keeps cells (cells.modify i fun c ↦ { c with parent := some r }) := by
  have hranks : ∀ j, rank? (cells.modify i fun c ↦ { c with parent := some r }) j
      = rank? cells j := by
    intro j
    rw [rank?_modify]
    split
    · rename_i hij
      rw [← hij]
      rfl
    · rfl
  have hparent : ∀ j, parent? (cells.modify i fun c ↦ { c with parent := some r }) j
      = if i = j then some r else parent? cells j := by
    intro j
    rw [parent?_modify]
    split
    · obtain ⟨m, -, hm, -⟩ := h.rank_lt hc hne
      obtain ⟨c, hc', -⟩ := Option.map_eq_some_iff.1 hm
      simp [hc']
    · rfl
  have hroot : RootOf (cells.modify i fun c ↦ { c with parent := some r }) r r := by
    rw [rootOf_self_iff, hparent, if_neg hne, Array.size_modify]
    exact h.isRoot
  refine ⟨?_, Array.size_modify, ?_, ?_⟩
  · intro j k hp
    rw [hparent] at hp
    rw [hranks, hranks]
    split at hp
    · rename_i hij
      cases hp
      exact hij ▸ h.rank_lt hc hne
    · exact hc j k hp
  · intro j s hs
    induction hs with
    | @root j hj hp =>
      by_cases hij : i = j
      · subst hij
        exact absurd ((RootOf.root hj hp).unique h) hne
      · refine .root (by rwa [Array.size_modify]) ?_
        rw [hparent, if_neg hij, hp]
    | @link j k s hp hs ih =>
      by_cases hij : i = j
      · subst hij
        obtain rfl := (RootOf.link hp hs).unique h
        exact .link (by rw [hparent, if_pos rfl]) hroot
      · exact .link (by rw [hparent, if_neg hij, hp]) ih
  · intro j
    rw [valueAt?, Array.getElem?_modify]
    split
    · rw [valueAt?]
      cases cells[j]? <;> rfl
    · rfl

theorem keeps_shorten : ∀ (steps i : Nat) (cells : Array (Cell ν)), Ranked cells →
    RootOf cells i r → Keeps cells (shorten r steps i cells)
  | 0, i, cells, hc, _ => .refl hc
  | steps + 1, i, cells, hc, h => by
    rw [shorten]
    cases hp : parent? cells i with
    | none => exact .refl hc
    | some j =>
      dsimp only
      split
      · exact .refl hc
      · have hj : RootOf cells j r := by
          cases h with
          | root hi hp' => rw [hp] at hp'; cases hp'
          | link hp' hr =>
            rw [hp] at hp'
            cases hp'
            exact hr
        have hne : i ≠ r := by
          rintro rfl
          rw [h.isRoot.2] at hp
          cases hp
        have hk := keeps_relink hc h hne
        exact hk.trans (keeps_shorten steps j _ hk.ranked (hk.roots j r hj))

theorem keeps_set (hc : Ranked cells) (v : ν) (i : Nat) :
    (∀ j, valueAt? (cells.modify i fun c ↦ { c with value := v }) j
        = if i = j ∧ j < cells.size then some v else valueAt? cells j)
      ∧ Ranked (cells.modify i fun c ↦ { c with value := v })
      ∧ ∀ j r, RootOf cells j r → RootOf (cells.modify i fun c ↦ { c with value := v }) j r := by
  have hparent : ∀ j, parent? (cells.modify i fun c ↦ { c with value := v }) j
      = parent? cells j := by
    intro j
    rw [parent?_modify]
    split
    · rename_i hij
      rw [← hij]
      rfl
    · rfl
  refine ⟨?_, ?_, fun j r h ↦ h.congr Array.size_modify hparent⟩
  · intro j
    rw [valueAt?, valueAt?, Array.getElem?_modify]
    by_cases hj : j < cells.size
    · by_cases hij : i = j <;> simp [hij, hj]
    · simp [hj]
  · intro j k hp
    rw [hparent] at hp
    obtain ⟨m, n, hm, hn, hlt⟩ := hc j k hp
    refine ⟨m, n, ?_, ?_, hlt⟩
    · rw [rank?_modify]
      split
      · rename_i hij
        rw [← hij] at hm
        exact hm
      · exact hm
    · rw [rank?_modify]
      split
      · rename_i hij
        rw [← hij] at hn
        exact hn
      · exact hn

/-! ## Linking two roots -/

section link

variable {below above m n : Nat} {e : Bool} {v : ν}

theorem parent?_link (hne : below ≠ above) (hb : below < cells.size)
    (ha : parent? cells above = none) (j : Nat) :
    parent? (link cells below above e v) j
      = if below = j then some above else parent? cells j := by
  rw [link, parent?_modify]
  split
  · rename_i hj
    subst hj
    rw [if_neg hne, ha, Array.getElem?_modify, if_neg hne]
    rw [parent?] at ha
    exact ha
  · rw [parent?_modify]
    simp [hb]

theorem rank?_link (hne : below ≠ above) (ha : rank? cells above = some n) (j : Nat) :
    rank? (link cells below above e v) j
      = if above = j then some (if e then n + 1 else n) else rank? cells j := by
  obtain ⟨c, hc, rfl⟩ := Option.map_eq_some_iff.1 ha
  rw [link, rank?_modify]
  split
  · rw [Array.getElem?_modify, if_neg hne, hc]
    rfl
  · rw [rank?_modify]
    split
    · rename_i hj
      rw [← hj]
      rfl
    · rfl

theorem valueAt?_link (hne : below ≠ above) (ha : above < cells.size) (j : Nat) :
    valueAt? (link cells below above e v) j
      = if above = j then some v else valueAt? cells j := by
  rw [link, valueAt?, valueAt?, Array.getElem?_modify]
  split
  · rename_i hj
    subst hj
    rw [Array.getElem?_modify, if_neg hne]
    simp [ha]
  · rw [Array.getElem?_modify]
    split <;> cases cells[j]? <;> rfl

theorem ranked_link (hc : Ranked cells) (hne : below ≠ above) (hm : rank? cells below = some m)
    (hn : rank? cells above = some n) (ha : parent? cells above = none)
    (hlt : m < if e then n + 1 else n) : Ranked (link cells below above e v) := by
  intro j k hp
  rw [parent?_link hne (rank?_eq_some_iff.1 ⟨m, hm⟩) ha] at hp
  rw [rank?_link hne hn, rank?_link hne hn]
  split at hp
  · rename_i hj
    cases hp
    subst hj
    rw [if_neg (Ne.symm hne), if_pos rfl]
    exact ⟨m, _, hm, rfl, hlt⟩
  · obtain ⟨m', n', hm', hn', hlt'⟩ := hc j k hp
    have hj : above ≠ j := by
      rintro rfl
      rw [ha] at hp
      cases hp
    rw [if_neg hj]
    split
    · rename_i hk
      subst hk
      rw [hn] at hn'
      cases hn'
      refine ⟨m', _, hm', rfl, ?_⟩
      split <;> omega
    · exact ⟨m', n', hm', hn', hlt'⟩

/-- After `link`, the cells with root `below` have root `above`. -/
theorem rootOf_link (hne : below ≠ above) (hb : RootOf cells below below)
    (ha : RootOf cells above above) (h : RootOf cells j s) :
    RootOf (link cells below above e v) j (if s = below then above else s) := by
  have hsize : (link cells below above e v).size = cells.size := by simp [link]
  have hparent := parent?_link (e := e) (v := v) hne hb.isRoot.1 ha.isRoot.2
  have htop : RootOf (link cells below above e v) above above := by
    refine .root (hsize ▸ ha.isRoot.1) ?_
    rw [hparent, if_neg hne, ha.isRoot.2]
  induction h with
  | @root j hj hp =>
    by_cases hjb : j = below
    · subst hjb
      rw [if_pos rfl]
      exact .link (by rw [hparent, if_pos rfl]) htop
    · rw [if_neg hjb]
      refine .root (hsize ▸ hj) ?_
      rw [hparent, if_neg (Ne.symm hjb), hp]
  | @link j k s hp hs ih =>
    have hjb : below ≠ j := by
      rintro rfl
      rw [hb.isRoot.2] at hp
      cases hp
    exact .link (by rw [hparent, if_neg hjb, hp]) ih

end link

/-- `merge` makes one root of two different ones, with the combined value. -/
theorem merge_spec (combine : ν → ν → ν) {r' : Nat} {v v' : ν} (hc : Ranked cells)
    (hr : RootOf cells r r) (hr' : RootOf cells r' r') (hne : r ≠ r')
    (hv : valueAt? cells r = some v) (hv' : valueAt? cells r' = some v') :
    Ranked (merge combine cells r r') ∧ (merge combine cells r r').size = cells.size ∧
      ∃ top, (top = r ∨ top = r') ∧
        (∀ j s, RootOf cells j s →
          RootOf (merge combine cells r r') j (if s = r ∨ s = r' then top else s)) ∧
        ∀ j, valueAt? (merge combine cells r r') j
          = if top = j then some (combine v v') else valueAt? cells j := by
  obtain ⟨c, hcr, rfl⟩ := Option.map_eq_some_iff.1 hv
  obtain ⟨c', hcr', rfl⟩ := Option.map_eq_some_iff.1 hv'
  have hm : rank? cells r = some c.rank := by rw [rank?, hcr]; rfl
  have hn : rank? cells r' = some c'.rank := by rw [rank?, hcr']; rfl
  rw [merge, hcr, hcr']
  dsimp only
  split
  · rename_i hlt
    refine ⟨ranked_link hc hne hm hn hr'.isRoot.2 hlt, by simp [link], r', .inr rfl, ?_,
      valueAt?_link hne hr'.isRoot.1⟩
    intro j s hs
    have h := rootOf_link (e := false) (v := combine c.value c'.value) hne hr hr' hs
    by_cases hsr : s = r
    · simpa [hsr] using h
    · by_cases hsr' : s = r' <;> simpa [hsr, hsr'] using h
  · rename_i hlt
    have hlt' : c'.rank < if (c.rank == c'.rank) = true then c.rank + 1 else c.rank := by
      split
      · rename_i he
        rw [beq_iff_eq] at he
        omega
      · rename_i he
        rw [beq_iff_eq] at he
        omega
    refine ⟨ranked_link hc (Ne.symm hne) hn hm hr.isRoot.2 hlt', by simp [link], r, .inl rfl, ?_,
      valueAt?_link (Ne.symm hne) hr.isRoot.1⟩
    intro j s hs
    have h := rootOf_link (e := c.rank == c'.rank) (v := combine c.value c'.value) (Ne.symm hne)
      hr' hr hs
    by_cases hsr : s = r'
    · simpa [hsr] using h
    · by_cases hsr' : s = r
      · subst hsr'
        simpa [hsr] using h
      · simpa [hsr, hsr'] using h

/-! ## Keys and their classes -/

variable [DecidableEq κ]

/-- Every key has a cell, and ranks grow along the links. -/
structure WF (f : Forest κ ν) : Prop where
  indexed : ∀ k i, f.index.get? k = some i → i < f.cells.size
  ranked : Ranked f.cells

/-- The root of the class of `k`. -/
def rep? (f : Forest κ ν) (k : κ) : Option Nat := (f.index.get? k).map f.root

/-- `k` and `k'` are in one class. -/
def Same (f : Forest κ ν) (k k' : κ) : Prop := f.contains k = true ∧ f.rep? k = f.rep? k'

instance (f : Forest κ ν) (k k' : κ) : Decidable (f.Same k k') :=
  inferInstanceAs (Decidable (_ ∧ _))

/-- `f'` has the keys, classes and values of `f`; its links may differ. -/
structure Like (f f' : Forest κ ν) : Prop where
  wf : f'.WF
  index : f'.index = f.index
  rep : ∀ k, f'.rep? k = f.rep? k
  value : ∀ k, f'.value? k = f.value? k

variable {f f' : Forest κ ν} {k k' : κ}

theorem Like.refl (hf : f.WF) : Like f f := ⟨hf, rfl, fun _ ↦ rfl, fun _ ↦ rfl⟩

theorem Like.trans {f'' : Forest κ ν} (h : Like f f') (h' : Like f' f'') : Like f f'' :=
  ⟨h'.wf, h'.index.trans h.index, fun k ↦ (h'.rep k).trans (h.rep k),
    fun k ↦ (h'.value k).trans (h.value k)⟩

theorem wf_empty : (∅ : Forest κ ν).WF := by
  refine ⟨fun k i h ↦ absurd h (by simp [show (∅ : Forest κ ν).index = ∅ from rfl]),
    fun i j h ↦ ?_⟩
  have : parent? (#[] : Array (Cell ν)) i = none := by simp [parent?]
  rw [show (∅ : Forest κ ν).cells = #[] from rfl, this] at h
  cases h

theorem value?_eq : f.value? k = (f.rep? k).bind (valueAt? f.cells) := by
  rw [value?, rep?]
  cases f.index.get? k <;> rfl

theorem contains_iff : f.contains k = true ↔ ∃ i, f.index.get? k = some i := by
  rw [contains, OrdMap.contains, Option.isSome_iff_exists]

/-- `f.root` is a root. -/
theorem WF.rootOf_rep (hf : f.WF) {i : Nat} (h : f.index.get? k = some i) :
    RootOf f.cells i (f.root i) :=
  rootOf_root hf.ranked (hf.indexed k i h)

theorem WF.rep_eq (hf : f.WF) {i : Nat} (h : f.index.get? k = some i)
    (hr : RootOf f.cells i r) : f.rep? k = some r := by
  rw [rep?, h, Option.map_some, root_eq hf.ranked hr]

theorem WF.value?_isSome (hf : f.WF) (h : f.contains k = true) : ∃ v, f.value? k = some v := by
  obtain ⟨i, hi⟩ := contains_iff.1 h
  have hr := (hf.rootOf_rep hi).isRoot.1
  exact ⟨f.cells[f.root i].value, by simp [value?, hi, hr]⟩

theorem contains_of_value? {v : ν} (h : f.value? k = some v) : f.contains k = true := by
  rw [value?] at h
  obtain ⟨i, hi, -⟩ := Option.bind_eq_some_iff.1 h
  exact contains_iff.2 ⟨i, hi⟩

theorem contains_of_rep? (h : f.rep? k = some r) : f.contains k = true := by
  obtain ⟨i, hi, -⟩ := Option.map_eq_some_iff.1 h
  exact contains_iff.2 ⟨i, hi⟩

theorem same_iff : f.Same k k' ↔ ∃ r, f.rep? k = some r ∧ f.rep? k' = some r := by
  constructor
  · rintro ⟨hk, hrep⟩
    obtain ⟨i, hi⟩ := contains_iff.1 hk
    have hr : f.rep? k = some (f.root i) := by rw [rep?, hi, Option.map_some]
    exact ⟨f.root i, hr, hrep ▸ hr⟩
  · rintro ⟨r, hk, hk'⟩
    exact ⟨contains_of_rep? hk, hk.trans hk'.symm⟩

theorem Like.same_iff (h : Like f f') : f'.Same k k' ↔ f.Same k k' := by
  rw [Forest.same_iff, Forest.same_iff, h.rep, h.rep]

theorem Same.refl (h : f.contains k = true) : f.Same k k := ⟨h, rfl⟩

/-- Keys of one class have the same value. -/
theorem Same.value?_eq (h : f.Same k k') : f.value? k = f.value? k' := by
  rw [Forest.value?_eq, Forest.value?_eq, h.2]

/-- If `g` says how the cells change their roots, it says so of the keys. -/
theorem WF.rep?_with (hf : f.WF) {cells : Array (Cell ν)} (hf' : WF { f with cells })
    {g : Nat → Nat} (h : ∀ i r, RootOf f.cells i r → RootOf cells i (g r)) (k : κ) :
    rep? { f with cells } k = (f.rep? k).map g := by
  cases hk : f.index.get? k with
  | none => simp [rep?, hk]
  | some i =>
    have hr := hf.rootOf_rep hk
    rw [hf'.rep_eq (i := i) hk (h _ _ hr), hf.rep_eq hk hr, Option.map_some]

theorem Keeps.like (hf : f.WF) {cells : Array (Cell ν)} (h : Keeps f.cells cells) :
    Like f { f with cells } := by
  have hwf : WF { f with cells } := ⟨fun k i hi ↦ h.size ▸ hf.indexed k i hi, h.ranked⟩
  have hrep (k : κ) : rep? { f with cells } k = f.rep? k := by
    rw [hf.rep?_with hwf h.roots, Option.map_id']
  refine ⟨hwf, rfl, hrep, fun k ↦ ?_⟩
  rw [value?_eq, value?_eq, hrep]
  exact congrArg _ (funext h.values)

/-! ## The operations -/

theorem ensures_find (hf : f.WF) (k : κ) :
    Ensures (find k) f (fun r f' ↦ f.rep? k = some r ∧ Like f f')
      (fun e f' ↦ f.contains k = false ∧ f' = f ∧ e = k) := by
  rw [find, ensures_bind, ensures_get]
  cases hk : f.index.get? k with
  | none =>
    rw [ensures_throw]
    exact ⟨by simp [contains, OrdMap.contains, hk], rfl, rfl⟩
  | some i =>
    rw [ensures_bind, ensures_set, ensures_pure]
    refine ⟨by simp [rep?, hk], ?_⟩
    exact (keeps_shorten _ i _ hf.ranked (hf.rootOf_rep hk)).like hf

/-- `find k` and `find k'`, followed by `next` on their roots.  The failure is the first key without
a cell. -/
theorem ensures_find_find (hf : f.WF) (k k' : κ) {α : Type} {next : Nat → Nat → Op κ ν α}
    {Q : α → Forest κ ν → Prop}
    (h : ∀ r r' f', f.rep? k = some r → f.rep? k' = some r' → Like f f' →
      Ensures (next r r') f' Q fun _ _ ↦ False) :
    Ensures (find k >>= fun r ↦ find k' >>= next r) f Q
      (fun e f' ↦ (f.contains k = false ∧ e = k ∨
        f.contains k = true ∧ f.contains k' = false ∧ e = k') ∧ Like f f') := by
  rw [ensures_bind]
  refine (ensures_find hf k).mono (fun r f₁ ⟨hr, h₁⟩ ↦ ?_) fun _ _ ⟨hk, hf', he⟩ ↦ by
    rw [hf']
    exact ⟨.inl ⟨hk, he⟩, .refl hf⟩
  rw [ensures_bind]
  refine (ensures_find h₁.wf k').mono (fun r' f₂ ⟨hr', h₂⟩ ↦ ?_) fun _ _ ⟨hk', hf', he⟩ ↦ by
    rw [contains, h₁.index] at hk'
    exact ⟨.inr ⟨contains_of_rep? hr, hk', he⟩, hf' ▸ h₁⟩
  rw [h₁.rep] at hr'
  exact (h r r' f₂ hr hr' (h₁.trans h₂)).mono (fun _ _ ↦ id) fun _ _ ↦ False.elim

theorem ensures_look (hf : f.WF) (k : κ) :
    Ensures (look k) f (fun v f' ↦ v = f.value? k ∧ Like f f') fun _ _ ↦ False := by
  rw [look, ensures_bind, ensures_get, ensures_ite]
  refine ⟨fun hk ↦ ?_, fun hk ↦ ?_⟩
  · rw [ensures_bind]
    refine (ensures_find hf k).mono (fun r f₁ ⟨hr, h₁⟩ ↦ ?_) fun _ _ h ↦ absurd hk (by simp [h.1])
    rw [ensures_bind, ensures_get, ensures_pure]
    refine ⟨?_, h₁⟩
    rw [← h₁.value k, value?_eq, h₁.rep k, hr, Option.bind_some]
    rfl
  · rw [ensures_pure]
    refine ⟨?_, .refl hf⟩
    cases hv : f.value? k with
    | none => rfl
    | some v => exact absurd (contains_of_value? hv) hk

theorem ensures_same (hf : f.WF) (k k' : κ) :
    Ensures (same k k') f
      (fun b f' ↦ f.contains k = true ∧ f.contains k' = true ∧ b = decide (f.Same k k') ∧ Like f f')
      (fun e f' ↦ (f.contains k = false ∧ e = k ∨
        f.contains k = true ∧ f.contains k' = false ∧ e = k') ∧ Like f f') := by
  refine ensures_find_find hf k k' fun r r' f' hr hr' h ↦ ?_
  rw [ensures_pure]
  refine ⟨contains_of_rep? hr, contains_of_rep? hr', decide_eq_decide.2 ?_, h⟩
  rw [same_iff]
  simp [hr, hr', eq_comm]

/-- `setValue k v` changes the value of the class of `k`. -/
theorem ensures_setValue (hf : f.WF) (k : κ) (v : ν) :
    Ensures (setValue k v) f
      (fun _ f' ↦ f'.WF ∧ f'.index = f.index ∧ f.contains k = true ∧
        (∀ a b, f'.Same a b ↔ f.Same a b) ∧
        ∀ a, f'.value? a = if f.Same k a then some v else f.value? a)
      (fun e f' ↦ f.contains k = false ∧ f' = f ∧ e = k) := by
  rw [setValue, ensures_bind]
  refine (ensures_find hf k).mono (fun r f₁ ⟨hr, h₁⟩ ↦ ?_) fun _ _ h ↦ h
  rw [ensures_modify]
  obtain ⟨hval, hranked, hroots⟩ := keeps_set h₁.wf.ranked v r
  have hwf : WF { f₁ with cells := f₁.cells.modify r fun c ↦ { c with value := v } } :=
    ⟨fun k i hi ↦ by simpa using h₁.wf.indexed k i hi, hranked⟩
  have hk := contains_of_rep? hr
  have hrep : ∀ a, rep? { f₁ with cells := f₁.cells.modify r fun c ↦ { c with value := v } } a
      = f.rep? a := by
    intro a
    rw [h₁.wf.rep?_with hwf hroots, Option.map_id', h₁.rep a]
  refine ⟨hwf, h₁.index, hk, fun a b ↦ ?_, fun a ↦ ?_⟩
  · rw [Same, Same, hrep, hrep, contains, contains, h₁.index]
  rw [← h₁.value a, value?_eq, value?_eq, hrep, h₁.rep a]
  cases ha : f.rep? a with
  | none =>
    have : ¬ f.Same k a := fun h ↦ by rw [Same, hr, ha] at h; cases h.2
    simp [this]
  | some r' =>
    rw [Option.bind_some, Option.bind_some, hval]
    have hr' : r' < f₁.cells.size := by
      rw [← h₁.rep a] at ha
      obtain ⟨i, hi, rfl⟩ := Option.map_eq_some_iff.1 ha
      exact (h₁.wf.rootOf_rep hi).isRoot.1
    by_cases hrr : r = r'
    · subst hrr
      rw [if_pos ⟨rfl, hr'⟩, if_pos ⟨hk, hr.trans ha.symm⟩]
    · have : ¬ f.Same k a := fun h ↦ hrr (Option.some.inj (hr.symm.trans (h.2.trans ha)))
      rw [if_neg (fun h ↦ hrr h.1), if_neg this]

/-- `union` merges the classes of `k` and `k'` and combines their values; it changes nothing if they
are one class. -/
theorem ensures_union (hf : f.WF) (combine : ν → ν → ν) (k k' : κ) :
    Ensures (union combine k k') f
      (fun _ f' ↦ f'.WF ∧ f'.index = f.index ∧
        (∀ a b, f'.Same a b ↔
          f.Same a b ∨ (f.Same k a ∨ f.Same k' a) ∧ (f.Same k b ∨ f.Same k' b)) ∧
        ∃ v v', f.value? k = some v ∧ f.value? k' = some v' ∧
        ∀ a, f'.value? a = if ¬ f.Same k k' ∧ (f.Same k a ∨ f.Same k' a) then some (combine v v')
          else f.value? a)
      (fun e f' ↦ (f.contains k = false ∧ e = k ∨
        f.contains k = true ∧ f.contains k' = false ∧ e = k') ∧ Like f f') := by
  refine ensures_find_find hf k k' fun r r' f₂ hr hr' h ↦ ?_
  have hk := contains_of_rep? hr
  have hk' := contains_of_rep? hr'
  obtain ⟨v, hv⟩ := hf.value?_isSome hk
  obtain ⟨v', hv'⟩ := hf.value?_isSome hk'
  have hvr : valueAt? f₂.cells r = some v := by
    rw [← h.value, value?_eq, h.rep, hr] at hv
    exact hv
  have hvr' : valueAt? f₂.cells r' = some v' := by
    rw [← h.value, value?_eq, h.rep, hr'] at hv'
    exact hv'
  have hroot : ∀ {a : κ} {t : Nat}, f.rep? a = some t → RootOf f₂.cells t t := by
    intro a t ha
    rw [← h.rep a] at ha
    obtain ⟨i, hi, rfl⟩ := Option.map_eq_some_iff.1 ha
    exact rootOf_self_iff.2 (h.wf.rootOf_rep hi).isRoot
  have hin : ∀ a, f.Same k a ∨ f.Same k' a ↔ f.rep? a = some r ∨ f.rep? a = some r' := fun a ↦ by
    rw [same_iff, same_iff]
    simp [hr, hr']
  rw [ensures_ite]
  refine ⟨fun hrr ↦ ?_, fun hrr ↦ ?_⟩
  · have hsame : f.Same k k' := ⟨hk, by rw [hr, hr', hrr]⟩
    refine ⟨h.wf, h.index, fun a b ↦ ?_, v, v', hv, hv', fun a ↦ by simp [hsame, h.value a]⟩
    rw [h.same_iff, iff_self_or, hin, hin, ← hrr, or_self, or_self]
    exact fun ⟨ha, hb⟩ ↦ same_iff.2 ⟨r, ha, hb⟩
  · rw [ensures_modify]
    have hnot : ¬ f.Same k k' := fun hs ↦ hrr (Option.some.inj (hr.symm.trans (hs.2.trans hr')))
    obtain ⟨hranked, hsize, top, htop, hroots, hvals⟩ :=
      merge_spec combine h.wf.ranked (hroot hr) (hroot hr') hrr hvr hvr'
    have hwf : WF { f₂ with cells := merge combine f₂.cells r r' } :=
      ⟨fun k i hi ↦ hsize ▸ h.wf.indexed k i hi, hranked⟩
    -- Below either of the two roots the new root is `top`; elsewhere nothing changes.
    have hrep : ∀ a, rep? { f₂ with cells := merge combine f₂.cells r r' } a =
        (f.rep? a).map fun s ↦ if s = r ∨ s = r' then top else s := fun a ↦ by
      rw [h.wf.rep?_with hwf hroots, h.rep a]
    refine ⟨hwf, h.index, fun a b ↦ ?_, v, v', hv, hv', fun a ↦ ?_⟩
    · rw [same_iff, same_iff, hin, hin, hrep, hrep]
      cases f.rep? a <;> cases f.rep? b <;> grind
    · rw [value?_eq, hrep, ← h.value a, value?_eq, h.rep a]
      have hina := hin a
      cases ha : f.rep? a with
      | none =>
        rw [ha] at hina
        rw [if_neg fun hc ↦ by simpa using hina.1 hc.2]
        rfl
      | some s =>
        rw [ha, Option.some.injEq, Option.some.injEq] at hina
        rw [Option.map_some, Option.bind_some, Option.bind_some, hvals]
        by_cases hc : s = r ∨ s = r'
        · rw [if_pos hc, if_pos rfl, if_pos ⟨hnot, hina.2 hc⟩]
        · have hother : top ≠ s := by
            rintro rfl
            exact hc htop
          rw [if_neg hc, if_neg hother, if_neg (fun hc' ↦ hc (hina.1 hc'.2))]

/-! ## New keys -/

theorem parent?_push (v : ν) (i : Nat) : parent? (cells.push ⟨v, 0, none⟩) i = parent? cells i := by
  rw [parent?, parent?, Array.getElem?_push]
  split
  · rename_i hi
    simp [hi]
  · rfl

theorem getElem?_push_of_lt (v : ν) (hi : i < cells.size) :
    (cells.push ⟨v, 0, none⟩)[i]? = cells[i]? := by
  rw [Array.getElem?_push, if_neg (by omega)]

theorem ranked_push (hc : Ranked cells) (v : ν) : Ranked (cells.push ⟨v, 0, none⟩) := by
  intro i j hp
  rw [parent?_push] at hp
  obtain ⟨m, n, hm, hn, hlt⟩ := hc i j hp
  refine ⟨m, n, ?_, ?_, hlt⟩
  · rw [rank?, getElem?_push_of_lt v (rank?_eq_some_iff.1 ⟨m, hm⟩)]
    exact hm
  · rw [rank?, getElem?_push_of_lt v (rank?_eq_some_iff.1 ⟨n, hn⟩)]
    exact hn

theorem RootOf.push (h : RootOf cells i r) (v : ν) : RootOf (cells.push ⟨v, 0, none⟩) i r := by
  induction h with
  | root hi hp => exact .root (by rw [Array.size_push]; omega) ((parent?_push v _).trans hp)
  | link hp _ ih => exact .link ((parent?_push v _).trans hp) ih

theorem get?_index_add (f : Forest κ ν) (k a : κ) (v : ν) :
    (f.add k v).index.get? a = if k = a then some f.cells.size else f.index.get? a :=
  OrdMap.get?_insert _ _ _ _

theorem nodup_keys_add (h : f.keys.Nodup) (k : κ) (v : ν) : (f.add k v).keys.Nodup := by
  rw [keys, add, OrdMap.keys_insert]
  split
  · exact h
  · rename_i hnew
    rw [← List.concat_eq_append]
    exact (List.nodup_concat _ _).2 ⟨hnew, h⟩

theorem WF.add (hf : f.WF) (k : κ) (v : ν) : (f.add k v).WF := by
  refine ⟨fun a i hi ↦ ?_, ranked_push hf.ranked v⟩
  rw [show (f.add k v).cells = f.cells.push ⟨v, 0, none⟩ from rfl, Array.size_push]
  rw [get?_index_add] at hi
  split at hi
  · cases hi
    omega
  · have := hf.indexed a i hi
    omega

/-- A key that is added is its own root; the other keys keep theirs. -/
theorem rep?_add (hf : f.WF) (k a : κ) (v : ν) :
    (f.add k v).rep? a = if k = a then some f.cells.size else f.rep? a := by
  have hindex := get?_index_add f k a v
  split
  · rename_i hka
    rw [if_pos hka] at hindex
    refine (hf.add k v).rep_eq hindex (.root ?_ ?_)
    · simp [add]
    · simp [add, parent?]
  · rename_i hka
    rw [if_neg hka] at hindex
    cases ha : f.index.get? a with
    | none => simp [rep?, hindex, ha]
    | some i =>
      have hr := hf.rootOf_rep ha
      rw [(hf.add k v).rep_eq (hindex.trans ha) (hr.push v), hf.rep_eq ha hr]

theorem WF.rep_lt (hf : f.WF) (h : f.rep? k = some r) : r < f.cells.size := by
  obtain ⟨i, hi, rfl⟩ := Option.map_eq_some_iff.1 h
  exact (hf.rootOf_rep hi).isRoot.1

/-- A key that is added is in a class of its own; the other classes keep their keys. -/
theorem same_add (hf : f.WF) (k : κ) (v : ν) (a b : κ) :
    (f.add k v).Same a b ↔ k = a ∧ k = b ∨ k ≠ a ∧ k ≠ b ∧ f.Same a b := by
  rw [same_iff, same_iff, rep?_add hf, rep?_add hf]
  have hne : ∀ c, f.rep? c ≠ some f.cells.size := fun c hc ↦ Nat.lt_irrefl _ (hf.rep_lt hc)
  by_cases ha : k = a <;> by_cases hb : k = b <;> simp [ha, hb, hne]

/-- A key that is added has the given value; the other keys keep theirs. -/
theorem value?_add (hf : f.WF) (k : κ) (v : ν) :
    (f.add k v).WF ∧ ∀ a, (f.add k v).value? a = if k = a then some v else f.value? a := by
  refine ⟨hf.add k v, fun a ↦ ?_⟩
  rw [value?_eq, value?_eq, rep?_add hf]
  split
  · simp [valueAt?, add]
  · cases ha : f.rep? a with
    | none => rfl
    | some r =>
      rw [Option.bind_some, Option.bind_some, valueAt?, valueAt?]
      exact congrArg _ (getElem?_push_of_lt v (hf.rep_lt ha))

end SchemeTyping.Forest
