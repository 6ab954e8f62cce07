import Mathlib.Algebra.Order.Ring.Nat
import Mathlib.Data.Nat.Log
import SchemeTyping.Proofs.Forest.Session

/-!
# Forests stay shallow

The shape of a forest after any list of moves: commands to it and to its copies, and new starts.

## What is here

* `Chain`, `Shortens` — the two loops of `find`: the one that climbs to the root and the one that
  links the cells on the way to it.  Ranks grow along every link, so both end.
* `Heavy` — a root of rank `n` has at least `2 ^ n` keys below it, if only new keys are added.  A
  chain is no longer than the rank of its root, so it has no more links than the logarithm of the
  size of its class.
* `Lasting`, `Lasting.of_mem_moves` — what has to be shown of an invariant for each of the four
  changes that a forest can undergo, and the induction over the moves.
* `moves_shallow` — both invariants together.

To add a key that is there already keeps the ranks, but it removes the key from its old class, which
may then be too small.
-/

set_option autoImplicit false

namespace SchemeTyping

open Session

variable {κ ν : Type}

namespace Forest

/-! ## The loops of a look-up -/

/-- `Chain cells i n r`: from the cell `i`, `n` links lead to the root `r`. -/
inductive Chain (cells : Array (Cell ν)) : Nat → Nat → Nat → Prop
  | root {i : Nat} (hi : i < cells.size) (hp : parent? cells i = none) : Chain cells i 0 i
  | link {i j n r : Nat} (hp : parent? cells i = some j) (hr : Chain cells j n r) :
    Chain cells i (n + 1) r

/-- `Shortens root i cells cells'`: linking the cells above `i` to `root`, up to the first one that
is linked to it, turns `cells` into `cells'`. -/
inductive Shortens (root : Nat) : Nat → Array (Cell ν) → Array (Cell ν) → Prop
  | stop {i : Nat} {cells : Array (Cell ν)} (h : ∀ j ∈ parent? cells i, j = root) :
    Shortens root i cells cells
  | step {i j : Nat} {cells cells' : Array (Cell ν)} (hp : parent? cells i = some j) (hj : j ≠ root)
    (h : Shortens root j (cells.modify i fun c ↦ { c with parent := some root }) cells') :
    Shortens root i cells cells'

variable {cells cells' : Array (Cell ν)} {i j n r : Nat}

theorem RootOf.exists_chain (h : RootOf cells i r) : ∃ n, Chain cells i n r := by
  induction h with
  | root hi hp => exact ⟨0, .root hi hp⟩
  | link hp _ ih =>
    obtain ⟨n, hn⟩ := ih
    exact ⟨n + 1, .link hp hn⟩

theorem Chain.rootOf (h : Chain cells i n r) : RootOf cells i r := by
  induction h with
  | root hi hp => exact .root hi hp
  | link hp _ ih => exact .link hp ih

/-- The rank grows by one at least with every link. -/
theorem Chain.rank_add_le (h : Chain cells i n r) (hc : Ranked cells) :
    ∃ m m', rank? cells i = some m ∧ rank? cells r = some m' ∧ m + n ≤ m' := by
  induction h with
  | root hi hp =>
    obtain ⟨m, hm⟩ := rank?_eq_some_iff.2 hi
    exact ⟨m, m, hm, hm, le_rfl⟩
  | link hp _ ih =>
    obtain ⟨m, k, hm, hk, hlt⟩ := hc _ _ hp
    obtain ⟨k', m', hk', hm', hle⟩ := ih
    obtain rfl : k = k' := Option.some.inj (hk.symm.trans hk')
    exact ⟨m, m', hm, hm', by omega⟩

/-- The length of a chain is bounded by `higher`. -/
theorem Chain.length_le_higher (h : Chain cells i n r) (hc : Ranked cells) {m : Nat}
    (hm : rank? cells i = some m) : n ≤ higher cells m := by
  induction h generalizing m with
  | root => exact Nat.zero_le _
  | link hp _ ih =>
    obtain ⟨m', k, hm', hk, hlt⟩ := hc _ _ hp
    obtain rfl : m = m' := Option.some.inj (hm.symm.trans hm')
    have hlt' := higher_lt hk hlt
    have hle := ih hk
    omega

theorem Chain.length_le_size (h : Chain cells i n r) (hc : Ranked cells) : n ≤ cells.size := by
  obtain ⟨m, -, hm, -⟩ := h.rank_add_le hc
  refine (h.length_le_higher hc hm).trans ?_
  rw [higher, ← Array.length_toList]
  exact List.countP_le_length

/-- A chain is not affected by another parent for a cell of lower rank. -/
theorem Chain.relink (h : Chain cells j n r) (hc : Ranked cells) {m k : Nat}
    (hm : rank? cells i = some m) (hk : rank? cells j = some k) (hlt : m < k) (p : Option Nat) :
    Chain (cells.modify i fun c ↦ { c with parent := p }) j n r := by
  induction h generalizing k with
  | @root j hj hp =>
    have hne : i ≠ j := by
      rintro rfl
      exact hlt.ne (Option.some.inj (hm.symm.trans hk))
    exact .root (by rwa [Array.size_modify]) (by rw [parent?_modify, if_neg hne, hp])
  | @link j j' n r hp _ ih =>
    have hne : i ≠ j := by
      rintro rfl
      exact hlt.ne (Option.some.inj (hm.symm.trans hk))
    obtain ⟨k', l, hk', hl, hlt'⟩ := hc _ _ hp
    obtain rfl : k = k' := Option.some.inj (hk.symm.trans hk')
    exact .link (by rw [parent?_modify, if_neg hne, hp]) (ih hl (hlt.trans hlt'))

/-- `shorten` with as many steps as the chain has links is `Shortens`. -/
theorem Chain.shortens (h : Chain cells i n r) (hc : Ranked cells) {steps : Nat} (hn : n ≤ steps) :
    Shortens r i cells (shorten r steps i cells) := by
  induction steps generalizing i n cells with
  | zero =>
    obtain rfl : n = 0 := by omega
    cases h with
    | root _ hp => exact .stop (by simp [hp])
  | succ steps ih =>
    rw [shorten]
    cases hp : parent? cells i with
    | none => exact .stop (by simp [hp])
    | some j =>
      dsimp only
      split
      · rename_i hj
        exact .stop (by simp [hp, hj])
      · rename_i hj
        cases h with
        | root _ hp' =>
          rw [hp] at hp'
          cases hp'
        | @link _ j' n _ hp' hr =>
          obtain rfl : j = j' := Option.some.inj (hp.symm.trans hp')
          obtain ⟨m, k, hm, hk, hlt⟩ := hc _ _ hp
          have hne : i ≠ r := by
            rintro rfl
            rw [hr.rootOf.isRoot.2] at hp
            cases hp
          have hranked := (keeps_relink hc (.link hp hr.rootOf) hne).ranked
          exact .step hp hj (ih (hr.relink hc hm hk hlt _) hranked (by omega))

/-! ## Ranks under look-ups and new values -/

/-- `cells'` has the ranks and the roots of `cells`. -/
def SameRanks (cells cells' : Array (Cell ν)) : Prop :=
  ∀ i, rank? cells' i = rank? cells i ∧ (parent? cells' i = none ↔ parent? cells i = none)

theorem sameRanks_shorten (root : Nat) : ∀ (steps i : Nat) (cells : Array (Cell ν)),
    SameRanks cells (shorten root steps i cells)
  | 0, _, _ => fun _ ↦ ⟨rfl, .rfl⟩
  | steps + 1, i, cells => by
    rw [shorten]
    cases hp : parent? cells i with
    | none => exact fun _ ↦ ⟨rfl, .rfl⟩
    | some j =>
      dsimp only
      split
      · exact fun _ ↦ ⟨rfl, .rfl⟩
      · intro l
        obtain ⟨hrank, hroot⟩ := sameRanks_shorten root steps j
          (cells.modify i fun c ↦ { c with parent := some root }) l
        rw [hrank, hroot, rank?_modify, parent?_modify]
        split
        · rename_i hl
          subst hl
          obtain ⟨c, hc, -⟩ := Option.bind_eq_some_iff.1 hp
          simp [rank?, hc, hp]
        · exact ⟨rfl, .rfl⟩

theorem sameRanks_set (v : ν) (i : Nat) (cells : Array (Cell ν)) :
    SameRanks cells (cells.modify i fun c ↦ { c with value := v }) := by
  intro j
  rw [rank?_modify, parent?_modify]
  split
  · rename_i hij
    subst hij
    exact ⟨rfl, .rfl⟩
  · exact ⟨rfl, .rfl⟩

/-! ## The weight of a root -/

variable [DecidableEq κ] {f f' : Forest κ ν} {k : κ} {v : ν}

/-- The keys of the class with root `r`. -/
def below (f : Forest κ ν) (r : Nat) : List κ := f.keys.filter fun k ↦ f.rep? k = some r

/-- A root of rank `n` has at least `2 ^ n` keys in its class. -/
def Heavy (f : Forest κ ν) : Prop :=
  ∀ r n, RootOf f.cells r r → rank? f.cells r = some n → 2 ^ n ≤ (f.below r).length

theorem heavy_empty : Heavy (∅ : Forest κ ν) := by
  intro r n hr
  exact absurd hr.isRoot.1 (Nat.not_lt_zero r)

/-- `Heavy` depends on the ranks and the roots only. -/
theorem Heavy.congr (h : f.Heavy) (hf : f.WF) {cells : Array (Cell ν)} (hf' : WF { f with cells })
    (hranks : SameRanks f.cells cells) (hroots : ∀ i r, RootOf f.cells i r → RootOf cells i r) :
    Heavy { f with cells } := by
  intro r n hr hn
  have hold : RootOf f.cells r r := by
    rw [rootOf_self_iff]
    exact ⟨rank?_eq_some_iff.1 ⟨n, (hranks r).1 ▸ hn⟩, (hranks r).2.1 hr.isRoot.2⟩
  have hbelow : below { f with cells } r = f.below r := by
    refine List.filter_congr fun k _ ↦ ?_
    rw [hf.rep?_with hf' hroots, Option.map_id']
  rw [hbelow]
  exact h r n hold ((hranks r).1 ▸ hn)

/-- A new key has rank zero and a class of its own. -/
theorem Heavy.add (h : f.Heavy) (hf : f.WF) (hk : f.contains k = false) : (f.add k v).Heavy := by
  have hkeys : (f.add k v).keys = f.keys ++ [k] := by
    rw [keys, OrdMap.keys, entries_index_add hk, List.map_append]
    rfl
  have hother : ∀ r, f.keys.filter (fun a ↦ (f.add k v).rep? a = some r) = f.below r := by
    intro r
    refine List.filter_congr fun a ha ↦ ?_
    have hne : k ≠ a := by
      rintro rfl
      rw [contains, OrdMap.contains, OrdMap.isSome_get?_iff.2 ha] at hk
      cases hk
    rw [rep?_add hf, if_neg hne]
  intro r n hr hn
  rw [below, hkeys, List.filter_append, List.length_append, hother]
  by_cases hnew : r = f.cells.size
  · subst hnew
    obtain rfl : n = 0 := by simpa [rank?, Forest.add, eq_comm] using hn
    have hself : (f.add k v).rep? k = some f.cells.size := by rw [rep?_add hf, if_pos rfl]
    simp [hself]
  · have hlt : r < f.cells.size := by
      have := hr.isRoot.1
      rw [Forest.add, Array.size_push] at this
      omega
    have hold : RootOf f.cells r r := .root hlt ((parent?_push v r).symm.trans hr.isRoot.2)
    rw [Forest.add, rank?, getElem?_push_of_lt v hlt] at hn
    exact (h r n hold hn).trans (Nat.le_add_right _ _)

/-- After `lower` was linked to `upper`, the class of `upper` has the keys of both. -/
theorem length_below_link (f : Forest κ ν) {lower upper : Nat} (hne : lower ≠ upper)
    (hrep : ∀ k, f'.rep? k = (f.rep? k).map fun s ↦ if s = lower then upper else s)
    (hkeys : f'.keys = f.keys) (hr : lower ≠ r) :
    (f'.below r).length
      = (f.below r).length + if upper = r then (f.below lower).length else 0 := by
  rw [below, below, below, hkeys]
  induction f.keys with
  | nil => simp
  | cons k ks ih =>
    simp only [List.filter_cons, hrep] at ih ⊢
    cases f.rep? k with
    | none => simpa using ih
    | some s => grind

/-- `link` preserves `Heavy` if the rank of `upper` is greater, or equal and then increased by
one. -/
theorem Heavy.link (h : f.Heavy) (hf : f.WF) {lower upper m n : Nat} {e : Bool}
    (hne : lower ≠ upper) (hl : RootOf f.cells lower lower) (hu : RootOf f.cells upper upper)
    (hm : rank? f.cells lower = some m) (hn : rank? f.cells upper = some n) (he : e = true → m = n)
    (hf' : WF { f with cells := link f.cells lower upper e v }) :
    Heavy { f with cells := link f.cells lower upper e v } := by
  intro r l hr hrank
  obtain ⟨hlt, hroot⟩ := hr.isRoot
  rw [parent?_link hne hl.isRoot.1 hu.isRoot.2] at hroot
  have hlr : lower ≠ r := by
    rintro rfl
    simp at hroot
  rw [if_neg hlr] at hroot
  have hold : RootOf f.cells r r := .root (by simpa [Forest.link] using hlt) hroot
  rw [length_below_link f hne (hf.rep?_with hf' fun _ _ ↦ rootOf_link hne hl hu) rfl hlr]
  rw [rank?_link hne hn] at hrank
  split at hrank
  · rename_i hur
    subst hur
    rw [if_pos rfl]
    have hweight := h upper n hold hn
    cases e with
    | false =>
      cases hrank
      exact hweight.trans (Nat.le_add_right _ _)
    | true =>
      -- Two classes of the same rank, each with its `2 ^ n` keys.
      obtain rfl := he rfl
      cases hrank
      have hweight' := h lower m hl hm
      calc 2 ^ (m + 1) = 2 ^ m + 2 ^ m := by rw [pow_succ, Nat.mul_two]
        _ ≤ _ := Nat.add_le_add hweight hweight'
  · rename_i hur
    rw [if_neg hur]
    exact h r l hold hrank

theorem RootOf.exists_cell (h : RootOf cells i r) : ∃ c, cells[r]? = some c :=
  ⟨_, Array.getElem?_eq_getElem h.isRoot.1⟩

theorem WF.merge (hf : f.WF) (combine : ν → ν → ν) {r' : Nat} (hr : RootOf f.cells r r)
    (hr' : RootOf f.cells r' r') (hne : r ≠ r') :
    WF { f with cells := merge combine f.cells r r' } := by
  obtain ⟨c, hc⟩ := hr.exists_cell
  obtain ⟨c', hc'⟩ := hr'.exists_cell
  obtain ⟨hranked, hsize, -⟩ := merge_spec combine hf.ranked hr hr' hne
    (show valueAt? f.cells r = some c.value by rw [valueAt?, hc, Option.map_some])
    (show valueAt? f.cells r' = some c'.value by rw [valueAt?, hc', Option.map_some])
  exact ⟨fun k i hi ↦ hsize ▸ hf.indexed k i hi, hranked⟩

theorem Heavy.merge (h : f.Heavy) (hf : f.WF) (combine : ν → ν → ν) {r' : Nat}
    (hr : RootOf f.cells r r) (hr' : RootOf f.cells r' r') (hne : r ≠ r') :
    Heavy { f with cells := merge combine f.cells r r' } := by
  have hf' := hf.merge combine hr hr' hne
  obtain ⟨c, hc⟩ := hr.exists_cell
  obtain ⟨c', hc'⟩ := hr'.exists_cell
  have hm : rank? f.cells r = some c.rank := by rw [rank?, hc, Option.map_some]
  have hn : rank? f.cells r' = some c'.rank := by rw [rank?, hc', Option.map_some]
  rw [Forest.merge, hc, hc'] at hf' ⊢
  by_cases hlt : c.rank < c'.rank
  · simp only [if_pos hlt] at hf' ⊢
    exact h.link hf hne hr hr' hm hn (by simp) hf'
  · simp only [if_neg hlt] at hf' ⊢
    exact h.link hf (Ne.symm hne) hr' hr hn hm (fun he ↦ (beq_iff_eq.1 he).symm) hf'

/-! ## Invariants of a store -/

/-- An invariant `I` of the four changes that a forest can undergo: `find`, `setValue`, `merge` and
`add`, where the key may be required to be new. -/
structure Lasting (combine : ν → ν → ν) (new : Prop) (I : Forest κ ν → Prop) : Prop where
  empty : I ∅
  wf : ∀ {f}, I f → f.WF
  shorten : ∀ {f i}, I f → i < f.cells.size →
    I { f with cells := shorten (f.root i) f.cells.size i f.cells }
  set : ∀ {f}, I f → ∀ r v, I { f with cells := f.cells.modify r fun c ↦ { c with value := v } }
  merge : ∀ {f r r'}, I f → RootOf f.cells r r → RootOf f.cells r' r' → r ≠ r' →
    I { f with cells := merge combine f.cells r r' }
  add : ∀ {f}, I f → ∀ k v, (new → f.contains k = false) → I (f.add k v)

theorem WF.shorten (hf : f.WF) (hi : i < f.cells.size) :
    Keeps f.cells (shorten (f.root i) f.cells.size i f.cells) :=
  keeps_shorten _ i _ hf.ranked (rootOf_root hf.ranked hi)

theorem WF.set (hf : f.WF) (r : Nat) (v : ν) :
    WF { f with cells := f.cells.modify r fun c ↦ { c with value := v } } :=
  ⟨fun k i hi ↦ by simpa using hf.indexed k i hi, (keeps_set hf.ranked v r).2.1⟩

theorem lasting_wf (combine : ν → ν → ν) :
    Lasting combine False fun f : Forest κ ν ↦ f.WF ∧ f.keys.Nodup where
  empty := ⟨wf_empty, List.nodup_nil⟩
  wf h := h.1
  shorten h hi := ⟨((h.1.shorten hi).like h.1).wf, h.2⟩
  set h r v := ⟨h.1.set r v, h.2⟩
  merge h hr hr' hne := ⟨h.1.merge combine hr hr' hne, h.2⟩
  add h k v _ := ⟨h.1.add k v, nodup_keys_add h.2 k v⟩

theorem lasting_heavy (combine : ν → ν → ν) :
    Lasting combine True fun f : Forest κ ν ↦ f.WF ∧ f.Heavy where
  empty := ⟨wf_empty, heavy_empty⟩
  wf h := h.1
  shorten h hi := by
    have hkeeps := h.1.shorten hi
    have hwf := (hkeeps.like h.1).wf
    exact ⟨hwf, h.2.congr h.1 hwf (sameRanks_shorten _ _ _ _) hkeeps.roots⟩
  set h r v := by
    have hwf := h.1.set r v
    exact ⟨hwf, h.2.congr h.1 hwf (sameRanks_set v r _) (keeps_set h.1.ranked v r).2.2⟩
  merge h hr hr' hne := ⟨h.1.merge combine hr hr' hne, h.2.merge h.1 combine hr hr' hne⟩
  add h k v hk := ⟨h.1.add k v, h.2.add h.1 (hk trivial)⟩

section lasting

variable {combine : ν → ν → ν} {new : Prop} {I : Forest κ ν → Prop}

/-- `find` preserves `I`, gives a root and preserves roots. -/
theorem Lasting.find (h : Lasting combine new I) (hf : I f) (k : κ) :
    Ensures (find k) f
      (fun r f' ↦ I f' ∧ RootOf f'.cells r r ∧ ∀ s, RootOf f.cells s s → RootOf f'.cells s s)
      fun _ f' ↦ I f' := by
  rw [Forest.find, ensures_bind, ensures_get]
  cases hk : f.index.get? k with
  | none => exact hf
  | some i =>
    rw [ensures_bind, ensures_set, ensures_pure]
    have hi := (h.wf hf).indexed k i hk
    have hkeeps := (h.wf hf).shorten hi
    refine ⟨h.shorten hf hi, hkeeps.roots _ _ ?_, fun s ↦ hkeeps.roots s s⟩
    exact rootOf_self_iff.2 (rootOf_root (h.wf hf).ranked hi).isRoot

theorem Lasting.look (h : Lasting combine new I) (hf : I f) (k : κ) :
    Ensures (look k) f (fun _ f' ↦ I f') fun _ f' ↦ I f' := by
  rw [Forest.look, ensures_bind, ensures_get, ensures_ite]
  refine ⟨fun _ ↦ ?_, fun _ ↦ hf⟩
  rw [ensures_bind]
  exact (h.find hf k).mono (fun _ _ h' ↦ h'.1) fun _ _ ↦ id

theorem Lasting.setValue (h : Lasting combine new I) (hf : I f) (k : κ) (v : ν) :
    Ensures (setValue k v) f (fun _ f' ↦ I f') fun _ f' ↦ I f' := by
  rw [Forest.setValue, ensures_bind]
  exact (h.find hf k).mono (fun r _ h' ↦ h.set h'.1 r v) fun _ _ ↦ id

/-- `find k` and `find k'`, followed by `next` on their roots, preserve `I` if `next` does. -/
theorem Lasting.find_find (h : Lasting combine new I) (hf : I f) (k k' : κ) {α : Type}
    {next : Nat → Nat → Op κ ν α}
    (hnext : ∀ r r' f', I f' → RootOf f'.cells r r → RootOf f'.cells r' r' →
      Ensures (next r r') f' (fun _ f'' ↦ I f'') fun _ f'' ↦ I f'') :
    Ensures (Forest.find k >>= fun r ↦ Forest.find k' >>= next r) f (fun _ f' ↦ I f')
      fun _ f' ↦ I f' := by
  rw [ensures_bind]
  refine (h.find hf k).mono (fun r f₁ ⟨h₁, hr, _⟩ ↦ ?_) fun _ _ ↦ id
  rw [ensures_bind]
  exact (h.find h₁ k').mono (fun r' f₂ ⟨h₂, hr', hkeep⟩ ↦ hnext r r' f₂ h₂ (hkeep r hr) hr')
    fun _ _ ↦ id

theorem Lasting.same (h : Lasting combine new I) (hf : I f) (k k' : κ) :
    Ensures (same k k') f (fun _ f' ↦ I f') fun _ f' ↦ I f' :=
  h.find_find hf k k' fun _ _ _ h' _ _ ↦ h'

theorem Lasting.union (h : Lasting combine new I) (hf : I f) (k k' : κ) :
    Ensures (union combine k k') f (fun _ f' ↦ I f') fun _ f' ↦ I f' := by
  refine h.find_find hf k k' fun r r' f' h' hr hr' ↦ ?_
  rw [ensures_ite]
  exact ⟨fun _ ↦ h', fun hne ↦ h.merge h' hr hr' hne⟩

/-- One command preserves `I` in the store and in the copies that it makes. -/
theorem Lasting.exec (h : Lasting combine new I) (hf : I f) (c : Command κ ν)
    (hnew : new → ∀ k ∈ c.added?, f.contains k = false) :
    I (exec combine c f).store ∧ ∀ g ∈ (exec combine c f).copies, I g := by
  have hperform : ∀ {α : Type} {op : Op κ ν α} (answer : α → Answer κ ν),
      Ensures op f (fun _ f' ↦ I f') (fun _ f' ↦ I f') →
      I (perform op f answer).store ∧ ∀ g ∈ (perform op f answer).copies, I g := by
    intro α op answer hop
    refine perform_spec (R := fun r ↦ I r.store ∧ ∀ g ∈ r.copies, I g) (hop.mono ?_ ?_)
    · exact fun _ _ hf' ↦ ⟨hf', by simp⟩
    · exact fun _ _ hf' ↦ ⟨hf', by simp⟩
  cases c with
  | add k v => exact ⟨h.add hf k v fun hn ↦ hnew hn k rfl, by simp [Forest.exec]⟩
  | union k k' => exact hperform _ (h.union hf k k')
  | setValue k v => exact hperform _ (h.setValue hf k v)
  | value k => exact hperform _ (h.look hf k)
  | same k k' => exact hperform _ (h.same hf k k')
  | values => exact ⟨hf, by simp [Forest.exec]⟩
  | contains k => exact ⟨hf, by simp [Forest.exec]⟩
  | size => exact ⟨hf, by simp [Forest.exec]⟩
  | copy =>
    rw [Forest.exec, copy?]
    split
    · rename_i g hg
      split at hg
      · cases hg
        exact ⟨hf, by simpa using hf⟩
      · cases hg
    · exact ⟨hf, by simp⟩

end lasting

/-! ## Moves -/

/-- A command to a store, or a new start of it. -/
inductive Move (κ ν : Type)
  | ask (command : Command κ ν)
  | reset

/-- The key that a move adds. -/
def Move.added? : Move κ ν → Option κ
  | .ask c => c.added?
  | .reset => none

/-- The stores after a move of the one with the given number. -/
def move (combine : ν → ν → ν) (number : Nat) : Move κ ν → List (Forest κ ν) → List (Forest κ ν)
  | .ask c, stores => (step (exec combine) number c stores).2
  | .reset, stores => stores.set number ∅

/-- The stores after a list of moves, each with the number of its store. -/
def moves (combine : ν → ν → ν) : List (Nat × Move κ ν) → List (Forest κ ν) → List (Forest κ ν)
  | [], stores => stores
  | (number, m) :: rest, stores => moves combine rest (move combine number m stores)

/-- Every key that the moves add is new to its store at that time. -/
def NewKeys (combine : ν → ν → ν) : List (Nat × Move κ ν) → List (Forest κ ν) → Prop
  | [], _ => True
  | (number, m) :: rest, stores =>
    (∀ f ∈ stores[number]?, ∀ k ∈ m.added?, f.contains k = false) ∧
      NewKeys combine rest (move combine number m stores)

instance instDecidableNewKeys (combine : ν → ν → ν) : ∀ (steps : List (Nat × Move κ ν))
    (stores : List (Forest κ ν)), Decidable (NewKeys combine steps stores)
  | [], _ => isTrue trivial
  | (_, _) :: rest, _ => @instDecidableAnd _ _ inferInstance (instDecidableNewKeys combine rest _)

section lasting

variable {combine : ν → ν → ν} {new : Prop} {I : Forest κ ν → Prop} {fs : List (Forest κ ν)}

/-- One move preserves `I` in all stores. -/
theorem Lasting.move (h : Lasting combine new I) (hfs : ∀ f ∈ fs, I f) (number : Nat) (m : Move κ ν)
    (hnew : new → ∀ f ∈ fs[number]?, ∀ k ∈ m.added?, f.contains k = false) :
    ∀ f ∈ move combine number m fs, I f := by
  intro f hf
  cases m with
  | reset =>
    rcases List.mem_or_eq_of_mem_set hf with hf | rfl
    · exact hfs f hf
    · exact h.empty
  | ask c =>
    rw [Forest.move, step] at hf
    cases hnumber : fs[number]? with
    | none =>
      rw [hnumber] at hf
      exact hfs f hf
    | some g =>
      rw [hnumber, List.mem_append] at hf
      obtain ⟨hstore, hcopies⟩ :=
        h.exec (hfs g (List.mem_of_getElem? hnumber)) c fun hn ↦ hnew hn g hnumber
      rcases hf with hf | hf
      · rcases List.mem_or_eq_of_mem_set hf with hf | rfl
        · exact hfs f hf
        · exact hstore
      · exact hcopies f hf

theorem Lasting.moves (h : Lasting combine new I) {steps : List (Nat × Move κ ν)}
    (hfs : ∀ f ∈ fs, I f) (hnew : new → NewKeys combine steps fs) :
    ∀ f ∈ moves combine steps fs, I f := by
  induction steps generalizing fs with
  | nil => exact hfs
  | cons s steps ih => exact ih (h.move hfs s.1 s.2 fun hn ↦ (hnew hn).1) fun hn ↦ (hnew hn).2

/-- `I` holds of every store that comes from a new one. -/
theorem Lasting.of_mem_moves (h : Lasting combine new I) {steps : List (Nat × Move κ ν)}
    (hnew : new → NewKeys combine steps [∅]) (hf : f ∈ Forest.moves combine steps [∅]) : I f :=
  h.moves (by simpa using h.empty) hnew f hf

end lasting

/-- **Forests stay well-founded and shallow.**  Let `f` be a store after any moves of a new store
and its copies.  Ranks grow along the links of `f`, also between cells that have lost their key, and
both loops of `find` end.  If only new keys were added, a root of rank `n` has at least `2 ^ n` keys
in its class, and no chain has more links than the logarithm of the size of its class. -/
theorem moves_shallow (combine : ν → ν → ν) (steps : List (Nat × Move κ ν)) (f : Forest κ ν)
    (hf : f ∈ moves combine steps [∅]) :
    (∀ i j, parent? f.cells i = some j →
      ∃ m n, rank? f.cells i = some m ∧ rank? f.cells j = some n ∧ m < n) ∧
    (∀ i < f.cells.size, (∃ n, Chain f.cells i n (f.root i)) ∧
      Shortens (f.root i) i f.cells (shorten (f.root i) f.cells.size i f.cells)) ∧
    (NewKeys combine steps [∅] →
      (∀ r, (f.below r).Nodup) ∧
      (∀ r n, RootOf f.cells r r → rank? f.cells r = some n → 2 ^ n ≤ (f.below r).length) ∧
      ∀ i n r, Chain f.cells i n r → n ≤ Nat.log 2 (f.below r).length) := by
  obtain ⟨hwf, hnodup⟩ := (lasting_wf combine).of_mem_moves False.elim hf
  refine ⟨hwf.ranked, fun i hi ↦ ?_, fun hnew ↦ ?_⟩
  · obtain ⟨n, hn⟩ := (rootOf_root hwf.ranked hi).exists_chain
    exact ⟨⟨n, hn⟩, hn.shortens hwf.ranked (hn.length_le_size hwf.ranked)⟩
  · obtain ⟨-, hheavy⟩ := (lasting_heavy combine).of_mem_moves (fun _ ↦ hnew) hf
    refine ⟨fun r ↦ hnodup.filter _, hheavy, fun i n r hchain ↦ ?_⟩
    obtain ⟨m, m', -, hm', hle⟩ := hchain.rank_add_le hwf.ranked
    have hweight := hheavy r m' (rootOf_self_iff.2 hchain.rootOf.isRoot) hm'
    have hpos : (f.below r).length ≠ 0 := by
      have := Nat.two_pow_pos m'
      omega
    exact (Nat.le_log_iff_pow_le one_lt_two hpos).2
      ((Nat.pow_le_pow_right two_pos (by omega)).trans hweight)

/-- Four keys are merged in pairs and then together.  The last root has rank two, and a copy keeps
the chain of two links that `find` shortens in the first store. -/
theorem moves_shallow_four_keys :
    ∃ f ∈ moves (· + ·) [(0, .ask (.add 'a' 1)), (0, .ask (.add 'b' 2)), (0, .ask (.add 'c' 3)),
        (0, .ask (.add 'd' 4)), (0, .ask (.union 'a' 'b')), (0, .ask (.union 'c' 'd')),
        (0, .ask (.union 'b' 'd')), (0, .ask .copy), (0, .ask (.value 'd')), (0, .reset)] [∅],
      rank? f.cells 0 = some 2 ∧ f.below 0 = ['a', 'b', 'c', 'd'] ∧
        2 ^ 2 ≤ (f.below 0).length ∧ Chain f.cells 3 2 0 ∧ 2 ≤ Nat.log 2 (f.below 0).length := by
  have hmem : (⟨#[⟨10, 2, none⟩, ⟨2, 0, some 0⟩, ⟨7, 1, some 0⟩, ⟨4, 0, some 2⟩],
      ⟨[('a', 0), ('b', 1), ('c', 2), ('d', 3)]⟩⟩ : Forest Char Nat) ∈ moves (· + ·)
      [(0, .ask (.add 'a' 1)), (0, .ask (.add 'b' 2)), (0, .ask (.add 'c' 3)),
        (0, .ask (.add 'd' 4)), (0, .ask (.union 'a' 'b')), (0, .ask (.union 'c' 'd')),
        (0, .ask (.union 'b' 'd')), (0, .ask .copy), (0, .ask (.value 'd')), (0, .reset)] [∅] :=
    List.mem_of_getElem? (i := 1) rfl
  obtain ⟨-, -, hsmall⟩ := moves_shallow _ _ _ hmem
  obtain ⟨-, hheavy, hchain⟩ := hsmall (by decide)
  have hroot :
      Chain #[(⟨10, 2, none⟩ : Cell Nat), ⟨2, 0, some 0⟩, ⟨7, 1, some 0⟩, ⟨4, 0, some 2⟩] 0 0 0 :=
    .root (by decide) rfl
  have hlinks := Chain.link (i := 3) (j := 2) rfl (.link (j := 0) rfl hroot)
  exact ⟨_, hmem, rfl, by decide, hheavy 0 2 hroot.rootOf rfl, hlinks, hchain 3 2 0 hlinks⟩

/-- A key that is added again leaves its class, which then has one key and a root of rank one. -/
example : ∃ f ∈
    moves (· + ·) [(0, .ask (.add 'a' 1)), (0, .ask (.add 'b' 2)), (0, .ask (.union 'a' 'b')),
    (0, .ask (.add 'b' 3))] [∅], rank? f.cells 0 = some 1 ∧ f.below 0 = ['a'] := by
  decide

end Forest

end SchemeTyping
