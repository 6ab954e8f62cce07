import Mathlib.Data.Finset.Card
import Mathlib.Logic.Relation
import SchemeTyping.Inference.Store
import SchemeTyping.Proofs.Forest
import SchemeTyping.Proofs.Ty.Basic

/-!
# Stores without cycles

`store.Leads a b` says that the value of the class of `a` mentions `b`.  In an `Acyclic` store no
unknown leads back to itself, in any number of steps.

## What is here

* `acyclic_iff_settles` — a store is acyclic exactly if the replacements in every type end.  One
  direction counts the unknowns that can still be reached: their number decreases with every step,
  and it is at most the number of unknowns in the store, which is the bound that `Store.settles`
  uses.
* `apply_eq_fill`, `apply_unknown` — in an acyclic store `apply` satisfies the equations of a
  substitution.
* `next?_resolve` — `resolve` ends at an unknown without a solution or at a constructor.
* `Acyclic.of_changed`, `Acyclic.of_settles` — a cycle in a changed store goes through an unknown
  that was changed.
-/

set_option autoImplicit false

namespace SchemeTyping.Store

open Relation

variable {store store' : Store} {a b id : String} {t : Ty} {m n : Nat}

/-- The value of the class of `a` mentions `b`. -/
def Leads (store : Store) (a b : String) : Prop := ∃ t, next? store a = some t ∧ b ∈ t.unknowns

/-- No unknown leads back to itself. -/
def Acyclic (store : Store) : Prop := ∀ a, ¬ TransGen store.Leads a a

theorem next?_eq_some_iff :
    next? store id = some t ↔ store.value? id = some t ∧ t ≠ .unknown id := by
  rw [next?]
  cases store.value? id with
  | none => simp
  | some s =>
    dsimp only
    split
    · rename_i h
      simp [h]
      rintro rfl
      simp
    · rename_i h
      simp only [Option.some.injEq]
      constructor
      · rintro rfl
        exact ⟨rfl, h⟩
      · exact fun h ↦ h.1

theorem next?_eq_none_iff :
    next? store id = none ↔ store.value? id = none ∨ store.value? id = some (.unknown id) := by
  rw [next?]
  cases store.value? id with
  | none => simp
  | some s => by_cases h : s = .unknown id <;> simp [h]

/-! ## The number of replacements -/

theorem settlesWithin_iff : settlesWithin store (n + 1) t = true ↔
    ∀ id ∈ t.unknowns, ∀ s, next? store id = some s → settlesWithin store n s = true := by
  rw [settlesWithin, List.all_eq_true]
  refine forall₂_congr fun id _ ↦ ?_
  cases next? store id <;> simp

theorem settlesWithin_unknown_iff : settlesWithin store (n + 1) (.unknown id) = true ↔
    ∀ s, next? store id = some s → settlesWithin store n s = true := by
  simp [settlesWithin_iff]

theorem settlesWithin_iff_unknowns : settlesWithin store (n + 1) t = true ↔
    ∀ id ∈ t.unknowns, settlesWithin store (n + 1) (.unknown id) = true := by
  rw [settlesWithin_iff]
  exact forall₂_congr fun id _ ↦ settlesWithin_unknown_iff.symm

theorem settlesWithin_mono : ∀ {m n : Nat} {t : Ty}, m ≤ n → settlesWithin store m t = true →
    settlesWithin store n t = true
  | 0, _, _, _, h => by simp [settlesWithin] at h
  | m + 1, 0, _, hmn, _ => by omega
  | m + 1, n + 1, t, hmn, h => by
    rw [settlesWithin_iff] at h ⊢
    exact fun id hid s hs ↦ settlesWithin_mono (by omega) (h id hid s hs)

/-- A step uses one replacement. -/
theorem Leads.settlesWithin (h : store.Leads a b) (hs : settlesWithin store n (.unknown a) = true) :
    ∃ m < n, Store.settlesWithin store m (.unknown b) = true := by
  obtain ⟨t, ht, hb⟩ := h
  cases n with
  | zero => simp [Store.settlesWithin] at hs
  | succ n =>
    have hn := settlesWithin_unknown_iff.1 hs t ht
    refine ⟨n, by omega, ?_⟩
    cases n with
    | zero => simp [Store.settlesWithin] at hn
    | succ n => exact settlesWithin_iff_unknowns.1 hn b hb

theorem settlesWithin_of_transGen (h : TransGen store.Leads a b)
    (hs : settlesWithin store n (.unknown a) = true) :
    ∃ m < n, settlesWithin store m (.unknown b) = true := by
  induction h with
  | single h => exact h.settlesWithin hs
  | tail _ h ih =>
    obtain ⟨m, hm, hs'⟩ := ih
    obtain ⟨k, hk, hs''⟩ := h.settlesWithin hs'
    exact ⟨k, by omega, hs''⟩

/-- An unknown that settles does not lead back to itself. -/
theorem not_transGen_of_settlesWithin (hs : settlesWithin store n (.unknown a) = true) :
    ¬ TransGen store.Leads a a := by
  induction n using Nat.strong_induction_on with
  | _ n ih =>
    intro h
    obtain ⟨m, hm, hs'⟩ := settlesWithin_of_transGen h hs
    exact ih m hm hs' h

/-! ## Counting what can be reached -/

open Classical in
/-- The number of unknowns that can be reached from `a`. -/
noncomputable def reachable (store : Store) (a : String) : Nat :=
  (store.keys.toFinset.filter fun k ↦ TransGen store.Leads a k).card

theorem mem_keys_of_value? (h : store.value? a = some t) : a ∈ store.keys := by
  obtain ⟨i, hi⟩ := Forest.contains_iff.1 (Forest.contains_of_value? h)
  refine not_not.1 fun hn ↦ ?_
  rw [Forest.keys, ← OrdMap.get?_eq_none_iff, hi] at hn
  cases hn

theorem mem_keys_of_next? (h : next? store a = some t) : a ∈ store.keys :=
  mem_keys_of_value? (next?_eq_some_iff.1 h).1

theorem reachable_lt_of_leads (hs : store.Acyclic) (h : store.Leads a b) {t : Ty}
    (hb : next? store b = some t) : store.reachable b < store.reachable a := by
  classical
  unfold reachable
  refine Finset.card_lt_card (Finset.ssubset_iff_subset_ne.2 ⟨fun k ↦ ?_, fun he ↦ ?_⟩)
  · simp only [Finset.mem_filter]
    exact fun hk ↦ ⟨hk.1, .head h hk.2⟩
  · have hmem : b ∈ store.keys.toFinset.filter fun k ↦ TransGen store.Leads a k :=
      Finset.mem_filter.2 ⟨List.mem_toFinset.2 (mem_keys_of_next? hb), .single h⟩
    rw [← he, Finset.mem_filter] at hmem
    exact hs b hmem.2

theorem reachable_lt_size (hs : store.Acyclic) (ha : next? store a = some t) :
    store.reachable a < store.size := by
  classical
  have hsub : (store.keys.toFinset.filter fun k ↦ TransGen store.Leads a k) ⊂
      store.keys.toFinset := by
    refine Finset.filter_ssubset.2 ⟨a, List.mem_toFinset.2 (mem_keys_of_next? ha), hs a⟩
  have hlen : store.keys.length = store.size := by
    rw [Forest.keys, OrdMap.keys, List.length_map]
    rfl
  unfold reachable
  calc _ < store.keys.toFinset.card := Finset.card_lt_card hsub
    _ ≤ store.keys.length := List.toFinset_card_le _
    _ = store.size := hlen

theorem settlesWithin_reachable (hs : store.Acyclic) :
    ∀ (n : Nat) (a : String), store.reachable a ≤ n →
      settlesWithin store (n + 2) (.unknown a) = true
  | n, a, hn => by
    rw [settlesWithin_unknown_iff]
    intro t ht
    rw [settlesWithin_iff_unknowns]
    intro b hb
    cases hnext : next? store b with
    | none => simp [settlesWithin_unknown_iff, hnext]
    | some s =>
      have hlt := reachable_lt_of_leads hs ⟨t, ht, hb⟩ hnext
      cases n with
      | zero => omega
      | succ n => exact settlesWithin_reachable hs n b (by omega)

/-- In an acyclic store the replacements in every type end. -/
theorem Acyclic.settles (hs : store.Acyclic) (t : Ty) : store.settles t = true := by
  rw [Store.settles, settlesWithin_iff_unknowns]
  intro id _
  cases hnext : next? store id with
  | none => simp [settlesWithin_unknown_iff, hnext]
  | some s =>
    have hlt := reachable_lt_size hs hnext
    exact settlesWithin_mono (by omega) (settlesWithin_reachable hs _ id (Nat.le_refl _))

/-- A store is acyclic exactly if the replacements in every type end. -/
theorem acyclic_iff_settles : store.Acyclic ↔ ∀ t, store.settles t = true :=
  ⟨Acyclic.settles, fun h a ↦ not_transGen_of_settlesWithin (h (.unknown a))⟩

/-! ## Applying and resolving -/

theorem apply_eq_fill (store : Store) (t : Ty) :
    store.apply t = t.fill fun id ↦ store.apply (.unknown id) := by
  rw [apply, applyWithin]
  rfl

theorem applyWithin_eq_of_settlesWithin : ∀ {m n : Nat} {t : Ty}, m ≤ n →
    settlesWithin store m t = true → applyWithin store n t = applyWithin store m t
  | 0, _, _, _, h => by simp [settlesWithin] at h
  | m + 1, 0, _, hmn, _ => by omega
  | m + 1, n + 1, t, hmn, h => by
    rw [settlesWithin_iff] at h
    rw [applyWithin, applyWithin]
    refine Ty.fill_congr fun id hid ↦ ?_
    cases hnext : next? store id with
    | none => rfl
    | some s => exact applyWithin_eq_of_settlesWithin (by omega) (h id hid s hnext)

theorem apply_unknown_of_none (h : next? store id = none) :
    store.apply (.unknown id) = .unknown id := by
  rw [apply, applyWithin, Ty.fill_unknown, h]

theorem apply_unknown (hs : store.Acyclic) (h : next? store id = some t) :
    store.apply (.unknown id) = store.apply t := by
  have ht : settlesWithin store store.size t = true :=
    settlesWithin_unknown_iff.1 (hs.settles (.unknown id)) t h
  rw [apply, applyWithin, Ty.fill_unknown, h, apply]
  exact (applyWithin_eq_of_settlesWithin (Nat.le_succ _) ht).symm

/-- An unknown without a solution that can be reached from `a` is in what `apply` makes of `a`. -/
theorem mem_unknowns_apply (hs : store.Acyclic) (h : ReflTransGen store.Leads a b)
    (hb : next? store b = none) : b ∈ (store.apply (.unknown a)).unknowns := by
  induction h using ReflTransGen.head_induction_on with
  | refl => simp [apply_unknown_of_none hb]
  | head h _ ih =>
    obtain ⟨t, ht, hc⟩ := h
    rw [apply_unknown hs ht, apply_eq_fill, Ty.mem_unknowns_fill]
    exact ⟨_, hc, ih⟩

theorem next?_resolveWithin : ∀ {n : Nat} {t : Ty}, settlesWithin store n t = true →
    resolveWithin store n t = .unknown id → next? store id = none
  | 0, _, h, _ => by simp [settlesWithin] at h
  | n + 1, .unknown a, h, he => by
    rw [resolveWithin] at he
    cases hnext : next? store a with
    | none =>
      rw [hnext] at he
      cases he
      exact hnext
    | some s =>
      rw [hnext] at he
      exact next?_resolveWithin (settlesWithin_unknown_iff.1 h s hnext) he
  | n + 1, .var _, _, he => by simp [resolveWithin] at he
  | n + 1, .con _ _, _, he => by simp [resolveWithin] at he
  | n + 1, .variadic _ _ _, _, he => by simp [resolveWithin] at he
  | n + 1, .all _ _, _, he => by simp [resolveWithin] at he

/-- An unknown at which `resolve` ends has no solution. -/
theorem next?_resolve (hs : store.Acyclic) (h : store.resolve t = .unknown id) :
    next? store id = none :=
  next?_resolveWithin (hs.settles t) h

/-- An unknown that `resolve` takes to a type other than an unknown has a solution. -/
theorem next?_isSome_of_resolve (h : ∀ id', store.resolve (.unknown id) ≠ .unknown id') :
    ∃ t, next? store id = some t := by
  cases hnext : next? store id with
  | none =>
    refine absurd ?_ (h id)
    rw [resolve, resolveWithin, hnext]
  | some t => exact ⟨t, rfl⟩

/-! ## Changing a store -/

theorem Acyclic.congr (hs : store.Acyclic) (h : ∀ a, store'.value? a = store.value? a) :
    store'.Acyclic := by
  have hleads : store'.Leads = store.Leads := by
    funext a b
    simp only [Leads, next?, h]
  intro a
  rw [hleads]
  exact hs a

/-- A path to a changed unknown leads to one of them by steps of the old store. -/
theorem exists_reflTransGen_of_changed {C : String → Prop}
    (hsame : ∀ a, ¬ C a → ∀ b, store'.Leads a b → store.Leads a b)
    (h : ReflTransGen store'.Leads a b) (hb : C b) : ∃ c, C c ∧ ReflTransGen store.Leads a c := by
  induction h using ReflTransGen.head_induction_on with
  | refl => exact ⟨b, hb, .refl⟩
  | @head a d h _ ih =>
    by_cases ha : C a
    · exact ⟨a, ha, .refl⟩
    · obtain ⟨c, hc, hd⟩ := ih
      exact ⟨c, hc, .head (hsame a ha d h) hd⟩

/-- A cycle that is not in the old store goes through a changed unknown. -/
theorem exists_cycle_of_changed {C : String → Prop}
    (hsame : ∀ a, ¬ C a → ∀ b, store'.Leads a b → store.Leads a b)
    (hs : store.Acyclic) (h : TransGen store'.Leads a a) :
    ∃ c, C c ∧ TransGen store'.Leads c c := by
  have hsplit : ∀ {x y}, TransGen store'.Leads x y → TransGen store.Leads x y ∨
      ∃ c, C c ∧ ReflTransGen store'.Leads x c ∧ TransGen store'.Leads c y := by
    intro x y hxy
    induction hxy using TransGen.head_induction_on with
    | @single x h =>
      by_cases hx : C x
      · exact .inr ⟨x, hx, .refl, .single h⟩
      · exact .inl (.single (hsame x hx _ h))
    | @head x d h hd ih =>
      by_cases hx : C x
      · exact .inr ⟨x, hx, .refl, .head h hd⟩
      · rcases ih with ih | ⟨c, hc, hdc, hcy⟩
        · exact .inl (.head (hsame x hx _ h) ih)
        · exact .inr ⟨c, hc, .head h hdc, hcy⟩
  rcases hsplit h with h | ⟨c, hc, hac, hca⟩
  · exact absurd h (hs a)
  · exact ⟨c, hc, hca.trans_left hac⟩

/-- A store stays acyclic if the changed unknowns lead to nothing from which the old store leads to
a changed one. -/
theorem Acyclic.of_changed {C : String → Prop} (hs : store.Acyclic)
    (hsame : ∀ a, ¬ C a → ∀ b, store'.Leads a b → store.Leads a b)
    (hnew : ∀ a, C a → ∀ b, store'.Leads a b → ∀ c, C c → ¬ ReflTransGen store.Leads b c) :
    store'.Acyclic := by
  intro a h
  obtain ⟨c, hc, hcc⟩ := exists_cycle_of_changed hsame hs h
  obtain ⟨b, hcb, hbc⟩ := TransGen.head'_iff.1 hcc
  obtain ⟨d, hd, hbd⟩ := exists_reflTransGen_of_changed hsame hbc hc
  exact hnew c hc b hcb d hd hbd

/-- A store stays acyclic if all changed unknowns get the solution `t`, and the replacements in `t`
end. -/
theorem Acyclic.of_settles {C : String → Prop} (hs : store.Acyclic)
    (hsame : ∀ a, ¬ C a → next? store' a = next? store a)
    (hnew : ∀ a, C a → next? store' a = some t) (ht : store'.settles t = true) :
    store'.Acyclic := by
  intro a h
  have hleads : ∀ a, ¬ C a → ∀ b, store'.Leads a b → store.Leads a b := by
    rintro a ha b ⟨s, hs, hb⟩
    exact ⟨s, (hsame a ha).symm.trans hs, hb⟩
  obtain ⟨c, hc, hcc⟩ := exists_cycle_of_changed hleads hs h
  obtain ⟨b, ⟨s, hs, hb⟩, hbc⟩ := TransGen.head'_iff.1 hcc
  have hst : s = t := Option.some.inj (hs.symm.trans (hnew c hc))
  rw [Store.settles, settlesWithin_iff_unknowns] at ht
  exact not_transGen_of_settlesWithin (ht b (hst ▸ hb)) (.trans_right hbc (.single ⟨s, hs, hb⟩))

end SchemeTyping.Store
