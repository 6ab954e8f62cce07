import SchemeTyping.Proofs.Constraint
import SchemeTyping.Proofs.Ty.Lattice

/-!
# Meets of constraints are intersections

A constraint stands for the types that satisfy it.  `Constraint.meetAll` drops bounds once a type is
known and fails at the first meet that fails; still it is satisfied by exactly the types that
satisfy every constraint (`Constraint.meetAll_intersection`).

That it implies every constraint holds of all static types.  The converse rests on meets and joins
being the best bounds, so it is about tidy types; there `meetAll` fails only if no type satisfies
every constraint.

`Constraint.untyped` is left aside here: it is satisfied by every type, and it absorbs all others.
-/

set_option autoImplicit false

namespace SchemeTyping

open Ty

namespace Constraint

variable {c c' d m : Constraint} {cs : List Constraint} {G : Ty → Prop} {absent : String} {t : Ty}

theorem meetAll_eq_foldlM (cs : List Constraint) : meetAll cs = cs.foldlM meet top :=
  (List.foldlM_eq_foldl ..).symm

/-- A constraint other than `untyped` whose types are in `G`. -/
structure Typed (G : Ty → Prop) (c : Constraint) : Prop where
  ne_untyped : c ≠ .untyped
  types : ∀ t ∈ c.types, G t

instance [DecidablePred G] : DecidablePred (Typed G) := fun c ↦
  decidable_of_iff (c ≠ .untyped ∧ ∀ t ∈ c.types, G t) ⟨fun h ↦ ⟨h.1, h.2⟩, fun h ↦ ⟨h.1, h.2⟩⟩

/-! ## One meet -/

theorem Meets.ne_untyped (h : Meets c c' d) (hc : c ≠ .untyped) (hc' : c' ≠ .untyped) :
    d ≠ .untyped := by
  cases h with
  | untypedLeft => exact hc
  | untypedRight => exact hc'
  | _ => simp

theorem Meets.typed (h : Meets c c' d) (hG : ∀ (b : Bound) s t, G s → G t → G (Ty.bound b s t))
    (hc : c.Typed G) (hc' : c'.Typed G) : d.Typed G :=
  ⟨h.ne_untyped hc.ne_untyped hc'.ne_untyped, h.forall_mem_types hG hc.types hc'.types⟩

/-- A meet is satisfiable. -/
theorem Meets.isSatisfiable (h : Meets c c' d) : d.isSatisfiable = true := by
  cases h with
  | between h => exact h
  | _ => rfl

/-- If `t` satisfies two constraints on tidy types, their meet exists, and `t` satisfies it. -/
theorem exists_meets_of_holds (habsent : absent = "Empty" ∨ absent = "Null")
    (hc : ∀ u ∈ c.types, u.Tidy absent) (hc' : ∀ u ∈ c'.types, u.Tidy absent) (ht : t.Tidy absent)
    (h : c.Holds t) (h' : c'.Holds t) : ∃ d, Meets c c' d ∧ d.Holds t := by
  cases c with
  | untyped => exact ⟨.untyped, .untypedLeft, trivial⟩
  | equal s =>
    obtain rfl : t = s := h
    cases c' with
    | untyped => exact ⟨.untyped, .untypedRight, trivial⟩
    | equal s' =>
      obtain rfl : t = s' := h'
      exact ⟨.equal t, .equal, rfl⟩
    | between => exact ⟨.equal t, .equalLeft h'.1 h'.2, rfl⟩
  | between lower upper =>
    cases c' with
    | untyped => exact ⟨.untyped, .untypedRight, trivial⟩
    | equal s' =>
      obtain rfl : t = s' := h'
      exact ⟨.equal t, .equalRight h.1 h.2, rfl⟩
    | between lower' upper' =>
      simp only [types, List.forall_mem_cons] at hc hc'
      have hlower : (lower'.join lower).isSubtype t = true :=
        holds_bound_of_holds habsent .upper hc'.1 hc.1 ht h'.1 h.1
      have hupper : t.isSubtype (upper'.meet upper) = true :=
        holds_bound_of_holds habsent .lower hc'.2.1 hc.2.1 ht h'.2 h.2
      exact ⟨_, .between (isSubtype_trans ht.static hlower hupper), hlower, hupper⟩

/-- A satisfiable constraint is satisfied by one of its own types. -/
theorem Typed.exists_holds (hc : c.Typed G) (hsat : c.isSatisfiable = true) :
    ∃ t, G t ∧ c.Holds t := by
  cases c with
  | untyped => exact absurd rfl hc.ne_untyped
  | equal t => exact ⟨t, hc.types t List.mem_cons_self, rfl⟩
  | between lower upper =>
    exact ⟨lower, hc.types lower List.mem_cons_self, isSubtype_refl lower, hsat⟩

/-! ## All meets -/

theorem foldlM_meet_cons_iff :
    (c' :: cs).foldlM meet c = some m ↔ ∃ d, Meets c c' d ∧ cs.foldlM meet d = some m := by
  simp only [List.foldlM_cons, Option.bind_eq_bind, Option.bind_eq_some_iff, meet_eq_some_iff]

theorem typed_of_foldlM (hG : ∀ (b : Bound) s t, G s → G t → G (Ty.bound b s t)) (hc : c.Typed G)
    (hcs : ∀ c' ∈ cs, c'.Typed G) (h : cs.foldlM meet c = some m) : m.Typed G := by
  induction cs generalizing c with
  | nil =>
    cases h
    exact hc
  | cons c' cs ih =>
    rw [List.forall_mem_cons] at hcs
    obtain ⟨d, hd, h⟩ := foldlM_meet_cons_iff.1 h
    exact ih (hd.typed hG hc hcs.1) hcs.2 h

theorem isSatisfiable_of_foldlM (hc : c.isSatisfiable = true) (h : cs.foldlM meet c = some m) :
    m.isSatisfiable = true := by
  induction cs generalizing c with
  | nil =>
    cases h
    exact hc
  | cons c' cs ih =>
    obtain ⟨d, hd, h⟩ := foldlM_meet_cons_iff.1 h
    exact ih hd.isSatisfiable h

theorem holds_of_foldlM (hc : c.Typed Static) (hcs : ∀ c' ∈ cs, c'.Typed Static)
    (h : cs.foldlM meet c = some m) (ht : m.Holds t) : c.Holds t ∧ ∀ c' ∈ cs, c'.Holds t := by
  induction cs generalizing c with
  | nil =>
    cases h
    exact ⟨ht, by simp⟩
  | cons c' cs ih =>
    rw [List.forall_mem_cons] at hcs
    obtain ⟨d, hd, h⟩ := foldlM_meet_cons_iff.1 h
    have hd' := hd.typed (fun b _ _ ↦ Built.bound (by decide) (by decide) b) hc hcs.1
    obtain ⟨hdt, hrest⟩ := ih hd' hcs.2 h
    obtain ⟨hct, hct'⟩ := hd.holds hc.ne_untyped hcs.1.ne_untyped hd'.types hdt
    exact ⟨hct, List.forall_mem_cons.2 ⟨hct', hrest⟩⟩

theorem exists_foldlM_of_holds (habsent : absent = "Empty" ∨ absent = "Null")
    (hc : ∀ u ∈ c.types, u.Tidy absent) (hcs : ∀ c' ∈ cs, ∀ u ∈ c'.types, u.Tidy absent)
    (ht : t.Tidy absent) (h : c.Holds t) (hall : ∀ c' ∈ cs, c'.Holds t) :
    ∃ m, cs.foldlM meet c = some m ∧ m.Holds t := by
  induction cs generalizing c with
  | nil => exact ⟨c, rfl, h⟩
  | cons c' cs ih =>
    rw [List.forall_mem_cons] at hcs hall
    obtain ⟨d, hd, hdt⟩ := exists_meets_of_holds habsent hc hcs.1 ht h hall.1
    have hd' := hd.forall_mem_types (fun b _ _ ↦ Tidy.bound habsent b) hc hcs.1
    obtain ⟨m, hm, hmt⟩ := ih hd' hcs.2 hdt hall.2
    exact ⟨m, foldlM_meet_cons_iff.2 ⟨d, hd, hm⟩, hmt⟩

theorem typed_top (hnever : G never) (hany : G any) : top.Typed G :=
  ⟨by simp [top], by simp [top, types, hnever, hany]⟩

theorem Typed.static (h : c.Typed (Tidy absent)) : c.Typed Static :=
  ⟨h.ne_untyped, fun t ht ↦ (h.types t ht).static⟩

/-- A type that satisfies `meetAll cs`, for constraints on static types, satisfies every one. -/
theorem holds_of_meetAll (hcs : ∀ c ∈ cs, c.Typed Static) (h : meetAll cs = some m)
    (ht : m.Holds t) : ∀ c ∈ cs, c.Holds t := by
  rw [meetAll_eq_foldlM] at h
  exact (holds_of_foldlM (typed_top (by decide) (by decide)) hcs h ht).2

/-- If `t` satisfies every one of `cs`, then `meetAll cs` exists, and `t` satisfies it. -/
theorem exists_meetAll_of_holds (habsent : absent = "Empty" ∨ absent = "Null")
    (hcs : ∀ c ∈ cs, ∀ u ∈ c.types, u.Tidy absent) (ht : t.Tidy absent)
    (hall : ∀ c ∈ cs, c.Holds t) : ∃ m, meetAll cs = some m ∧ m.Holds t := by
  rw [meetAll_eq_foldlM]
  exact exists_foldlM_of_holds habsent
    (typed_top (tidy_never habsent) (tidy_any habsent)).types hcs ht
    (holds_top t) hall

/-- A tidy type satisfies `meetAll cs` exactly if it satisfies every one of `cs`. -/
theorem holds_meetAll_iff (habsent : absent = "Empty" ∨ absent = "Null")
    (hcs : ∀ c ∈ cs, c.Typed (Tidy absent)) (h : meetAll cs = some m) (ht : t.Tidy absent) :
    m.Holds t ↔ ∀ c ∈ cs, c.Holds t := by
  refine ⟨holds_of_meetAll (fun c hc ↦ (hcs c hc).static) h, fun hall ↦ ?_⟩
  obtain ⟨m', hm', hmt⟩ := exists_meetAll_of_holds habsent (fun c hc ↦ (hcs c hc).types) ht hall
  obtain rfl : m' = m := Option.some.inj (hm'.symm.trans h)
  exact hmt

/-- The meet of constraints on tidy types is one, and satisfiable. -/
theorem typed_meetAll (habsent : absent = "Empty" ∨ absent = "Null")
    (hcs : ∀ c ∈ cs, c.Typed (Tidy absent)) (h : meetAll cs = some m) :
    m.Typed (Tidy absent) ∧ m.isSatisfiable = true := by
  rw [meetAll_eq_foldlM] at h
  have htop := typed_top (tidy_never habsent) (tidy_any habsent)
  exact ⟨typed_of_foldlM (fun b _ _ ↦ Tidy.bound habsent b) htop hcs h,
    isSatisfiable_of_foldlM (c := top) (never_isSubtype any) h⟩

/-- `meetAll cs` succeeds exactly if some tidy type satisfies every one of `cs`. -/
theorem isSome_meetAll_iff (habsent : absent = "Empty" ∨ absent = "Null")
    (hcs : ∀ c ∈ cs, c.Typed (Tidy absent)) :
    (meetAll cs).isSome = true ↔ ∃ t : Ty, t.Tidy absent ∧ ∀ c ∈ cs, c.Holds t := by
  constructor
  · intro h
    obtain ⟨m, hm⟩ := Option.isSome_iff_exists.1 h
    obtain ⟨htyped, hsat⟩ := typed_meetAll habsent hcs hm
    obtain ⟨t, ht, hmt⟩ := htyped.exists_holds hsat
    exact ⟨t, ht, (holds_meetAll_iff habsent hcs hm ht).1 hmt⟩
  · rintro ⟨t, ht, hall⟩
    obtain ⟨m, hm, -⟩ := exists_meetAll_of_holds habsent (fun c hc ↦ (hcs c hc).types) ht hall
    rw [hm, Option.isSome_some]

/-- **The meet of constraints is their intersection.**  Let none of `cs` be `untyped`.  If their
types are static, a type that satisfies `meetAll cs` satisfies every one of `cs`.  If they are tidy,
a tidy type that satisfies every one of `cs` satisfies `meetAll cs`, and `meetAll cs` fails exactly
if there is no such type. -/
theorem meetAll_intersection (cs : List Constraint) :
    ((∀ c ∈ cs, c.Typed Static) →
      ∀ m, meetAll cs = some m → ∀ t, m.Holds t → ∀ c ∈ cs, c.Holds t) ∧
    ∀ absent, absent = "Empty" ∨ absent = "Null" → (∀ c ∈ cs, c.Typed (Tidy absent)) →
      (∀ m, meetAll cs = some m → ∀ t : Ty, t.Tidy absent → (∀ c ∈ cs, c.Holds t) → m.Holds t) ∧
      (meetAll cs = none ↔ ¬ ∃ t : Ty, t.Tidy absent ∧ ∀ c ∈ cs, c.Holds t) := by
  refine ⟨fun hcs m hm t ↦ ?_, fun absent habsent hcs ↦ ⟨fun m hm t ht ↦ ?_, ?_⟩⟩
  · exact holds_of_meetAll hcs hm
  · exact (holds_meetAll_iff habsent hcs hm ht).2
  · rw [← isSome_meetAll_iff habsent hcs, Option.not_isSome_iff_eq_none]

/-- Neither of the lower bounds is a subtype of the other, and their join is in the argument of a
function.  With one more upper bound no type is left. -/
theorem meetAll_intersection_functions :
    let cs : List Constraint := [.between (function [number, integer]) any,
      .between (function [string, integer]) (function [never, number])]
    let m : Constraint := .between (function [never, integer]) (function [never, number])
    let ds := cs ++ [.between never (function [integer, number])]
    meetAll cs = some m ∧ (∀ t, m.Holds t → ∀ c ∈ cs, c.Holds t) ∧
      ((∀ c ∈ cs, c.Holds (function [never, number])) → m.Holds (function [never, number])) ∧
      meetAll ds = none ∧ ¬ ∃ t : Ty, t.Tidy "Empty" ∧ ∀ c ∈ ds, c.Holds t := by
  intro cs m ds
  have hcs : meetAll cs = some m := by decide +kernel
  have hds : meetAll ds = none := by decide +kernel
  have htidy := (meetAll_intersection cs).2 "Empty" (.inl rfl) (by decide +kernel)
  refine ⟨hcs, (meetAll_intersection cs).1 (by decide +kernel) m hcs, ?_, hds, ?_⟩
  · exact htidy.1 m hcs _ (by decide +kernel)
  · exact ((meetAll_intersection ds).2 "Empty" (.inl rfl) (by decide +kernel)).2.1 hds

end Constraint

end SchemeTyping
