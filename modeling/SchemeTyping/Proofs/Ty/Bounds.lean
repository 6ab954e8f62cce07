import SchemeTyping.Proofs.Ty.Subtype
import SchemeTyping.Ty.Bounds

/-!
# Meets and joins are bounds

## What is here

* `Bound.Holds` — the side of a type that `Bound.lower` and `Bound.upper` stand for.
* `bound_induction` — `bound b s t` is made of parts of `s` and `t` and of extreme types.  So it has
  no variables of its own (`mem_freeVars_bound`) and stays in every fragment that has `any` and
  `never` (`Built.bound`).
* `holds_bound` — `bound b s t` is on the side `b` of both types, whatever these are made of.  It
  need not be the best such type: of two types that differ at an invariant parameter, it is the
  extreme one.
-/

set_option autoImplicit false

namespace SchemeTyping

open Ty

/-- `b.Holds r t`: the type `r` is below `t` for `Bound.lower` and above `t` for `Bound.upper`. -/
def Bound.Holds : Bound → Ty → Ty → Prop
  | .lower, r, t => r.isSubtype t = true
  | .upper, r, t => t.isSubtype r = true

namespace Ty

variable {s t : Ty} {ps qs rs : List Ty} {tag : String} {vs : List Variance} {b : Bound}

theorem holds_extreme (b : Bound) (s t : Ty) : b.Holds b.extreme s ∧ b.Holds b.extreme t := by
  cases b
  · exact ⟨never_isSubtype s, never_isSubtype t⟩
  · exact ⟨isSubtype_any s, isSubtype_any t⟩

theorem holds_ofSubtypes (b : Bound) (h : s.isSubtype t = true) :
    b.Holds (b.ofSubtypes s t) s ∧ b.Holds (b.ofSubtypes s t) t := by
  cases b
  · exact ⟨isSubtype_refl s, h⟩
  · exact ⟨h, isSubtype_refl t⟩

/-- The gradual type is on both sides of every type. -/
theorem holds_of_isUntyped (b : Bound) (h : s.isUntyped = true) (t : Ty) : b.Holds s t := by
  cases b
  · exact isSubtype_iff_below.2 (.untypedLeft h)
  · exact isSubtype_iff_below.2 (.untypedRight h)

/-- `bounds` works position by position: it is `bound b` at a covariant parameter and
`bound b.opposite` at a contravariant one, and it gives nothing where one is invariant. -/
theorem bounds_eq_some (hlen : ps.length = qs.length) (hvs : ps.length ≤ vs.length)
    (h : bounds b vs ps qs = some rs) :
    rs.length = ps.length ∧ ∀ (i : Nat) (v : Variance) (p q r : Ty), vs[i]? = some v →
      ps[i]? = some p →
      qs[i]? = some q → rs[i]? = some r →
      v = .covariant ∧ r = bound b p q ∨ v = .contravariant ∧ r = bound b.opposite p q := by
  induction ps generalizing vs qs rs with
  | nil =>
    obtain rfl := List.length_eq_zero_iff.1 hlen.symm
    obtain rfl : rs = [] := by cases vs <;> simpa [bounds] using h.symm
    simp
  | cons p ps ih =>
    obtain ⟨q, qs, rfl⟩ := List.exists_cons_of_length_eq_add_one (hlen.symm.trans rfl)
    obtain ⟨v, vs, rfl⟩ : ∃ v vs', vs = v :: vs' := by
      cases vs with
      | nil => simp at hvs
      | cons v vs => exact ⟨v, vs, rfl⟩
    have hlen' : ps.length = qs.length := by simpa using hlen
    have hvs' : ps.length ≤ vs.length := by simpa using hvs
    cases v with
    | invariant => simp [bounds] at h
    | covariant | contravariant =>
      simp only [bounds, Option.map_eq_some_iff] at h
      obtain ⟨rs', h', rfl⟩ := h
      obtain ⟨hl, hi⟩ := ih hlen' hvs' h'
      refine ⟨by simp [hl], fun i ↦ ?_⟩
      cases i with
      | zero => rintro _ _ _ _ ⟨⟩ ⟨⟩ ⟨⟩ ⟨⟩; simp
      | succ i => exact hi i

/-- `con tag rs` is on the side `b` of `con tag ps` if every parameter is on the side that its
variance asks for. -/
theorem holds_con (hlen : rs.length = ps.length)
    (h : ∀ (i : Nat) (v : Variance) (p r : Ty), (Variance.ofTag tag ps.length)[i]? = some v →
      ps[i]? = some p → rs[i]? = some r →
      v = .covariant ∧ b.Holds r p ∨ v = .contravariant ∧ b.opposite.Holds r p) :
    b.Holds (.con tag rs) (.con tag ps) := by
  cases b with
  | lower =>
    refine isSubtype_iff_below.2 (.con hlen fun i v r p hv hr hp ↦ ?_)
    rcases h i v p r (hlen ▸ hv) hp hr with ⟨rfl, h⟩ | ⟨rfl, h⟩ <;> exact h
  | upper =>
    refine isSubtype_iff_below.2 (.con hlen.symm fun i v p r hv hp hr ↦ ?_)
    rcases h i v p r hv hp hr with ⟨rfl, h⟩ | ⟨rfl, h⟩ <;> exact h

theorem holds_all {names : List String} {r body : Ty} (h : b.Holds r body) :
    b.Holds (.all names r) (.all names body) := by
  cases b <;> exact isSubtype_iff_below.2 (.all h)

theorem exists_getElem?_eq_some {α β : Type} {l : List α} {l' : List β} {i : Nat} {a : α}
    (hlen : l.length ≤ l'.length) (h : l[i]? = some a) : ∃ b, l'[i]? = some b :=
  ⟨_, List.getElem?_eq_getElem (Nat.lt_of_lt_of_le (List.getElem?_eq_some_iff.1 h).1 hlen)⟩

/-! ## What a bound is made of -/

/-- Induction along `bound b s t`: it is `s`, or `t`, or `b.extreme`, or has the head of both with
bounds for parameters. -/
theorem bound_induction {P : Ty → Ty → Ty → Prop} (left : ∀ s t, P s t s) (right : ∀ s t, P s t t)
    (extreme : ∀ (b : Bound) s t, P s t b.extreme)
    (all : ∀ names s t r, P s t r → P (.all names s) (.all names t) (.all names r))
    (con : ∀ tag ps qs rs, rs.length = ps.length → (∀ r ∈ rs, ∃ p ∈ ps, ∃ q ∈ qs, P p q r) →
      P (.con tag ps) (.con tag qs) (.con tag rs)) (b : Bound) (s t : Ty) :
        P s t (bound b s t) := by
  have ofSubtypes : ∀ s t, P s t (b.ofSubtypes s t) ∧ P s t (b.ofSubtypes t s) := fun s t ↦ by
    cases b
    · exact ⟨left s t, right s t⟩
    · exact ⟨right s t, left s t⟩
  unfold bound
  split
  · exact left s t
  split
  · exact right s t
  split
  · exact (ofSubtypes s t).1
  split
  · exact (ofSubtypes s t).2
  split
  · rename_i names body names' body' _ _ _ _
    split
    · rename_i hnames
      subst hnames
      exact all _ _ _ _ (bound_induction left right extreme all con b body body')
    · exact extreme b _ _
  · rename_i tag ps tag' qs _ _ _ _
    split
    · rename_i htag
      obtain ⟨rfl, hlen⟩ := htag
      split
      · rename_i rs hrs
        obtain ⟨hlen', hpos⟩ := bounds_eq_some hlen (le_length_ofTag _ _) hrs
        refine con tag ps qs rs hlen' fun r hrmem ↦ ?_
        obtain ⟨i, hr⟩ := List.mem_iff_getElem?.1 hrmem
        obtain ⟨p, hp⟩ := exists_getElem?_eq_some (Nat.le_of_eq hlen') hr
        obtain ⟨q, hq⟩ := exists_getElem?_eq_some (Nat.le_of_eq hlen) hp
        obtain ⟨v, hv⟩ := exists_getElem?_eq_some (le_length_ofTag tag ps.length) hp
        have hpmem := List.mem_of_getElem? hp
        have hqmem := List.mem_of_getElem? hq
        refine ⟨p, hpmem, q, hqmem, ?_⟩
        rcases hpos i v p q r hv hp hq hr with ⟨-, rfl⟩ | ⟨-, rfl⟩
        · exact bound_induction left right extreme all con b p q
        · exact bound_induction left right extreme all con b.opposite p q
      · exact extreme b _ _
    · exact extreme b _ _
  · exact extreme b _ _
termination_by sizeOf s + sizeOf t
decreasing_by
  all_goals subst_vars
  · simp; omega
  all_goals
    have := List.sizeOf_lt_of_mem hpmem
    have := List.sizeOf_lt_of_mem hqmem
    simp; omega

/-- `bound b s t` stays in every fragment that has `any` and `never`. -/
theorem Built.bound {p : Node → Prop} (hany : p (.con "Any" 0)) (hnever : p (.con "Never" 0))
    (b : Bound) (hs : s.Built p) (ht : t.Built p) : (bound b s t).Built p := by
  refine bound_induction (P := fun s t r ↦ s.Built p → t.Built p → r.Built p) (fun _ _ h _ ↦ h)
    (fun _ _ _ h ↦ h) (fun b _ _ _ _ ↦ ?_) (fun names s t r ih hs ht ↦ ?_)
    (fun tag ps qs rs hlen ih hs ht ↦ ?_) b s t hs ht
  · cases b
    · exact built_con.2 ⟨hnever, nofun⟩
    · exact built_con.2 ⟨hany, nofun⟩
  · rw [built_all] at hs ht ⊢
    exact ⟨hs.1, ih hs.2 ht.2⟩
  · rw [built_con] at hs ht ⊢
    refine ⟨hlen ▸ hs.1, fun r hr ↦ ?_⟩
    obtain ⟨p, hp, q, hq, h⟩ := ih r hr
    exact h (hs.2 p hp) (ht.2 q hq)

/-- `bound b s t` has no variables but those of `s` and `t`. -/
theorem mem_freeVars_bound {b : Bound} {x : String} (h : x ∈ (bound b s t).freeVars) :
    x ∈ s.freeVars ∨ x ∈ t.freeVars := by
  refine bound_induction (P := fun s t r ↦ x ∈ r.freeVars → x ∈ s.freeVars ∨ x ∈ t.freeVars)
    (fun _ _ ↦ .inl) (fun _ _ ↦ .inr) (fun b _ _ h ↦ ?_) (fun names s t r ih h ↦ ?_)
    (fun tag ps qs rs _ ih h ↦ ?_) b s t h
  · cases b <;> simp [Bound.extreme, never, any] at h
  · simp only [freeVars_all, List.mem_filter] at h ⊢
    exact (ih h.1).imp (⟨·, h.2⟩) (⟨·, h.2⟩)
  · simp only [freeVars_con, List.mem_flatMap] at h ⊢
    obtain ⟨r, hr, hx⟩ := h
    obtain ⟨p, hp, q, hq, hpq⟩ := ih r hr
    exact (hpq hx).imp (⟨p, hp, ·⟩) (⟨q, hq, ·⟩)

/-! ## On which side a bound is -/

/-- `bound b s t` is on the side `b` of both `s` and `t`. -/
theorem holds_bound (b : Bound) (s t : Ty) : b.Holds (bound b s t) s ∧ b.Holds (bound b s t) t := by
  unfold bound
  split
  · rename_i h
    exact ⟨holds_of_isUntyped b h s, holds_of_isUntyped b h t⟩
  split
  · rename_i h
    exact ⟨holds_of_isUntyped b h s, holds_of_isUntyped b h t⟩
  split
  · rename_i h
    exact holds_ofSubtypes b h
  split
  · rename_i h
    exact (holds_ofSubtypes b h).symm
  split
  · rename_i names body names' body' _ _ _ _
    split
    · rename_i hnames
      subst hnames
      have hbody := holds_bound b body body'
      exact ⟨holds_all hbody.1, holds_all hbody.2⟩
    · exact holds_extreme b _ _
  · rename_i tag ps tag' qs _ _ _ _
    split
    · rename_i htag
      obtain ⟨rfl, hlen⟩ := htag
      split
      · rename_i rs hrs
        obtain ⟨hlen', hpos⟩ := bounds_eq_some hlen (le_length_ofTag _ _) hrs
        -- Every position holds a bound of the parameters there.
        have hbound : ∀ (i : Nat) (v : Variance) (p q r : Ty),
            (Variance.ofTag tag ps.length)[i]? = some v → ps[i]? = some p → qs[i]? = some q →
            rs[i]? = some r → v = .covariant ∧ b.Holds r p ∧ b.Holds r q ∨
              v = .contravariant ∧ b.opposite.Holds r p ∧ b.opposite.Holds r q := by
          intro i v p q r hv hp hq hr
          have hpmem := List.mem_of_getElem? hp
          have hqmem := List.mem_of_getElem? hq
          rcases hpos i v p q r hv hp hq hr with ⟨rfl, rfl⟩ | ⟨rfl, rfl⟩
          · exact .inl ⟨rfl, holds_bound b p q⟩
          · exact .inr ⟨rfl, holds_bound b.opposite p q⟩
        refine ⟨holds_con hlen' fun i v p r hv hp hr ↦ ?_,
          holds_con (hlen'.trans hlen) fun i v q r hv hq hr ↦ ?_⟩
        · obtain ⟨q, hq⟩ := exists_getElem?_eq_some (Nat.le_of_eq hlen) hp
          exact (hbound i v p q r hv hp hq hr).imp (And.imp_right (·.1)) (And.imp_right (·.1))
        · obtain ⟨p, hp⟩ := exists_getElem?_eq_some (Nat.le_of_eq hlen.symm) hq
          exact (hbound i v p q r (hlen ▸ hv) hp hq hr).imp (And.imp_right (·.2))
            (And.imp_right (·.2))
      · exact holds_extreme b _ _
    · exact holds_extreme b _ _
  · exact holds_extreme b _ _
termination_by sizeOf s + sizeOf t
decreasing_by
  all_goals subst_vars
  · simp; omega
  all_goals
    have := List.sizeOf_lt_of_mem hpmem
    have := List.sizeOf_lt_of_mem hqmem
    simp; omega

theorem Plain.bound (b : Bound) (hs : s.Plain) (ht : t.Plain) : (bound b s t).Plain :=
  Built.bound (by decide) (by decide) b hs ht

end Ty

end SchemeTyping
