import SchemeTyping.Proofs.Ty.Bounds

/-!
# Where meets and joins are the best bounds

## What is here

* `Ty.Tidy` — a fragment of the types without what has bounds that `bound` does not look for.  A
  variadic function is below functions of several arities; `Empty` is below a `List` with any number
  of parameters; and both `Empty` and `Null` are below every list type, so that only one of the two
  may occur.
* `holds_bound_of_holds` — for tidy types, every tidy type on the side `b` of both is on that side
  of `bound b s t`.
* `meet_join_bounds` — both halves for `meet` and `join`.
* `bound_comm`, `meet_join_comm` — the order of the two types does not matter.  This needs less: the
  types are `Proper`, which is to say without the gradual type and with bare extreme types.
-/

set_option autoImplicit false

namespace SchemeTyping

open Ty

variable {s t c : Ty} {ps qs rs cs : List Ty} {tag tag' absent : String} {vs : List Variance}
  {b : Bound}

namespace Ty

/-- The tags of the constructors that have no parameters in a well-formed type. -/
def bareTags : List String := ["Any", "Never", "Integer", "Number", "Empty", "Null"]

/-- A node of a tidy type: not `?` and not `absent`, a `List` with one parameter or a bare tag
without parameters, and no variadic function. -/
def Node.Tidy (absent : String) : Node → Prop
  | .con tag n => tag ≠ "?" ∧ tag ≠ absent ∧ (tag = "List" → n = 1) ∧ (tag ∈ bareTags → n = 0)
  | .variadic _ => False
  | _ => True

instance (absent : String) : DecidablePred (Node.Tidy absent)
  | .con _ _ => inferInstanceAs (Decidable (_ ∧ _))
  | .variadic _ => inferInstanceAs (Decidable False)
  | .var | .unknown | .all => inferInstanceAs (Decidable True)

/-- A type for which `bound` finds the best bounds.  One of the two tags below lists is `absent`. -/
def Tidy (absent : String) (t : Ty) : Prop := t.Built (Node.Tidy absent)

instance (absent : String) : DecidablePred (Tidy absent) := fun t ↦
  inferInstanceAs (Decidable (t.Built (Node.Tidy absent)))

theorem Tidy.static (h : t.Tidy absent) : t.Static :=
  Built.mono h fun n hn ↦ by
    cases n with
    | con tag k => simpa [Node.tag?] using hn.1
    | _ => simp [Node.tag?]

theorem Tidy.proper (h : t.Tidy absent) : t.Proper :=
  Built.mono h fun n hn ↦ by
    cases n with
    | con tag k => exact ⟨hn.1, fun htag ↦ hn.2.2.2 (by rcases htag with rfl | rfl <;> decide)⟩
    | _ => trivial

theorem Tidy.eq_nil (h : (con tag ps).Tidy absent) (htag : tag ∈ bareTags) : ps = [] :=
  List.length_eq_zero_iff.1 ((built_con.1 h).1.2.2.2 htag)

theorem Tidy.of_mem (h : (con tag ps).Tidy absent) {p : Ty} (hp : p ∈ ps) : p.Tidy absent :=
  (built_con.1 h).2 p hp

/-! ## Heads -/

/-- The constructor of a type with all its data but the parameters. -/
inductive Head
  | var (name : String)
  | unknown (id : String)
  | con (tag : String) (arity : Nat)
  | variadic (min max : Option Int) (arity : Nat)
  | all (bound : List String)
  deriving DecidableEq, Repr

/-- The head of a type. -/
def head : Ty → Head
  | .var name => .var name
  | .unknown id => .unknown id
  | .con tag ps => .con tag ps.length
  | .variadic min max ps => .variadic min max ps.length
  | .all bound _ => .all bound

/-- Two constructors that are related by `nominal`, whatever their parameters. -/
inductive NamedBelow : Ty → Ty → Prop
  | intro {tag tag' : String} {ps qs : List Ty} (h : nominal tag tag' = true) :
    NamedBelow (.con tag ps) (.con tag' qs)

theorem NamedBelow.isSubtype (h : NamedBelow s t) : s.isSubtype t = true := by
  cases h with
  | intro h => exact isSubtype_iff_below.2 (.nominal h)

/-- The ways in which a static type `s` is below a static type `t`: `s` is a `Never`, `t` is an
`Any`, they are related by name, they have one head, or `s` is variadic and `t` is a function. -/
theorem head_cases_of_isSubtype (hs : s.Static) (ht : t.Static) (h : s.isSubtype t = true) :
    s.hasTag "Never" = true ∨ t.hasTag "Any" = true ∨ NamedBelow s t ∨ s.head = t.head ∨
      ∃ min max ps qs, s = .variadic min max ps ∧ t = .con "Function" qs := by
  cases isSubtype_iff_below.1 h with
  | untypedLeft h => exact absurd h hs.not_isUntyped
  | untypedRight h => exact absurd h ht.not_isUntyped
  | refl => exact .inr (.inr (.inr (.inl rfl)))
  | never h => exact .inl h
  | any h => exact .inr (.inl h)
  | all => exact .inr (.inr (.inr (.inl rfl)))
  | nominal hname => exact .inr (.inr (.inl ⟨hname⟩))
  | con hlen => exact .inr (.inr (.inr (.inl (by rw [head, head, hlen]))))
  | variadic => exact .inr (.inr (.inr (.inr ⟨_, _, _, _, rfl, rfl⟩)))

/-- As `head_cases_of_isSubtype`, for tidy types: none of them is variadic. -/
theorem head_eq_of_isSubtype (hs : s.Tidy absent) (ht : t.Tidy absent) (h : s.isSubtype t = true) :
    s.hasTag "Never" = true ∨ t.hasTag "Any" = true ∨ NamedBelow s t ∨ s.head = t.head := by
  rcases head_cases_of_isSubtype hs.static ht.static h
    with h | h | h | h | ⟨min, max, ps, qs, rfl, -⟩
  · exact .inl h
  · exact .inr (.inl h)
  · exact .inr (.inr (.inl h))
  · exact .inr (.inr (.inr h))
  · simp [Tidy, Node.Tidy] at hs

/-- In tidy types, two constructors with one tag that is `List` or bare have one head. -/
theorem Tidy.head_eq (hs : (con tag ps).Tidy absent) (ht : (con tag' qs).Tidy absent)
    (htag : tag = "List" ∨ tag ∈ bareTags) (h : tag = tag') :
    (con tag ps).head = (con tag' qs).head := by
  subst h
  obtain ⟨-, -, hlist, hbare⟩ := (built_con.1 hs).1
  obtain ⟨-, -, hlist', hbare'⟩ := (built_con.1 ht).1
  rw [head, head]
  rcases htag with rfl | htag
  · rw [hlist rfl, hlist' rfl]
  · rw [hbare htag, hbare' htag]

theorem nominal_cases (h : nominal tag tag' = true) :
    tag = "Integer" ∧ tag' = "Number" ∨ (tag = "Empty" ∨ tag = "Null") ∧ tag' = "List" := by
  simp only [nominal, Bool.or_eq_true, Bool.and_eq_true, beq_iff_eq] at h
  tauto

theorem NamedBelow.head_eq_right (hs : s.Tidy absent) (ht : t.Tidy absent) (h : NamedBelow c s)
    (h' : NamedBelow c t) : s.head = t.head := by
  cases h with | intro h =>
  cases h' with | intro h' =>
  rcases nominal_cases h with ⟨rfl, rfl⟩ | ⟨htag, rfl⟩
  · refine hs.head_eq ht (by decide) ?_
    simpa [eq_comm] using nominal_cases h'
  · refine hs.head_eq ht (.inl rfl) ?_
    rcases nominal_cases h' with ⟨rfl, -⟩ | ⟨-, h'⟩
    · simp at htag
    · exact h'.symm

/-- Tidy types that are below `c` by name have one head, because `Empty` and `Null` do not both
occur. -/
theorem NamedBelow.head_eq_left (habsent : absent = "Empty" ∨ absent = "Null") (hs : s.Tidy absent)
    (ht : t.Tidy absent) (h : NamedBelow s c) (h' : NamedBelow t c) : s.head = t.head := by
  cases h with | @intro tag _ _ _ h =>
  cases h' with | intro h' =>
  have hne := (built_con.1 hs).1.2.1
  have hne' := (built_con.1 ht).1.2.1
  rcases nominal_cases h with ⟨rfl, rfl⟩ | ⟨htag, rfl⟩
  · refine hs.head_eq ht (by decide) ?_
    simpa [eq_comm] using nominal_cases h'
  · obtain ⟨htag', -⟩ : _ ∧ _ := (nominal_cases h').resolve_left (by simp)
    have hbare : tag ∈ bareTags := by rcases htag with rfl | rfl <;> decide
    refine hs.head_eq ht (.inr hbare) ?_
    rcases habsent with rfl | rfl
    · exact (htag.resolve_left hne).trans (htag'.resolve_left hne').symm
    · exact (htag.resolve_right hne).trans (htag'.resolve_right hne').symm

theorem NamedBelow.congr_left (hhead : s.head = c.head) (h : NamedBelow s t) : NamedBelow c t := by
  cases h with | intro h =>
  cases c <;> simp only [head, reduceCtorEq, Head.con.injEq] at hhead
  obtain ⟨rfl, -⟩ := hhead
  exact .intro h

theorem NamedBelow.congr_right (hhead : t.head = c.head) (h : NamedBelow s t) : NamedBelow s c := by
  cases h with | intro h =>
  cases c <;> simp only [head, reduceCtorEq, Head.con.injEq] at hhead
  obtain ⟨rfl, -⟩ := hhead
  exact .intro h

/-! ## The types on one side of a constructor -/

end Ty

/-- A parameter `r` of a bound and a parameter `p` of a type are related as the variance asks. -/
def Bound.HoldsAt (b : Bound) : Variance → Ty → Ty → Prop
  | .covariant, r, p => b.Holds r p
  | .contravariant, r, p => b.opposite.Holds r p
  | .invariant, r, p => r = p

/-- `r` is on the side `b` of `t` by name. -/
def Bound.Named : Bound → Ty → Ty → Prop
  | .lower, r, t => NamedBelow r t
  | .upper, r, t => NamedBelow t r

namespace Ty

theorem holds_of_named (h : b.Named c s) : b.Holds c s := by
  cases b <;> exact h.isSubtype

theorem named_congr (h : b.Named c (.con tag ps)) : b.Named c (.con tag qs) := by
  cases b
  all_goals
    cases h with | intro h =>
    exact .intro h

/-- A constructor that is related to another by name is a `List` or has a bare tag. -/
theorem tag_of_named (h : b.Named c (.con tag ps)) : tag = "List" ∨ tag ∈ bareTags := by
  cases b
  all_goals
    cases h with | intro h =>
    rcases nominal_cases h with ⟨rfl, rfl⟩ | ⟨rfl | rfl, rfl⟩ <;> decide

/-- The tidy types `c` on the side `b` of `con tag ps`: an extreme type, one that is related by
name, or `con tag cs` with related parameters; unless every type is on that side of `con tag ps`. -/
theorem holds_con_cases (hs : (con tag ps).Tidy absent) (hc : c.Tidy absent)
    (h : b.Holds c (.con tag ps)) :
    (∀ u, b.Holds c u) ∨ (∀ u, b.Holds u (.con tag ps)) ∨ b.Named c (.con tag ps) ∨
      ∃ cs, c = .con tag cs ∧ cs.length = ps.length ∧ ∀ (i : Nat) (v : Variance) (p r : Ty),
        (Variance.ofTag tag ps.length)[i]? = some v → ps[i]? = some p → cs[i]? = some r →
          b.HoldsAt v r p := by
  have hrefl : ∀ (b : Bound) (v : Variance) (p : Ty), b.HoldsAt v p p := fun b v p ↦ by
    cases b <;> cases v <;> first | exact isSubtype_refl p | rfl
  cases b with
  | lower =>
    cases isSubtype_iff_below.1 h with
    | untypedLeft h => exact absurd h hc.static.not_isUntyped
    | untypedRight h => exact absurd h hs.static.not_isUntyped
    | refl => exact .inr (.inr (.inr ⟨ps, rfl, rfl, fun i v p r _ hp hr ↦ by simp_all⟩))
    | never h => exact .inl fun u ↦ isSubtype_iff_below.2 (.never h)
    | any h => exact .inr (.inl fun u ↦ isSubtype_iff_below.2 (.any h))
    | nominal hname => exact .inr (.inr (.inl (.intro hname)))
    | con hlen hps =>
      refine .inr (.inr (.inr ⟨_, rfl, hlen, fun i v p r hv hp hr ↦ ?_⟩))
      have hrel := hps i v r p (hlen ▸ hv) hr hp
      cases v <;> exact hrel
    | variadic => simp [Tidy, Node.Tidy] at hc
  | upper =>
    cases isSubtype_iff_below.1 h with
    | untypedLeft h => exact absurd h hs.static.not_isUntyped
    | untypedRight h => exact absurd h hc.static.not_isUntyped
    | refl => exact .inr (.inr (.inr ⟨ps, rfl, rfl, fun i v p r _ hp hr ↦ by simp_all⟩))
    | never h => exact .inr (.inl fun u ↦ isSubtype_iff_below.2 (.never h))
    | any h => exact .inl fun u ↦ isSubtype_iff_below.2 (.any h)
    | nominal hname => exact .inr (.inr (.inl (.intro hname)))
    | con hlen hps =>
      refine .inr (.inr (.inr ⟨_, rfl, hlen.symm, fun i v p r hv hp hr ↦ ?_⟩))
      have hrel := hps i v p r hv hp hr
      cases v <;> first | exact hrel | exact Eq.symm hrel

/-- The tidy types on the side `b` of `all names s`: an extreme type, or `all names r` with
`b.Holds r s`. -/
theorem holds_all_cases {names : List String} (hc : c.Tidy absent) (hs : (all names s).Tidy absent)
    (h : b.Holds c (.all names s)) : (∀ u, b.Holds c u) ∨ ∃ r, c = .all names r ∧ b.Holds r s := by
  cases b with
  | lower =>
    cases isSubtype_iff_below.1 h with
    | untypedLeft h => exact absurd h hc.static.not_isUntyped
    | untypedRight h => exact absurd h hs.static.not_isUntyped
    | refl => exact .inr ⟨s, rfl, isSubtype_refl s⟩
    | never h => exact .inl fun u ↦ isSubtype_iff_below.2 (.never h)
    | any h => cases h
    | all hbody => exact .inr ⟨_, rfl, hbody⟩
  | upper =>
    cases isSubtype_iff_below.1 h with
    | untypedLeft h => exact absurd h hs.static.not_isUntyped
    | untypedRight h => exact absurd h hc.static.not_isUntyped
    | refl => exact .inr ⟨s, rfl, isSubtype_refl s⟩
    | never h => cases h
    | any h => exact .inl fun u ↦ isSubtype_iff_below.2 (.any h)
    | all hbody => exact .inr ⟨_, rfl, hbody⟩

/-- `bounds` gives nothing only at an invariant position. -/
theorem exists_invariant_of_bounds_eq_none (h : bounds b vs ps qs = none) :
    ∃ i, vs[i]? = some .invariant ∧ i < ps.length ∧ i < qs.length := by
  induction vs generalizing ps qs with
  | nil => simp [bounds] at h
  | cons v vs ih =>
    rcases ps with _ | ⟨p, ps⟩
    · simp [bounds] at h
    rcases qs with _ | ⟨q, qs⟩
    · simp [bounds] at h
    have hrest : v ≠ .invariant → ∃ i, (v :: vs)[i]? = some .invariant ∧ i < (p :: ps).length ∧
        i < (q :: qs).length := fun hv ↦ by
      have hnone : bounds b vs ps qs = none := by cases v <;> simp_all [bounds]
      obtain ⟨i, hi, hp, hq⟩ := ih hnone
      exact ⟨i + 1, hi, by simpa using hp, by simpa using hq⟩
    cases v with
    | invariant => exact ⟨0, rfl, by simp, by simp⟩
    | covariant => exact hrest (by decide)
    | contravariant => exact hrest (by decide)

/-- If one parameter of a constructor is invariant, all of them are. -/
theorem ofTag_eq_replicate {n i : Nat} (h : (Variance.ofTag tag n)[i]? = some .invariant) :
    Variance.ofTag tag n = List.replicate n .invariant := by
  have hmem := List.mem_of_getElem? h
  unfold Variance.ofTag at hmem ⊢
  split at hmem
  · simp at hmem
  split at hmem
  · simp at hmem
  · simp_all

/-! ## How a bound is computed for types that are not related -/

theorem bound_of_head_ne (hs : s.Static) (ht : t.Static) (hst : ¬ s.isSubtype t = true)
    (hts : ¬ t.isSubtype s = true) (hne : s.head ≠ t.head) : bound b s t = b.extreme := by
  unfold bound
  rw [if_neg hs.not_isUntyped, if_neg ht.not_isUntyped, if_neg hst, if_neg hts]
  split
  · rw [if_neg fun hnames ↦ hne (congrArg Head.all hnames)]
  · rw [if_neg fun h ↦ hne (by rw [head, head, h.1, h.2])]
  · rfl

theorem bound_all_all {names : List String} (hs : (all names s).Static) (ht : (all names t).Static)
    (hst : ¬ (all names s).isSubtype (.all names t) = true)
    (hts : ¬ (all names t).isSubtype (.all names s) = true) :
    bound b (.all names s) (.all names t) = .all names (bound b s t) := by
  rw [bound, if_neg hs.not_isUntyped, if_neg ht.not_isUntyped, if_neg hst, if_neg hts]
  simp

theorem bound_con_con (hs : (con tag ps).Static) (ht : (con tag qs).Static)
    (hst : ¬ (con tag ps).isSubtype (.con tag qs) = true)
    (hts : ¬ (con tag qs).isSubtype (.con tag ps) = true) (hlen : ps.length = qs.length) :
    bound b (.con tag ps) (.con tag qs) =
      ((bounds b (Variance.ofTag tag ps.length) ps qs).map (Ty.con tag)).getD b.extreme := by
  rw [bound, if_neg hs.not_isUntyped, if_neg ht.not_isUntyped, if_neg hst, if_neg hts]
  rw [if_pos ⟨rfl, hlen⟩]
  cases bounds b (Variance.ofTag tag ps.length) ps qs <;> rfl

/-! ## The best bound -/

section Best

variable (habsent : absent = "Empty" ∨ absent = "Null")

include habsent in
theorem tidy_never : never.Tidy absent := by rcases habsent with rfl | rfl <;> decide

include habsent in
theorem tidy_any : any.Tidy absent := by rcases habsent with rfl | rfl <;> decide

include habsent in
theorem Tidy.bound (b : Bound) (hs : s.Tidy absent) (ht : t.Tidy absent) :
    (bound b s t).Tidy absent :=
  Built.bound (by rcases habsent with rfl | rfl <;> decide)
    (by rcases habsent with rfl | rfl <;> decide) b hs ht

include habsent in
/-- Two unrelated tidy types with different heads have only an extreme type on the side `b` of
both. -/
theorem holds_extreme_of_head_ne (hs : s.Tidy absent) (ht : t.Tidy absent) (hc : c.Tidy absent)
    (hst : ¬ s.isSubtype t = true) (hts : ¬ t.isSubtype s = true) (hne : s.head ≠ t.head)
    (h : b.Holds c s) (h' : b.Holds c t) : b.Holds c b.extreme := by
  cases b with
  | lower =>
    by_cases hnever : c.hasTag "Never" = true
    · exact isSubtype_iff_below.2 (.never hnever)
    have hlink : ∀ u v : Ty, u.Tidy absent → c.isSubtype u = true → ¬ v.isSubtype u = true →
        NamedBelow c u ∨ c.head = u.head := fun u v hu h hv ↦
      ((head_eq_of_isSubtype hc hu h).resolve_left hnever).resolve_left
        fun hany ↦ hv (isSubtype_iff_below.2 (.any hany))
    rcases hlink s t hs h hts, hlink t s ht h' hst with ⟨h | h, h' | h'⟩
    · exact absurd (h.head_eq_right hs ht h') hne
    · exact absurd (h.congr_left h').isSubtype hts
    · exact absurd (h'.congr_left h).isSubtype hst
    · exact absurd (h.symm.trans h') hne
  | upper =>
    by_cases hany : c.hasTag "Any" = true
    · exact isSubtype_iff_below.2 (.any hany)
    have hlink : ∀ u v : Ty, u.Tidy absent → u.isSubtype c = true → ¬ u.isSubtype v = true →
        NamedBelow u c ∨ u.head = c.head := fun u v hu h hv ↦
      ((head_eq_of_isSubtype hu hc h).resolve_left
        fun hnever ↦ hv (isSubtype_iff_below.2 (.never hnever))).resolve_left hany
    rcases hlink s t hs h hst, hlink t s ht h' hts with ⟨h | h, h' | h'⟩
    · exact absurd (h.head_eq_left habsent hs ht h') hne
    · exact absurd (h.congr_right h'.symm).isSubtype hst
    · exact absurd (h'.congr_right h.symm).isSubtype hts
    · exact absurd (h.trans h'.symm) hne

/-- A constructor that is related to another by name has no invariant parameter, so `bounds`
succeeds. -/
theorem bounds_ne_none_of_named (qs : List Ty) (hs : (con tag ps).Tidy absent)
    (h : b.Named c (.con tag ps)) :
    bounds b (Variance.ofTag tag ps.length) ps qs ≠ none := fun hnone ↦ by
  obtain ⟨i, hi, hps, -⟩ := exists_invariant_of_bounds_eq_none hnone
  rcases tag_of_named h with rfl | htag
  · simp [Variance.ofTag, List.getElem?_replicate] at hi
  · simp [hs.eq_nil htag] at hps

/-- If one parameter is invariant, `con tag cs` is on a side of `con tag ps` only if `cs = ps`. -/
theorem eq_of_invariant {i : Nat} (hi : (Variance.ofTag tag ps.length)[i]? = some .invariant)
    (hlen : cs.length = ps.length)
    (hrel : ∀ (i : Nat) (v : Variance) (p r : Ty), (Variance.ofTag tag ps.length)[i]? = some v →
      ps[i]? = some p → cs[i]? = some r → b.HoldsAt v r p) : cs = ps := by
  rw [ofTag_eq_replicate hi] at hrel
  refine List.ext_getElem hlen fun j hj hj' ↦ ?_
  exact hrel j .invariant _ _ (by simp [hj']) (List.getElem?_eq_getElem hj')
    (List.getElem?_eq_getElem hj)

include habsent in
/-- For tidy types, `bound b s t` is the best bound: a tidy `c` on the side `b` of both `s` and `t`
is on that side of `bound b s t`. -/
theorem holds_bound_of_holds (b : Bound) {s t c : Ty} (hs : s.Tidy absent) (ht : t.Tidy absent)
    (hc : c.Tidy absent) (h : b.Holds c s) (h' : b.Holds c t) : b.Holds c (bound b s t) := by
  by_cases hst : s.isSubtype t = true
  · unfold bound
    rw [if_neg hs.static.not_isUntyped, if_neg ht.static.not_isUntyped, if_pos hst]
    cases b
    · exact h
    · exact h'
  by_cases hts : t.isSubtype s = true
  · unfold bound
    rw [if_neg hs.static.not_isUntyped, if_neg ht.static.not_isUntyped, if_neg hst, if_pos hts]
    cases b
    · exact h'
    · exact h
  by_cases hhead : s.head = t.head
  swap
  · rw [bound_of_head_ne hs.static ht.static hst hts hhead]
    exact holds_extreme_of_head_ne habsent hs ht hc hst hts hhead h h'
  cases s with
  | var | unknown =>
    cases t <;> simp only [head, reduceCtorEq, Head.var.injEq, Head.unknown.injEq] at hhead
    exact absurd (isSubtype_refl _) (hhead ▸ hst)
  | variadic => simp [Tidy, Node.Tidy] at hs
  | all names s =>
    cases t <;> simp only [head, reduceCtorEq, Head.all.injEq] at hhead
    rename_i names' t
    subst hhead
    rw [bound_all_all hs.static ht.static hst hts]
    rcases holds_all_cases hc hs h with hall | ⟨r, rfl, hr⟩
    · exact hall _
    obtain hall | ⟨r', heq, hr'⟩ := holds_all_cases hc ht h'
    · exact hall _
    obtain ⟨-, rfl⟩ := Ty.all.inj heq
    exact holds_all (holds_bound_of_holds b (built_all.1 hs).2 (built_all.1 ht).2
      (built_all.1 hc).2 hr hr')
  | con tag ps =>
    cases t <;> simp only [head, reduceCtorEq, Head.con.injEq] at hhead
    rename_i tag' qs
    obtain ⟨rfl, hlen⟩ := hhead
    rw [bound_con_con hs.static ht.static hst hts hlen]
    -- The parameters of a type on the right side of both types are bounds of their parameters.
    rcases holds_con_cases hs hc h with hall | hall | hname | ⟨cs, rfl, hcs, hrel⟩
    · exact hall _
    · cases b
      · exact absurd (hall _) hts
      · exact absurd (hall _) hst
    · obtain ⟨rs, hrs⟩ := Option.ne_none_iff_exists'.1 (bounds_ne_none_of_named qs hs hname)
      rw [hrs]
      exact holds_of_named (named_congr hname)
    rcases holds_con_cases ht hc h' with hall | hall | hname | ⟨cs, heq, hcs', hrel'⟩
    · exact hall _
    · cases b
      · exact absurd (hall _) hst
      · exact absurd (hall _) hts
    · obtain ⟨rs, hrs⟩ := Option.ne_none_iff_exists'.1
        (bounds_ne_none_of_named qs hs (named_congr hname))
      rw [hrs]
      exact holds_of_named (named_congr hname)
    obtain ⟨-, rfl⟩ := Ty.con.inj heq
    cases hrs : bounds b (Variance.ofTag tag ps.length) ps qs with
    | none =>
      obtain ⟨i, hi, -, -⟩ := exists_invariant_of_bounds_eq_none hrs
      have hps := eq_of_invariant hi hcs hrel
      have hqs := eq_of_invariant (hlen ▸ hi) hcs' hrel'
      exact absurd (isSubtype_refl _) (hqs ▸ hps ▸ hst)
    | some rs =>
      obtain ⟨hlen', hpos⟩ := bounds_eq_some hlen (le_length_ofTag _ _) hrs
      refine holds_con (hcs.trans hlen'.symm) fun i v r c hv hr hc' ↦ ?_
      obtain ⟨p, hp⟩ := exists_getElem?_eq_some (Nat.le_of_eq hlen') hr
      obtain ⟨q, hq⟩ := exists_getElem?_eq_some (Nat.le_of_eq hlen) hp
      rw [hlen'] at hv
      have hpmem := List.mem_of_getElem? hp
      have hqmem := List.mem_of_getElem? hq
      have hcmem := List.mem_of_getElem? hc'
      have hcp := hrel i v p c hv hp hc'
      have hcq := hrel' i v q c (hlen ▸ hv) hq hc'
      rcases hpos i v p q r hv hp hq hr with ⟨rfl, rfl⟩ | ⟨rfl, rfl⟩
      · exact .inl ⟨rfl, holds_bound_of_holds b (hs.of_mem hpmem) (ht.of_mem hqmem)
          (hc.of_mem hcmem) hcp hcq⟩
      · exact .inr ⟨rfl, holds_bound_of_holds b.opposite (hs.of_mem hpmem) (ht.of_mem hqmem)
          (hc.of_mem hcmem) hcp hcq⟩
termination_by sizeOf s + sizeOf t
decreasing_by
  all_goals subst_vars
  case _ | _ =>
    have := List.sizeOf_lt_of_mem hpmem
    have := List.sizeOf_lt_of_mem hqmem
    simp; omega
  · simp; omega

end Best

/-- **Meets and joins are bounds, and the best ones of tidy types.**  `s.meet t` is below both types
and `s.join t` above both, whatever the types are made of.  For `Tidy` types, every tidy type below
both is below `s.meet t` and every tidy type above both is above `s.join t`. -/
theorem meet_join_bounds (s t : Ty) :
    ((s.meet t).isSubtype s = true ∧ (s.meet t).isSubtype t = true ∧
      s.isSubtype (s.join t) = true ∧ t.isSubtype (s.join t) = true) ∧
    ∀ (absent : String) (c : Ty), absent = "Empty" ∨ absent = "Null" → s.Tidy absent →
      t.Tidy absent → c.Tidy absent →
        (c.isSubtype s = true → c.isSubtype t = true → c.isSubtype (s.meet t) = true) ∧
        (s.isSubtype c = true → t.isSubtype c = true → (s.join t).isSubtype c = true) := by
  obtain ⟨hmeet, hmeet'⟩ := holds_bound .lower s t
  obtain ⟨hjoin, hjoin'⟩ := holds_bound .upper s t
  refine ⟨⟨hmeet, hmeet', hjoin, hjoin'⟩, fun absent c habsent hs ht hc ↦ ⟨?_, ?_⟩⟩
  · exact holds_bound_of_holds habsent .lower hs ht hc
  · exact holds_bound_of_holds habsent .upper hs ht hc

/-- `(Function (Function Number Integer) (List String))` and
`(Function (Function String Number) Null)`, of which neither is below the other: a lower and an
upper bound that differ from the meet and the join in a nested argument are below the one and above
the other. -/
theorem meet_join_bounds_function :
    (function [function [never, any], null]).isSubtype
        ((function [function [number, integer], list string]).meet
          (function [function [string, number], null])) = true ∧
      ((function [function [number, integer], list string]).join
        (function [function [string, number], null])).isSubtype
          (function [function [any, never], list any]) = true := by
  have hbest := (meet_join_bounds (function [function [number, integer], list string])
    (function [function [string, number], null])).2 "Empty"
  have hlower := hbest (function [function [never, any], null]) (.inl rfl) (by decide +kernel)
    (by decide +kernel) (by decide +kernel)
  have hupper := hbest (function [function [any, never], list any]) (.inl rfl) (by decide +kernel)
    (by decide +kernel) (by decide +kernel)
  exact ⟨hlower.1 (by decide +kernel) (by decide +kernel),
    hupper.2 (by decide +kernel) (by decide +kernel)⟩

/-! ## The order of the two types -/

theorem bound_of_isSubtype (hs : s.Static) (ht : t.Static) (hst : s.isSubtype t = true) :
    bound b s t = b.ofSubtypes s t := by
  unfold bound
  rw [if_neg hs.not_isUntyped, if_neg ht.not_isUntyped, if_pos hst]

theorem bound_of_isSubtype_swap (hs : s.Static) (ht : t.Static) (hst : ¬ s.isSubtype t = true)
    (hts : t.isSubtype s = true) : bound b s t = b.ofSubtypes t s := by
  unfold bound
  rw [if_neg hs.not_isUntyped, if_neg ht.not_isUntyped, if_neg hst, if_pos hts]

/-- `bounds` does not depend on the order of the two lists if `bound` does not on that of their
members. -/
theorem bounds_comm (h : ∀ (b : Bound), ∀ p ∈ ps, ∀ q ∈ qs, bound b p q = bound b q p) :
    bounds b vs ps qs = bounds b vs qs ps := by
  induction vs generalizing ps qs with
  | nil => simp [bounds]
  | cons v vs ih =>
    cases ps with
    | nil => cases qs <;> simp [bounds]
    | cons p ps =>
      cases qs with
      | nil => simp [bounds]
      | cons q qs =>
        have hhead : ∀ b : Bound, bound b p q = bound b q p := fun b ↦
          h b p List.mem_cons_self q List.mem_cons_self
        have hrest :=
          ih fun b p hp q hq ↦ h b p (List.mem_cons_of_mem _ hp) q (List.mem_cons_of_mem _ hq)
        cases v with
        | covariant => rw [bounds, bounds, hrest, hhead]
        | contravariant => rw [bounds, bounds, hrest, hhead]
        | invariant => rw [bounds, bounds]

/-- `bound b s t` does not depend on the order of two proper types.  If one is below the other, both
orders give the same one, by antisymmetry; otherwise `bound` goes into the parameters or gives
up. -/
theorem bound_comm (b : Bound) {s t : Ty} (hs : s.Proper) (ht : t.Proper) :
    bound b s t = bound b t s := by
  by_cases hst : s.isSubtype t = true
  · by_cases hts : t.isSubtype s = true
    · rw [isSubtype_antisymm hs ht hst hts]
    · rw [bound_of_isSubtype hs.static ht.static hst,
        bound_of_isSubtype_swap ht.static hs.static hts hst]
  by_cases hts : t.isSubtype s = true
  · rw [bound_of_isSubtype ht.static hs.static hts,
      bound_of_isSubtype_swap hs.static ht.static hst hts]
  by_cases hhead : s.head = t.head
  swap
  · rw [bound_of_head_ne hs.static ht.static hst hts hhead,
      bound_of_head_ne ht.static hs.static hts hst (Ne.symm hhead)]
  cases s with
  | var | unknown =>
    cases t <;> simp only [head, reduceCtorEq, Head.var.injEq, Head.unknown.injEq] at hhead
    exact absurd (isSubtype_refl _) (hhead ▸ hst)
  | variadic =>
    cases t <;> simp only [head, reduceCtorEq] at hhead
    simp [bound, isUntyped, hasTag, Ty.tag?, hst, hts]
  | all names s =>
    cases t <;> simp only [head, reduceCtorEq, Head.all.injEq] at hhead
    rename_i names' t
    subst hhead
    rw [bound_all_all hs.static ht.static hst hts, bound_all_all ht.static hs.static hts hst,
      bound_comm b (built_all.1 hs).2 (built_all.1 ht).2]
  | con tag ps =>
    cases t <;> simp only [head, reduceCtorEq, Head.con.injEq] at hhead
    rename_i tag' qs
    obtain ⟨rfl, hlen⟩ := hhead
    rw [bound_con_con hs.static ht.static hst hts hlen,
      bound_con_con ht.static hs.static hts hst hlen.symm,
      hlen, bounds_comm fun b p hp q hq ↦ ?_]
    exact bound_comm b ((built_con.1 hs).2 p hp) ((built_con.1 ht).2 q hq)
termination_by sizeOf s + sizeOf t
decreasing_by
  all_goals subst_vars
  · have := List.sizeOf_lt_of_mem hp
    have := List.sizeOf_lt_of_mem hq
    simp; omega
  · simp; omega

/-- **Meets and joins do not depend on the order of the two types**, for all `Proper` types,
variadic and quantified ones included. -/
theorem meet_join_comm (s t : Ty) (hs : s.Proper) (ht : t.Proper) :
    s.meet t = t.meet s ∧ s.join t = t.join s :=
  ⟨bound_comm .lower hs ht, bound_comm .upper hs ht⟩

/-- `(All (#a) (Function (Function* #a Integer) (List Empty)))` and
`(All (#a) (Function (Function #a #a Number) (List Null)))`: the arguments are related one way
round, and the results are not. -/
theorem meet_join_comm_quantified :
    let s := Ty.all ["a"] (function [.variadic none none [.var "a", integer], list empty])
    let t := Ty.all ["a"] (function [function [.var "a", .var "a", number], list null])
    s.Proper ∧ t.Proper ∧ s.meet t = t.meet s ∧ s.join t = t.join s ∧
      s.join t = .all ["a"] (function [.variadic none none [.var "a", integer], list any]) := by
  intro s t
  have hs : s.Proper := by decide +kernel
  have ht : t.Proper := by decide +kernel
  obtain ⟨hmeet, hjoin⟩ := meet_join_comm s t hs ht
  exact ⟨hs, ht, hmeet, hjoin, by decide +kernel⟩

/-- `any` with and without a parameter are below each other, and `meet` gives the first one. -/
example : any.meet (.con "Any" [integer]) ≠ (Ty.con "Any" [integer]).meet any := by decide +kernel

end Ty

end SchemeTyping
