import SchemeTyping.Proofs.Ty.Bounds
import SchemeTyping.Proofs.Ty.Subst

/-!
# Elimination goes up and down

`t.eliminateUp names` and `t.eliminateDown names` are types without the names, above and below `t`.

## What is here

* `mem_freeVars_eliminate` — none of the names is left free.
* `variantIn`, `isSubtype_eliminate` — where the names occur in covariant and contravariant
  parameters only, the results are a supertype and a subtype of `t`.  An invariant parameter with
  one of the names is replaced as a whole, and then the results are on neither side.
* `eliminate_closest` — a type without the names is above `t` only if it is above
  `t.eliminateUp names`, and likewise below.  The parameters of a variadic function count as
  invariant here although it can be below a function by their variances, so the names must not occur
  there.
* `quantifiers` — the quantifiers in a type, for conditions on their variables.
-/

set_option autoImplicit false

namespace SchemeTyping.Ty

variable {names names' : List String} {t : Ty} {tag : String} {ps : List Ty} {min max : Option Int}
  {up : Bool} {vs : List Variance}

/-! ## Parameters -/

/-- Eliminates `names` from a parameter of the given variance. -/
def eliminateAt (names : List String) (up : Bool) : Variance → Ty → Ty
  | .covariant, t => t.eliminate names up
  | .contravariant, t => t.eliminate names (!up)
  | .invariant, t => t.eliminateFixed names

theorem eliminateList_eq_zipWith :
    eliminateList names up vs ps = List.zipWith (eliminateAt names up) vs ps := by
  induction vs generalizing ps with
  | nil => cases ps <;> rfl
  | cons v vs ih =>
    cases ps with
    | nil => rfl
    | cons p ps => cases v <;> rw [eliminateList, ih, List.zipWith_cons_cons] <;> rfl

@[simp] theorem eliminate_con : (con tag ps).eliminate names up =
    con tag (List.zipWith (eliminateAt names up) (Variance.ofTag tag ps.length) ps) := by
  rw [eliminate, eliminateList_eq_zipWith]

theorem zipWith_replicate_length {α β γ : Type} (f : α → β → γ) (a : α) (l : List β) :
    List.zipWith f (List.replicate l.length a) l = l.map (f a) := by
  induction l with
  | nil => rfl
  | cons b l ih =>
    rw [List.length_cons, List.replicate_succ, List.zipWith_cons_cons, ih, List.map_cons]

@[simp] theorem eliminate_variadic : (variadic min max ps).eliminate names up =
    variadic min max (ps.map (eliminateFixed names)) := by
  rw [eliminate, eliminateList_eq_zipWith, zipWith_replicate_length]
  rfl

theorem arguments_concat (args : List Ty) (r : Ty) : arguments (args ++ [r]) = args :=
  List.dropLast_concat

/-- Elimination from the arguments of a function goes the other way, from its result the same
way. -/
theorem eliminate_function (args : List Ty) (r : Ty) :
    (con "Function" (args ++ [r])).eliminate names up =
      con "Function" (args.map (eliminate names (!up)) ++ [r.eliminate names up]) := by
  have hvs : Variance.ofTag "Function" (args ++ [r]).length =
      List.replicate args.length .contravariant ++ [.covariant] := by
    simp [Variance.ofTag]
  rw [eliminate_con, hvs, List.zipWith_append (by simp), zipWith_replicate_length]
  rfl

theorem length_zipWith_ofTag (f : Variance → Ty → Ty) (tag : String) (ps : List Ty) :
    (List.zipWith f (Variance.ofTag tag ps.length) ps).length = ps.length := by
  rw [List.length_zipWith, Nat.min_eq_right (le_length_ofTag tag _)]

/-- A member of `List.zipWith f vs ps` is `f v p` for one of the parameters `p`. -/
theorem exists_of_mem_zipWith {f : Variance → Ty → Ty} {q : Ty} (h : q ∈ List.zipWith f vs ps) :
    ∃ v, ∃ p ∈ ps, q = f v p := by
  obtain ⟨i, hi, rfl⟩ := List.getElem_of_mem h
  rw [List.getElem_zipWith]
  exact ⟨_, _, List.getElem_mem _, rfl⟩

/-! ## Free variables and fragments -/

/-- `t.eliminateFixed names` has the free variables of `t` other than `names`, if any. -/
theorem mem_freeVars_eliminateFixed {x : String} (h : x ∈ (t.eliminateFixed names).freeVars) :
    x ∈ t.freeVars ∧ x ∉ names := by
  rw [eliminateFixed] at h
  split at h
  · simp [Ty.any] at h
  · rename_i hnone
    exact ⟨h, fun hx ↦ hnone (List.any_eq_true.2 ⟨x, h, by simpa using hx⟩)⟩

theorem mem_freeVars_eliminate {x : String} (h : x ∈ (t.eliminate names up).freeVars) :
    x ∈ t.freeVars ∧ x ∉ names := by
  induction t generalizing names up with
  | var name =>
    rw [eliminate] at h
    split at h
    · cases up <;> simp [Ty.any, Ty.never] at h
    · rename_i hname
      obtain rfl : x = name := by simpa using h
      exact ⟨by simp, by simpa using hname⟩
  | unknown id => simp [eliminate] at h
  | con tag ps ih =>
    rw [eliminate_con, freeVars_con, List.mem_flatMap] at h
    obtain ⟨q, hq, hx⟩ := h
    obtain ⟨v, p, hp, rfl⟩ := exists_of_mem_zipWith hq
    have hxp : x ∈ p.freeVars ∧ x ∉ names := by
      cases v with
      | covariant => exact ih p hp hx
      | contravariant => exact ih p hp hx
      | invariant => exact mem_freeVars_eliminateFixed hx
    exact ⟨mem_freeVars_of_mem_params (t := .con tag ps) hp hxp.1, hxp.2⟩
  | variadic min max ps ih =>
    rw [eliminate_variadic, freeVars_variadic, List.flatMap_map, List.mem_flatMap] at h
    obtain ⟨p, hp, hx⟩ := h
    obtain ⟨hxp, hxn⟩ := mem_freeVars_eliminateFixed hx
    exact ⟨mem_freeVars_of_mem_params (t := .variadic min max ps) hp hxp, hxn⟩
  | all bound body ih =>
    rw [eliminate, freeVars_all, List.mem_filter] at h
    obtain ⟨hx, hxn⟩ := ih h.1
    exact ⟨by rw [freeVars_all, List.mem_filter]; exact ⟨hx, h.2⟩,
      fun hn ↦ hxn (List.mem_filter.2 ⟨hn, h.2⟩)⟩

theorem Built.eliminateFixed {p : Node → Prop} (hany : p (.con "Any" 0)) (h : t.Built p)
    (names : List String) : (t.eliminateFixed names).Built p := by
  rw [Ty.eliminateFixed]
  split
  · exact built_con.2 ⟨hany, by simp⟩
  · exact h

/-- `t.eliminate names up` stays in every fragment that has `any` and `never`. -/
theorem Built.eliminate {p : Node → Prop} (hany : p (.con "Any" 0)) (hnever : p (.con "Never" 0))
    (h : t.Built p) (names : List String) (up : Bool) : (t.eliminate names up).Built p := by
  induction t generalizing names up with
  | var name =>
    rw [Ty.eliminate]
    split
    · cases up
      · exact built_con.2 ⟨hnever, by simp⟩
      · exact built_con.2 ⟨hany, by simp⟩
    · exact h
  | unknown id => exact h
  | con tag ps ih =>
    obtain ⟨hn, hps⟩ := built_con.1 h
    rw [eliminate_con, built_con, length_zipWith_ofTag]
    refine ⟨hn, fun q hq ↦ ?_⟩
    obtain ⟨v, p, hp, rfl⟩ := exists_of_mem_zipWith hq
    cases v with
    | covariant => exact ih p hp (hps p hp) names up
    | contravariant => exact ih p hp (hps p hp) names (!up)
    | invariant => exact (hps p hp).eliminateFixed hany names
  | variadic min max ps ih =>
    obtain ⟨hn, hps⟩ := built_variadic.1 h
    rw [eliminate_variadic, built_variadic, List.length_map, List.forall_mem_map]
    exact ⟨hn, fun p hp ↦ (hps p hp).eliminateFixed hany names⟩
  | all bound body ih =>
    obtain ⟨hn, hbody⟩ := built_all.1 h
    exact built_all.2 ⟨hn, ih hbody _ up⟩

/-! ## Variables in parameters with a direction -/

mutual

/-- Whether none of `names` occurs free inside an invariant parameter. -/
def variantIn (names : List String) : Ty → Bool
  | .con tag ps => variantInList names (Variance.ofTag tag ps.length) ps
  | .variadic _ _ ps => variantInList names (List.replicate ps.length .invariant) ps
  | .all bound body => body.variantIn (names.filter fun name ↦ !bound.contains name)
  | _ => true

/-- As `variantIn`, for parameters of the given variances: none of `names` occurs free in an
invariant one, and each of the others is `variantIn names`. -/
def variantInList (names : List String) : List Variance → List Ty → Bool
  | v :: vs, p :: ps =>
    (if v = .invariant then p.freeVars.all fun x ↦ !names.contains x else p.variantIn names)
      && variantInList names vs ps
  | _, _ => true

end

theorem variantInList_iff : variantInList names vs ps = true ↔
    ∀ (i : Nat) (v : Variance) (p : Ty), vs[i]? = some v → ps[i]? = some p →
      if v = .invariant then ∀ x ∈ p.freeVars, x ∉ names else p.variantIn names = true := by
  induction vs generalizing ps with
  | nil => simp [variantInList]
  | cons v vs ih =>
    cases ps with
    | nil => simp [variantInList]
    | cons p ps =>
      rw [variantInList, Bool.and_eq_true, ih]
      have hp : (if v = .invariant then p.freeVars.all fun x ↦ !names.contains x
          else p.variantIn names) = true ↔
          if v = .invariant then ∀ x ∈ p.freeVars, x ∉ names else p.variantIn names = true := by
        split <;> simp
      rw [hp]
      refine ⟨fun h i ↦ ?_, fun h ↦ ⟨h 0 v p rfl rfl, fun i ↦ h (i + 1)⟩⟩
      cases i with
      | zero => rintro _ _ ⟨⟩ ⟨⟩; exact h.1
      | succ i => exact h.2 i

theorem variantInList_of_notMem (h : ∀ p ∈ ps, ∀ x ∈ p.freeVars, x ∉ names)
    (ih : ∀ p ∈ ps, (∀ x ∈ p.freeVars, x ∉ names) → p.variantIn names = true) :
    variantInList names vs ps = true := by
  refine variantInList_iff.2 fun i v p _ hp ↦ ?_
  have hmem := List.mem_of_getElem? hp
  split
  · exact h p hmem
  · exact ih p hmem (h p hmem)

theorem notMem_of_mem_params {p : Ty} (h : ∀ x ∈ t.freeVars, x ∉ names) (hp : p ∈ t.params) :
    ∀ x ∈ p.freeVars, x ∉ names :=
  fun x hx ↦ h x (mem_freeVars_of_mem_params hp hx)

/-- Names that are not free in `t` are not free inside an invariant parameter of it. -/
theorem variantIn_of_notMem (h : ∀ x ∈ t.freeVars, x ∉ names) : t.variantIn names = true := by
  induction t generalizing names with
  | var | unknown => rfl
  | con tag ps ih =>
    exact variantInList_of_notMem (fun p ↦ notMem_of_mem_params (t := .con tag ps) h)
      fun p hp ↦ ih p hp
  | variadic min max ps ih =>
    exact variantInList_of_notMem (fun p ↦ notMem_of_mem_params (t := .variadic min max ps) h)
      fun p hp ↦ ih p hp
  | all bound body ih => exact ih (notMem_filter_of_filter h)

theorem variantIn_of_mem_list {p : Ty} (hlen : ps.length ≤ vs.length)
    (h : variantInList names vs ps = true) (hp : p ∈ ps) : p.variantIn names = true := by
  obtain ⟨i, hi, rfl⟩ := List.getElem_of_mem hp
  have h := variantInList_iff.1 h i vs[i] ps[i] (List.getElem?_eq_getElem (by omega))
    (List.getElem?_eq_getElem hi)
  split at h
  · exact variantIn_of_notMem h
  · exact h

/-- If `t` is `variantIn names`, so are its parameters. -/
theorem variantIn_of_mem_params {p : Ty} (h : t.variantIn names = true) (hp : p ∈ t.params) :
    p.variantIn names = true := by
  cases t with
  | con tag ps => exact variantIn_of_mem_list (le_length_ofTag tag _) h hp
  | variadic min max ps => exact variantIn_of_mem_list (by simp) h hp
  | _ => cases hp

section

variable {names₁ names₂ : List String}

theorem variantInList_of_or (hnames : ∀ x ∈ names, x ∈ names₁ ∨ x ∈ names₂)
    (h₁ : variantInList names₁ vs ps = true) (h₂ : variantInList names₂ vs ps = true)
    (ih : ∀ p ∈ ps, p.variantIn names₁ = true → p.variantIn names₂ = true →
      p.variantIn names = true) :
    variantInList names vs ps = true := by
  refine variantInList_iff.2 fun i v p hv hp ↦ ?_
  have h₁ := variantInList_iff.1 h₁ i v p hv hp
  have h₂ := variantInList_iff.1 h₂ i v p hv hp
  by_cases hinv : v = .invariant
  · rw [if_pos hinv] at h₁ h₂ ⊢
    exact fun x hx hmem ↦ (hnames x hmem).elim (h₁ x hx) (h₂ x hx)
  · rw [if_neg hinv] at h₁ h₂ ⊢
    exact ih p (List.mem_of_getElem? hp) h₁ h₂

/-- `variantIn` for names each of which comes from `names₁` or from `names₂`. -/
theorem variantIn_of_or (hnames : ∀ x ∈ names, x ∈ names₁ ∨ x ∈ names₂)
    (h₁ : t.variantIn names₁ = true) (h₂ : t.variantIn names₂ = true) :
    t.variantIn names = true := by
  induction t generalizing names names₁ names₂ with
  | var | unknown => rfl
  | con tag ps ih => exact variantInList_of_or hnames h₁ h₂ fun p hp ↦ ih p hp hnames
  | variadic min max ps ih => exact variantInList_of_or hnames h₁ h₂ fun p hp ↦ ih p hp hnames
  | all bound body ih =>
    refine ih (fun x hx ↦ ?_) h₁ h₂
    obtain ⟨hx, hbound⟩ := List.mem_filter.1 hx
    exact (hnames x hx).imp (List.mem_filter.2 ⟨·, hbound⟩) (List.mem_filter.2 ⟨·, hbound⟩)

end

/-! ## Elimination goes up and down -/

theorem relates_eliminateAt {v : Variance}
    (h : if v = .invariant then ∀ x ∈ t.freeVars, x ∉ names else t.variantIn names = true)
    (ih : t.variantIn names = true →
      t.isSubtype (t.eliminate names true) = true ∧ (t.eliminate names false).isSubtype t = true) :
    v.Relates t (eliminateAt names true v t) ∧ v.Relates (eliminateAt names false v t) t := by
  cases v with
  | covariant => exact ih h
  | contravariant => exact (ih h).symm
  | invariant => exact ⟨(eliminateFixed_eq_self h).symm, eliminateFixed_eq_self h⟩

/-- If `t` is `variantIn names`, then `t.eliminateUp names` is a supertype and
`t.eliminateDown names` a subtype. -/
theorem isSubtype_eliminate (h : t.variantIn names = true) :
    t.isSubtype (t.eliminateUp names) = true ∧ (t.eliminateDown names).isSubtype t = true := by
  rw [eliminateUp, eliminateDown]
  induction t generalizing names with
  | var name =>
    rw [eliminate, eliminate]
    split
    · exact ⟨isSubtype_any _, never_isSubtype _⟩
    · exact ⟨isSubtype_refl _, isSubtype_refl _⟩
  | unknown id => exact ⟨isSubtype_refl _, isSubtype_refl _⟩
  | con tag ps ih =>
    rw [variantIn, variantInList_iff] at h
    have hrel : ∀ (i : Nat) (v : Variance) (p : Ty),
        (Variance.ofTag tag ps.length)[i]? = some v → ps[i]? = some p →
        v.Relates p (eliminateAt names true v p) ∧ v.Relates (eliminateAt names false v p) p :=
      fun i v p hv hp ↦ relates_eliminateAt (h i v p hv hp) fun h ↦ ih p (List.mem_of_getElem? hp) h
    rw [eliminate_con, eliminate_con, isSubtype_iff_below, isSubtype_iff_below]
    refine ⟨.con (length_zipWith_ofTag ..).symm fun i v p q hv hp hq ↦ ?_,
      .con (length_zipWith_ofTag ..) fun i v q p hv hq hp ↦ ?_⟩
    · rw [List.getElem?_zipWith, hv, hp] at hq
      exact Option.some.inj hq ▸ (hrel i v p hv hp).1
    · rw [length_zipWith_ofTag] at hv
      rw [List.getElem?_zipWith, hv, hp] at hq
      exact Option.some.inj hq ▸ (hrel i v p hv hp).2
  | variadic min max ps ih =>
    have hps : ps.map (eliminateFixed names) = ps := by
      refine (List.map_congr_left fun p hp ↦ eliminateFixed_eq_self ?_).trans (List.map_id' ps)
      obtain ⟨i, hi, rfl⟩ := List.getElem_of_mem hp
      exact variantInList_iff.1 h i .invariant ps[i] (by simp [hi]) (List.getElem?_eq_getElem hi)
    rw [eliminate_variadic, eliminate_variadic, hps]
    exact ⟨isSubtype_refl _, isSubtype_refl _⟩
  | all bound body ih =>
    obtain ⟨hup, hdown⟩ := ih h
    exact ⟨isSubtype_iff_below.2 (.all hup), isSubtype_iff_below.2 (.all hdown)⟩

/-!
## Elimination gives the closest types

Going up and going down are proved together, because a contravariant parameter turns the one into
the other.  The type `s` on the other side is arbitrary, so the proofs go by cases on `Below`.  A
variable that is eliminated is only below the types with tag `Any` and the gradual one, and above
those with tag `Never`.
-/

mutual

/-- The variables that occur free inside a `variadic` part of a type. -/
def variadicVars : Ty → List String
  | .con _ ps => variadicVarsList ps
  | .variadic min max ps => (Ty.variadic min max ps).freeVars
  | .all bound body => body.variadicVars.filter fun name ↦ !bound.contains name
  | _ => []

/-- As `variadicVars`, for the types of a list. -/
def variadicVarsList : List Ty → List String
  | [] => []
  | t :: ts => t.variadicVars ++ variadicVarsList ts

end

theorem variadicVarsList_eq_flatMap (ps : List Ty) :
    variadicVarsList ps = ps.flatMap variadicVars := by
  induction ps with
  | nil => rfl
  | cons t ps ih => rw [variadicVarsList, ih, List.flatMap_cons]

theorem notMem_of_mem_con {p : Ty} (h : ∀ x ∈ (con tag ps).variadicVars, x ∉ names) (hp : p ∈ ps) :
    ∀ x ∈ p.variadicVars, x ∉ names := by
  rw [variadicVars, variadicVarsList_eq_flatMap] at h
  exact fun x hx ↦ h x (List.mem_flatMap.2 ⟨p, hp, hx⟩)

theorem hasTag_eliminate (h : t.hasTag tag = true) : (t.eliminate names up).hasTag tag = true := by
  cases t <;> simp_all [hasTag, Ty.tag?]

theorem getElem?_zipWith_ofTag {f : Variance → Ty → Ty} {i : Nat} {v : Variance} {q : Ty}
    (hv : (Variance.ofTag tag ps.length)[i]? = some v)
    (hq : (List.zipWith f (Variance.ofTag tag ps.length) ps)[i]? = some q) :
    ∃ p, ps[i]? = some p ∧ q = f v p := by
  rw [List.getElem?_zipWith, hv] at hq
  cases hp : ps[i]? with
  | none => simp [hp] at hq
  | some p => exact ⟨p, rfl, by simpa [hp] using hq.symm⟩

theorem relates_eliminateAt_of {s : Ty} {v : Variance} (hs : ∀ x ∈ s.freeVars, x ∉ names)
    (ih : (t.isSubtype s = true → (t.eliminate names true).isSubtype s = true) ∧
      (s.isSubtype t = true → s.isSubtype (t.eliminate names false) = true)) :
    (v.Relates t s → v.Relates (eliminateAt names true v t) s) ∧
      (v.Relates s t → v.Relates s (eliminateAt names false v t)) := by
  cases v with
  | covariant => exact ih
  | contravariant => exact ih.symm
  | invariant =>
    refine ⟨fun h ↦ ?_, fun h ↦ ?_⟩
    · obtain rfl : t = s := h
      exact eliminateFixed_eq_self hs
    · obtain rfl : s = t := h
      exact (eliminateFixed_eq_self hs).symm

/-- A type `s` without the names that is above `t` is above `t.eliminate names true`, and one that
is below `t` is below `t.eliminate names false`. -/
theorem eliminate_closest {names : List String} {s t : Ty} (ht : ∀ x ∈ t.variadicVars, x ∉ names)
    (hs : ∀ x ∈ s.freeVars, x ∉ names) :
    (t.isSubtype s = true → (t.eliminate names true).isSubtype s = true) ∧
      (s.isSubtype t = true → s.isSubtype (t.eliminate names false) = true) := by
  simp only [isSubtype_iff_below]
  refine ⟨fun h ↦ ?_, fun h ↦ ?_⟩
  · cases h with
    | untypedLeft h => exact .untypedLeft (hasTag_eliminate h)
    | untypedRight h => exact .untypedRight h
    | refl => rw [eliminate_eq_self hs]; exact .refl _
    | never h => exact .never (hasTag_eliminate h)
    | any h => exact .any h
    | all h =>
      rename_i bound body body'
      exact .all ((eliminate_closest (notMem_filter_of_filter ht) (notMem_filter_of_filter hs)).1 h)
    | nominal h => rw [eliminate_con]; exact .nominal h
    | con hlen h =>
      rename_i tag ps qs
      rw [eliminate_con]
      refine .con ((length_zipWith_ofTag ..).trans hlen) fun i v r q hv hr hq ↦ ?_
      rw [length_zipWith_ofTag] at hv
      obtain ⟨p, hp, rfl⟩ := getElem?_zipWith_ofTag hv hr
      have hpmem := List.mem_of_getElem? hp
      have hqs := notMem_of_mem_params (t := .con tag qs) hs (List.mem_of_getElem? hq)
      exact (relates_eliminateAt_of hqs (eliminate_closest (notMem_of_mem_con ht hpmem) hqs)).1
        (h i v p q hv hp hq)
    | variadic hne haccepts hresult hargs =>
      -- all variables of a variadic function occur inside one
      rw [eliminate_eq_self ht]
      exact .variadic hne haccepts hresult hargs
  · cases h with
    | untypedLeft h => exact .untypedLeft h
    | untypedRight h => exact .untypedRight (hasTag_eliminate h)
    | refl => rw [eliminate_eq_self hs]; exact .refl _
    | never h => exact .never h
    | any h => exact .any (hasTag_eliminate h)
    | all h =>
      rename_i bound body' body
      exact .all ((eliminate_closest (notMem_filter_of_filter ht) (notMem_filter_of_filter hs)).2 h)
    | nominal h => rw [eliminate_con]; exact .nominal h
    | con hlen h =>
      rename_i tag qs ps
      rw [eliminate_con]
      refine .con (hlen.trans (length_zipWith_ofTag ..).symm) fun i v q r hv hq hr ↦ ?_
      obtain ⟨p, hp, rfl⟩ := getElem?_zipWith_ofTag (hlen ▸ hv) hr
      have hpmem := List.mem_of_getElem? hp
      have hqs := notMem_of_mem_params (t := .con tag qs) hs (List.mem_of_getElem? hq)
      exact (relates_eliminateAt_of hqs (eliminate_closest (notMem_of_mem_con ht hpmem) hqs)).2
        (h i v q p hv hq hp)
    | variadic hne haccepts hresult hargs =>
      -- here the names may occur, in the function of fixed arity that replaces the variadic one
      rename_i min max ps qs
      rcases List.eq_nil_or_concat' qs with rfl | ⟨args, r, rfl⟩
      · exact .variadic hne haccepts hresult hargs
      have hps {p : Ty} := notMem_of_mem_params (t := .variadic min max ps) (p := p) hs
      rw [eliminate_function]
      rw [arguments_concat] at haccepts hargs
      refine .variadic hne ?_ (fun p hp q hq ↦ ?_) ?_
      · rwa [arguments_concat, List.length_map]
      · have hpmem : r ∈ args ++ [r] := by simp
        obtain rfl : r.eliminate names false = q := by simpa using hq
        exact (eliminate_closest (notMem_of_mem_con ht hpmem) (hps (List.mem_of_getLast? hp))).2
          (hresult p hp r (by simp))
      · rw [arguments_concat]
        intro i p q hp hq
        rw [List.getElem?_map, Option.map_eq_some_iff] at hq
        obtain ⟨a, ha, rfl⟩ := hq
        have hpmem : a ∈ args ++ [r] := List.mem_append_left _ (List.mem_of_getElem? ha)
        exact (eliminate_closest (notMem_of_mem_con ht hpmem)
          (hps (List.dropLast_subset ps (List.mem_of_getElem? hp)))).1 (hargs i p a hp ha)
termination_by sizeOf t
decreasing_by
  all_goals subst_vars
  · simp only [all.sizeOf_spec]; omega
  · have := List.sizeOf_lt_of_mem hpmem
    simp only [con.sizeOf_spec]; omega
  · simp only [all.sizeOf_spec]; omega
  all_goals
    have := List.sizeOf_lt_of_mem hpmem
    simp only [con.sizeOf_spec]; omega

/-- **Elimination is exact.**  None of `names` is free in `t.eliminateUp names` and
`t.eliminateDown names`.  If none of them is in `t.variadicVars`, every type without them that is
above `t` is above the first, and every one that is below `t` is below the second.  If `t` is
`variantIn names`, the first is itself a supertype of `t` and the second a subtype. -/
theorem eliminateUp_eliminateDown_exact (names : List String) (t : Ty) :
    (∀ x ∈ names, x ∉ (t.eliminateUp names).freeVars ∧ x ∉ (t.eliminateDown names).freeVars) ∧
    ((∀ x ∈ t.variadicVars, x ∉ names) → ∀ s : Ty, (∀ x ∈ s.freeVars, x ∉ names) →
      (t.isSubtype s = true → (t.eliminateUp names).isSubtype s = true) ∧
      (s.isSubtype t = true → s.isSubtype (t.eliminateDown names) = true)) ∧
    (t.variantIn names = true →
      t.isSubtype (t.eliminateUp names) = true ∧ (t.eliminateDown names).isSubtype t = true) := by
  refine ⟨fun x hx ↦ ⟨fun h ↦ ?_, fun h ↦ ?_⟩, fun ht s hs ↦ eliminate_closest ht hs,
    isSubtype_eliminate⟩
  · exact (mem_freeVars_eliminate h).2 hx
  · exact (mem_freeVars_eliminate h).2 hx

/-- `X` is an argument, bound by a quantifier, and inside the result; a variadic function without it
and the gradual type stand beside.  The type on the other side is below by a larger argument and by
`null`. -/
theorem eliminateUp_eliminateDown_exact_function :
    ((∀ x ∈ (function [.var "X", .all ["X"] (.var "X"), .variadic none none [.var "Y", untyped],
        list (.var "X")]).variadicVars, x ∉ ["X"]) ∧
      (function [.var "X", .all ["X"] (.var "X"), .variadic none none [.var "Y", untyped],
        list (.var "X")]).variantIn ["X"] = true) ∧
    (function [any, .all ["X"] any, untyped, null]).isSubtype
      ((function [.var "X", .all ["X"] (.var "X"), .variadic none none [.var "Y", untyped],
        list (.var "X")]).eliminateDown ["X"]) = true ∧
    ((function [.var "X", .all ["X"] (.var "X"), .variadic none none [.var "Y", untyped],
        list (.var "X")]).eliminateDown ["X"]).isSubtype
      (function [.var "X", .all ["X"] (.var "X"), .variadic none none [.var "Y", untyped],
        list (.var "X")]) = true := by
  have hvariadic : ∀ x ∈ (function [.var "X", .all ["X"] (.var "X"),
      .variadic none none [.var "Y", untyped], list (.var "X")]).variadicVars,
        x ∉ ["X"] := by decide
  have hvariant :
    (function [.var "X", .all ["X"] (.var "X"), .variadic none none [.var "Y", untyped],
      list (.var "X")]).variantIn ["X"] = true := by decide +kernel
  have hexact := eliminateUp_eliminateDown_exact ["X"] (function [.var "X", .all ["X"] (.var "X"),
    .variadic none none [.var "Y", untyped], list (.var "X")])
  exact ⟨⟨hvariadic, hvariant⟩, (hexact.2.1 hvariadic _ (by decide)).2 (by decide +kernel),
    (hexact.2.2 hvariant).2⟩

/-- If a variadic function has the name, a type can be above the function and not above the
result. -/
example : (Ty.variadic none none [integer, list (.var "X")]).isSubtype
      (function [integer, list any]) = true ∧
    ((Ty.variadic none none [integer, list (.var "X")]).eliminateUp ["X"]).isSubtype
      (function [integer, list any]) = false := by decide +kernel

/-! ## Quantifiers -/

mutual

/-- The quantifiers in a type, each with its variables and its body. -/
def quantifiers : Ty → List (List String × Ty)
  | .con _ ps => quantifiersList ps
  | .variadic _ _ ps => quantifiersList ps
  | .all bound body => (bound, body) :: body.quantifiers
  | _ => []

/-- As `quantifiers`, for the types of a list. -/
def quantifiersList : List Ty → List (List String × Ty)
  | [] => []
  | t :: ts => t.quantifiers ++ quantifiersList ts

end

theorem quantifiersList_eq_flatMap (ps : List Ty) :
    quantifiersList ps = ps.flatMap quantifiers := by
  induction ps with
  | nil => rfl
  | cons t ps ih => rw [quantifiersList, ih, List.flatMap_cons]

theorem mem_quantifiers_of_mem_params {p : Ty} {q : List String × Ty} (hp : p ∈ t.params)
    (hq : q ∈ p.quantifiers) : q ∈ t.quantifiers := by
  cases t with
  | con tag ps =>
    rw [quantifiers, quantifiersList_eq_flatMap]
    exact List.mem_flatMap.2 ⟨p, hp, hq⟩
  | variadic min max ps =>
    rw [quantifiers, quantifiersList_eq_flatMap]
    exact List.mem_flatMap.2 ⟨p, hp, hq⟩
  | _ => cases hp

end SchemeTyping.Ty
