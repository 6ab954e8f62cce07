import SchemeTyping.Constraint.Solve
import SchemeTyping.Proofs.Outcome
import SchemeTyping.Proofs.Ty.Bounds
import SchemeTyping.Proofs.Ty.Subst

/-!
# Constraints are sound

`ConstraintSet.SatisfiedBy` reads a constraint set as a condition on a substitution.  A meet of sets
is a stronger condition than each of them, and the constraints generated for `s` and `t` make
`s.subst σ` a subtype of `t.subst σ`.

## What is here

* `Supply`, `Stock`, `Choice` — the types that bounds are made of and that substitutions choose
  from.
* `ConstraintSet.meetAll_sound` — a substitution that satisfies `meetAll Ss` satisfies every set.
* `ConstraintSet.Generates`, `generates_of_generate` — one step of `generate`, with its reason.
* `ConstraintSet.Forces`, `forces_of_generate` — generated constraints force the subtyping they were
  generated for, under a condition `Suits` that every comparison hands down to the next.
* `callResult_sound` — the type of a polymorphic call is `result.subst σ` for a `σ` under which
  every argument is below its parameter.

The types of arguments do not mention the variables that are solved for, so neither do the bounds,
and `eliminateUp` has nothing to eliminate from the result.
-/

set_option autoImplicit false

namespace SchemeTyping

open Ty

variable {vars : List String} {G H : Ty → Prop} {s t : Ty} {σ : Subst}

/-! ## The types to choose from -/

/-- Types that may be put for `vars`: they do not mention `vars`, and `G` is closed under parameters
and under `bound`, and has `never` and `any`. -/
structure Supply (vars : List String) (G : Ty → Prop) : Prop where
  notMem : ∀ {t}, G t → ∀ x ∈ t.freeVars, x ∉ vars
  never : G Ty.never
  any : G Ty.any
  bound : ∀ (b : Bound) {s t}, G s → G t → G (Ty.bound b s t)
  param : ∀ {t p}, G t → p ∈ t.params → G p

/-- A `Supply` of plain types. -/
structure Stock (vars : List String) (G : Ty → Prop) : Prop extends Supply vars G where
  plain : ∀ {t}, G t → t.Plain

/-- `σ` puts types of `G` for some of `vars`, and nothing for other variables. -/
def Choice (vars : List String) (G : Ty → Prop) (σ : Subst) : Prop :=
  ∀ name t, σ.get? name = some t → name ∈ vars ∧ G t

/-- A plain type that does not mention `vars`. -/
structure Fixed (vars : List String) (t : Ty) : Prop where
  plain : t.Plain
  notMem : ∀ x ∈ t.freeVars, x ∉ vars

/-- The types with `Fixed vars` are a `Stock`. -/
theorem stock_fixed (vars : List String) : Stock vars (Fixed vars) where
  plain h := h.plain
  notMem h := h.notMem
  never := ⟨by decide, by simp [Ty.never]⟩
  any := ⟨by decide, by simp [Ty.any]⟩
  bound b _ _ hs ht :=
    ⟨hs.plain.bound b ht.plain, fun x hx ↦ (mem_freeVars_bound hx).elim (hs.notMem x) (ht.notMem x)⟩
  param h hp :=
    ⟨h.plain.of_mem_params hp, fun x hx ↦ h.notMem x (mem_freeVars_of_mem_params hp hx)⟩

theorem Supply.subst_eq (hG : Supply vars G) (ht : G t) (hσ : Choice vars H σ) : t.subst σ = t := by
  refine subst_eq_self fun x hx ↦ ?_
  cases hx' : σ.get? x with
  | none => rfl
  | some u => exact absurd (hσ x u hx').1 (hG.notMem ht x hx)

theorem Choice.filterKeys (hσ : Choice vars G σ) (p : String → Bool) :
    Choice vars G (σ.filterKeys p) := by
  intro name t h
  rw [OrdMap.get?_filterKeys] at h
  split at h
  · exact hσ name t h
  · cases h

theorem Choice.plain_subst (hG : ∀ {t}, G t → t.Plain) (hσ : Choice vars G σ) (ht : t.Plain) :
    (t.subst σ).Plain :=
  Built.subst ht fun x u hx ↦ hG (hσ x u hx).2

/-! ## Constraints -/

/-- The type satisfies the constraint. -/
def Constraint.Holds : Constraint → Ty → Prop
  | .equal u, t => t = u
  | .between lower upper, t => lower.isSubtype t = true ∧ t.isSubtype upper = true
  | .untyped, _ => True

instance Constraint.decidableHolds : (c : Constraint) → (t : Ty) → Decidable (c.Holds t)
  | .equal u, t => inferInstanceAs (Decidable (t = u))
  | .between lower upper, t =>
    inferInstanceAs (Decidable (lower.isSubtype t = true ∧ t.isSubtype upper = true))
  | .untyped, _ => .isTrue trivial

/-- The types in a constraint. -/
def Constraint.types : Constraint → List Ty
  | .equal t => [t]
  | .between lower upper => [lower, upper]
  | .untyped => []

/-- The constraint is a `between` with bounds from `G`. -/
def Constraint.Among (G : Ty → Prop) : Constraint → Prop
  | .between lower upper => G lower ∧ G upper
  | _ => False

namespace Constraint

theorem holds_top (t : Ty) : top.Holds t := ⟨never_isSubtype t, isSubtype_any t⟩

theorem among_top (hG : Supply vars G) : top.Among G := ⟨hG.never, hG.any⟩

/-- Why `Constraint.meet` succeeds: one constructor for each of its branches. -/
inductive Meets : Constraint → Constraint → Constraint → Prop
  | untypedLeft {c : Constraint} : Meets .untyped c .untyped
  | untypedRight {c : Constraint} : Meets c .untyped .untyped
  | equal {t : Ty} : Meets (.equal t) (.equal t) (.equal t)
  | equalLeft {t lower upper : Ty} (hlower : lower.isSubtype t = true)
    (hupper : t.isSubtype upper = true) :
    Meets (.equal t) (.between lower upper) (.equal t)
  | equalRight {t lower upper : Ty} (hlower : lower.isSubtype t = true)
    (hupper : t.isSubtype upper = true) :
    Meets (.between lower upper) (.equal t) (.equal t)
  | between {lower upper lower' upper' : Ty}
    (h : (lower'.join lower).isSubtype (upper'.meet upper) = true) :
    Meets (.between lower upper) (.between lower' upper')
      (.between (lower'.join lower) (upper'.meet upper))

variable {c c' d : Constraint}

theorem meet_eq_some_iff : c.meet c' = some d ↔ Meets c c' d := by
  constructor
  · intro h
    cases c with
    | untyped =>
      cases h
      exact .untypedLeft
    | equal s =>
      cases c' with
      | untyped =>
        cases h
        exact .untypedRight
      | equal t =>
        rw [meet] at h
        split at h
        · rename_i heq
          cases h
          exact heq ▸ .equal
        · cases h
      | between lower upper =>
        rw [meet] at h
        split at h
        · rename_i hbounds
          cases h
          rw [Bool.and_eq_true] at hbounds
          exact .equalLeft hbounds.1 hbounds.2
        · cases h
    | between lower upper =>
      cases c' with
      | untyped =>
        cases h
        exact .untypedRight
      | equal t =>
        rw [meet] at h
        split at h
        · rename_i hbounds
          cases h
          rw [Bool.and_eq_true] at hbounds
          exact .equalRight hbounds.1 hbounds.2
        · cases h
      | between lower' upper' =>
        rw [meet, satisfiable?] at h
        split at h
        · rename_i hsat
          cases h
          exact .between hsat
        · cases h
  · intro h
    cases h with
    | untypedLeft => rfl
    | untypedRight => cases c <;> rfl
    | equal => exact if_pos rfl
    | equalLeft hlower hupper => exact if_pos (by rw [hlower, hupper, Bool.and_self])
    | equalRight hlower hupper => exact if_pos (by rw [hlower, hupper, Bool.and_self])
    | between h => exact if_pos h

/-- The types of a meet are in every `G` that has those of both constraints and is closed under
`bound`. -/
theorem Meets.forall_mem_types (h : Meets c c' d)
    (hG : ∀ (b : Bound) s t, G s → G t → G (Ty.bound b s t)) (hc : ∀ t ∈ c.types, G t)
    (hc' : ∀ t ∈ c'.types, G t) : ∀ t ∈ d.types, G t := by
  cases h with
  | untypedLeft | equal | equalLeft => exact hc
  | untypedRight | equalRight => exact hc'
  | between =>
    simp only [types, List.forall_mem_cons] at hc hc' ⊢
    exact ⟨hG .upper _ _ hc'.1 hc.1, hG .lower _ _ hc'.2.1 hc.2.1, by simp⟩

/-- The bounds of a meet are from the supply if those of both constraints are. -/
theorem among_meet {c c' d : Constraint} (hG : Supply vars G) (hc : c.Among G) (hc' : c'.Among G)
    (h : c.meet c' = some d) : d.Among G := by
  cases meet_eq_some_iff.1 h with
  | between => exact ⟨hG.bound .upper hc'.1 hc.1, hG.bound .lower hc'.2 hc.2⟩
  | untypedLeft | equal | equalLeft => cases hc
  | untypedRight | equalRight => cases hc'

/-- A type that satisfies the meet of two constraints satisfies both, if neither is `untyped` and
the types of the meet are static. -/
theorem Meets.holds (h : Meets c c' d) (hc : c ≠ .untyped) (hc' : c' ≠ .untyped)
    (hd : ∀ t ∈ d.types, t.Static) (ht : d.Holds t) : c.Holds t ∧ c'.Holds t := by
  cases h with
  | untypedLeft => exact absurd rfl hc
  | untypedRight => exact absurd rfl hc'
  | equal => exact ⟨ht, ht⟩
  | equalLeft hlower hupper =>
    obtain rfl : t = _ := ht
    exact ⟨rfl, hlower, hupper⟩
  | equalRight hlower hupper =>
    obtain rfl : t = _ := ht
    exact ⟨⟨hlower, hupper⟩, rfl⟩
  | @between lower upper lower' upper' _ =>
    simp only [types, List.forall_mem_cons] at hd
    obtain ⟨hjoin', hjoin⟩ := holds_bound .upper lower' lower
    obtain ⟨hmeet', hmeet⟩ := holds_bound .lower upper' upper
    refine ⟨⟨?_, ?_⟩, ?_, ?_⟩
    · exact isSubtype_trans hd.1 hjoin ht.1
    · exact isSubtype_trans hd.2.1 ht.2 hmeet
    · exact isSubtype_trans hd.1 hjoin' ht.1
    · exact isSubtype_trans hd.2.1 ht.2 hmeet'

theorem Among.ne_untyped (h : c.Among G) : c ≠ .untyped := by
  rintro rfl
  exact h

theorem Among.forall_mem_types (h : c.Among G) : ∀ t ∈ c.types, G t := by
  cases c with
  | between lower upper => simpa [types, Among] using h
  | equal | untyped => cases h

/-- The meet of two constraints with bounds from a stock has such bounds, and it implies both. -/
theorem meet_sound {c c' d : Constraint} (hG : Stock vars G) (hc : c.Among G) (hc' : c'.Among G)
    (h : c.meet c' = some d) : d.Among G ∧ ∀ t, d.Holds t → c.Holds t ∧ c'.Holds t := by
  have hd := among_meet hG.toSupply hc hc' h
  refine ⟨hd, fun t ↦ (meet_eq_some_iff.1 h).holds hc.ne_untyped hc'.ne_untyped fun u hu ↦ ?_⟩
  exact (hG.plain (hd.forall_mem_types u hu)).static

end Constraint

namespace ConstraintSet

variable {S T V : ConstraintSet}

/-- Every constraint is on one of `vars` and has bounds from `G`. -/
def Among (vars : List String) (G : Ty → Prop) (S : ConstraintSet) : Prop :=
  ∀ name c, S.get? name = some c → name ∈ vars ∧ c.Among G

/-- What `σ` puts for a constrained variable satisfies its constraint. -/
def SatisfiedBy (S : ConstraintSet) (σ : Subst) : Prop :=
  ∀ name, (S.on name).Holds ((Ty.var name).subst σ)

/-- `S.on name` is `.top` or the constraint that `S` has for `name`. -/
theorem on_cases {P : Constraint → Prop} {name : String} (htop : P .top)
    (h : ∀ c, S.get? name = some c → P c) : P (S.on name) := by
  rw [ConstraintSet.on]
  cases hc : S.get? name with
  | none => exact htop
  | some c => exact h c hc

theorem Among.on (hG : Supply vars G) (h : S.Among vars G) (name : String) : (S.on name).Among G :=
  on_cases (Constraint.among_top hG) fun c hc ↦ (h name c hc).2

theorem Among.mem_vars (hS : S.Among vars G) {name : String} (h : name ∈ S.keys) : name ∈ vars := by
  cases hc : S.get? name with
  | none => exact absurd h (OrdMap.get?_eq_none_iff.1 hc)
  | some c => exact (hS name c hc).1

theorem among_empty : (∅ : ConstraintSet).Among vars G := nofun

theorem lookup_mapM {g : String → Option Constraint} {l : List String}
    {es : List (String × Constraint)} (h : (l.mapM fun name ↦ (g name).map (name, ·)) = some es)
    (k : String) : if k ∈ l then ∃ c, g k = some c ∧ OrdMap.lookup k es = some c
      else OrdMap.lookup k es = none := by
  induction l generalizing es with
  | nil =>
    cases h
    rfl
  | cons name l ih =>
    simp only [List.mapM_cons, Option.bind_eq_bind, Option.bind_eq_some_iff, Option.map_eq_some_iff,
      Option.pure_def, Option.some.injEq] at h
    obtain ⟨_, ⟨c, hc, rfl⟩, es', hes', rfl⟩ := h
    rw [OrdMap.lookup]
    by_cases hk : name = k
    · subst hk
      simp [hc]
    · simpa [hk, Ne.symm hk] using ih hes'

theorem mem_names {name : String} : name ∈ names S T ↔ name ∈ S.keys ∨ name ∈ T.keys := by
  rw [names, List.mem_append, List.mem_filter, OrdMap.contains]
  by_cases h : name ∈ S.keys
  · simp [h]
  · simp [h, OrdMap.get?_eq_none_iff.2 h]

/-- `S.meet T` has on every name of `S` and `T` the meet of their constraints, and no others. -/
theorem get?_meet (h : S.meet T = some V) (name : String) :
    if name ∈ names S T then ∃ c, (S.on name).meet (T.on name) = some c ∧ V.get? name = some c
      else V.get? name = none := by
  rw [meet, Option.map_eq_some_iff] at h
  obtain ⟨es, hes, rfl⟩ := h
  exact lookup_mapM hes name

theorem on_meet (h : S.meet T = some V) (name : String) :
    (S.on name).meet (T.on name) = some (V.on name) := by
  have hget := get?_meet h name
  split at hget
  · obtain ⟨c, hc, hV⟩ := hget
    rw [hc, ConstraintSet.on, hV, Option.getD_some]
  · rename_i hname
    rw [mem_names, not_or, ← OrdMap.get?_eq_none_iff, ← OrdMap.get?_eq_none_iff] at hname
    rw [ConstraintSet.on, ConstraintSet.on, ConstraintSet.on, hget, hname.1, hname.2]
    decide +kernel

/-- `S.meet T` has bounds from the supply if `S` and `T` have. -/
theorem Among.meet (hG : Supply vars G) (hS : S.Among vars G) (hT : T.Among vars G)
    (h : S.meet T = some V) : V.Among vars G := by
  intro name c hc
  have hget := get?_meet h name
  split at hget
  · rename_i hname
    obtain ⟨c', hmeet, hV⟩ := hget
    obtain rfl : c' = c := Option.some.inj (hV.symm.trans hc)
    exact ⟨(mem_names.1 hname).elim hS.mem_vars hT.mem_vars,
      Constraint.among_meet hG (hS.on hG name) (hT.on hG name) hmeet⟩
  · rw [hget] at hc
    cases hc

/-- A substitution that satisfies `S.meet T` satisfies both sets. -/
theorem meet_sound (hG : Stock vars G) (hS : S.Among vars G) (hT : T.Among vars G)
    (h : S.meet T = some V) :
    V.Among vars G ∧ ∀ σ, V.SatisfiedBy σ → S.SatisfiedBy σ ∧ T.SatisfiedBy σ := by
  have hmeet := fun name ↦ Constraint.meet_sound hG (hS.on hG.toSupply name)
    (hT.on hG.toSupply name) (on_meet h name)
  refine ⟨hS.meet hG.toSupply hT h, fun σ hσ ↦ ⟨fun name ↦ ?_, fun name ↦ ?_⟩⟩
  · exact ((hmeet name).2 _ (hσ name)).1
  · exact ((hmeet name).2 _ (hσ name)).2

theorem meetAll_eq_foldlM (Ss : List ConstraintSet) : meetAll Ss = Ss.foldlM meet ∅ :=
  (List.foldlM_eq_foldl ..).symm

theorem foldlM_meet_cons_iff {Ss : List ConstraintSet} :
    (S :: Ss).foldlM meet T = some V ↔ ∃ U, T.meet S = some U ∧ Ss.foldlM meet U = some V := by
  rw [List.foldlM_cons, Option.bind_eq_bind, Option.bind_eq_some_iff]

/-- A substitution that satisfies `meetAll Ss` satisfies every set of `Ss`. -/
theorem meetAll_sound {Ss : List ConstraintSet} (hG : Stock vars G) (hSs : ∀ S ∈ Ss, S.Among vars G)
    (h : meetAll Ss = some V) :
    V.Among vars G ∧ ∀ σ, V.SatisfiedBy σ → ∀ S ∈ Ss, S.SatisfiedBy σ := by
  -- The meet is folded over the sets; `T` is what was met so far.
  have hfold : ∀ {T : ConstraintSet}, T.Among vars G → Ss.foldlM meet T = some V →
      V.Among vars G ∧ ∀ σ, V.SatisfiedBy σ → T.SatisfiedBy σ ∧ ∀ S ∈ Ss, S.SatisfiedBy σ := by
    clear h
    induction Ss with
    | nil =>
      intro T hT h
      cases h
      exact ⟨hT, fun σ hσ ↦ ⟨hσ, nofun⟩⟩
    | cons S Ss ih =>
      intro T hT h
      rw [List.forall_mem_cons] at hSs
      obtain ⟨U, hm, h⟩ := foldlM_meet_cons_iff.1 h
      obtain ⟨hU, hUsat⟩ := meet_sound hG hT hSs.1 hm
      obtain ⟨hV, hsat⟩ := ih hSs.2 hU h
      refine ⟨hV, fun σ hσ ↦ ?_⟩
      obtain ⟨hUσ, hrest⟩ := hsat σ hσ
      exact ⟨(hUsat σ hUσ).1, List.forall_mem_cons.2 ⟨(hUsat σ hUσ).2, hrest⟩⟩
  obtain ⟨hV, hsat⟩ := hfold among_empty (meetAll_eq_foldlM Ss ▸ h)
  exact ⟨hV, fun σ hσ ↦ (hsat σ hσ).2⟩

/-! ## Generation -/

/-- Why `generate` succeeds: one constructor for each of its branches, with `generate` for the
parts. -/
inductive Generates (vars scope : List String) : Ty → Ty → ConstraintSet → Prop
  | untyped {s t : Ty} (h : s.isUntyped = true ∨ t.isUntyped = true) :
    Generates vars scope s t (untyped (if s.isUntyped then t else s).freeVars)
  | isSubtype {s t : Ty} (h : s.isSubtype t = true) : Generates vars scope s t ∅
  | left {name : String} {t : Ty} (h : name ∈ vars) :
    Generates vars scope (.var name) t (single name (.between never (t.eliminateDown scope)))
  | right {s : Ty} {name : String} (h : name ∈ vars) :
    Generates vars scope s (.var name) (single name (.between (s.eliminateUp scope) any))
  | all {bound : List String} {body body' : Ty} {S : ConstraintSet}
    (h : generate vars (scope ++ bound) body body' = some S) :
    Generates vars scope (.all bound body) (.all bound body') S
  | con {tag : String} {ps qs : List Ty} {Ss : List ConstraintSet} {S : ConstraintSet}
    (hlen : ps.length = qs.length)
    (h : generateParams vars scope (Variance.ofTag tag ps.length) ps qs = some Ss)
    (hmeet : meetAll Ss = some S) : Generates vars scope (.con tag ps) (.con tag qs) S
  | variadic {min max : Option Int} {ps qs : List Ty} {Ss : List ConstraintSet}
    {last S : ConstraintSet} (hps : ps ≠ []) (hqs : qs ≠ []) (hne : arguments ps ≠ [])
    (haccepts : (Ty.variadic min max ps).accepts (arguments qs).length = true)
    (h : generateSpread vars scope (arguments ps) (arguments qs) = some Ss)
    (hlast : generate vars scope (ps.getLast hps) (qs.getLast hqs) = some last)
    (hmeet : meetAll (Ss ++ [last]) = some S) :
    Generates vars scope (.variadic min max ps) (.con "Function" qs) S
  | spelt {min max : Option Int} {ps qs : List Ty} {Ss : List ConstraintSet} {S : ConstraintSet}
    (hlen : ps.length = qs.length)
    (h : generateParams vars scope (List.replicate ps.length .invariant) ps qs = some Ss)
    (hmeet : meetAll Ss = some S) :
    Generates vars scope (.variadic min max ps) (.con "Function*" qs) S

theorem varAmong?_eq_some {name : String} (h : varAmong? vars t = some name) :
    t = .var name ∧ name ∈ vars := by
  cases t with
  | var v =>
    rw [varAmong?] at h
    split at h
    · rename_i hv
      cases h
      exact ⟨rfl, by simpa using hv⟩
    · cases h
  | _ => cases h

/-- `generate` succeeds for one of the reasons of `Generates`. -/
theorem generates_of_generate {scope : List String} (h : generate vars scope s t = some S) :
    Generates vars scope s t S := by
  have hparams {tag tag' : String} {n n' : Nat} (x : Option (List ConstraintSet))
      (y : List ConstraintSet → Option ConstraintSet)
      (h : (if tag = tag' && n = n' then x >>= y else none) = some S) :
      tag = tag' ∧ n = n' ∧ ∃ Ss, x = some Ss ∧ y Ss = some S := by
    simpa [Option.bind_eq_some_iff, and_assoc] using h
  unfold generate at h
  split at h
  · rename_i hu
    cases h
    exact .untyped (by simpa using hu)
  split at h
  · rename_i hsub
    cases h
    exact .isSubtype hsub
  split at h
  · rename_i name hname
    cases h
    obtain ⟨rfl, hmem⟩ := varAmong?_eq_some hname
    exact .left hmem
  · rename_i name _ hname
    cases h
    obtain ⟨rfl, hmem⟩ := varAmong?_eq_some hname
    exact .right hmem
  split at h
  · split at h
    · rename_i hbound
      subst hbound
      exact .all h
    · cases h
  · split at h
    · rename_i htag
      subst htag
      split at h
      · rename_i hne
        split at h
        · rename_i hacc
          simp only [Bool.and_eq_true, Bool.not_eq_true', List.isEmpty_eq_false_iff] at hacc
          simp only [Option.bind_eq_bind, Option.bind_eq_some_iff] at h
          obtain ⟨Ss, hSs, last, hlast, hmeet⟩ := h
          exact .variadic hne.1 hne.2 hacc.1 hacc.2 hSs hlast hmeet
        · cases h
      · cases h
    · obtain ⟨rfl, hlen, Ss, hSs, hmeet⟩ := hparams _ _ h
      exact .spelt hlen hSs hmeet
  · obtain ⟨rfl, hlen, Ss, hSs, hmeet⟩ := hparams _ _ h
    exact .con hlen hSs hmeet
  · cases h

/-- `S` has bounds from `G`, and every choice from `H` that satisfies it makes `s` a subtype of
`t`. -/
structure Forces (vars : List String) (G H : Ty → Prop) (S : ConstraintSet) (s t : Ty) : Prop where
  among : S.Among vars G
  isSubtype : ∀ σ, Choice vars H σ → S.SatisfiedBy σ → (s.subst σ).isSubtype (t.subst σ) = true

theorem satisfiedBy_single {name : String} {c : Constraint} (h : (single name c).SatisfiedBy σ) :
    c.Holds ((Ty.var name).subst σ) := by
  have h := h name
  rwa [ConstraintSet.on, single, OrdMap.get?, OrdMap.lookup, if_pos rfl] at h

theorem among_single {name : String} {c : Constraint} (hname : name ∈ vars) (hc : c.Among G) :
    (single name c).Among vars G := by
  intro name' c' h
  rw [single, OrdMap.get?, OrdMap.lookup] at h
  split at h
  · rename_i he
    cases h
    exact ⟨he ▸ hname, hc⟩
  · cases h

/-- The constraints for two parameters of the given variance. -/
def generateParam (vars scope : List String) : Variance → Ty → Ty → Option ConstraintSet
  | .covariant, p, q => generate vars scope p q
  | .contravariant, p, q => generate vars scope q p
  | .invariant, p, q => do meet (← generate vars scope p q) (← generate vars scope q p)

/-- `generateParams` is `generateParam` at every position. -/
theorem generateParams_eq_mapM (vars scope : List String) (vs : List Variance) (ps qs : List Ty) :
    generateParams vars scope vs ps qs =
      (vs.zip (ps.zip qs)).mapM fun r ↦ generateParam vars scope r.1 r.2.1 r.2.2 := by
  induction vs generalizing ps qs with
  | nil => simp [generateParams]
  | cons v vs ih =>
    rcases ps with _ | ⟨p, ps⟩
    · simp [generateParams]
    rcases qs with _ | ⟨q, qs⟩
    · simp [generateParams]
    rw [List.zip_cons_cons, List.zip_cons_cons, List.mapM_cons, ← ih]
    cases v with
    | covariant | contravariant => rw [generateParams]; rfl
    | invariant => rw [generateParams]; simp only [generateParam, bind_assoc]

/-- `generateSpread` is `generateParams` on `stretch qs.length ps`, with all parameters
contravariant. -/
theorem generateSpread_eq_generateParams (vars scope : List String) (ps qs : List Ty) :
    generateSpread vars scope ps qs =
      generateParams vars scope (.replicate qs.length .contravariant)
      (stretch qs.length ps) qs := by
  induction qs generalizing ps with
  | nil => rcases ps with _ | ⟨p, _ | ⟨p', ps⟩⟩ <;> simp [generateSpread, generateParams]
  | cons q qs ih =>
    rcases ps with _ | ⟨p, _ | ⟨p', ps⟩⟩
    · simp [generateSpread, stretch, generateParams]
    all_goals rw [generateSpread, List.length_cons, stretch, List.replicate_succ,
      generateParams, ih]

theorem generateParam_sound {scope : List String} {v : Variance} {p q : Ty} (hG : Stock vars G)
    (hH : ∀ {t}, H t → t.Plain) (hp : p.Plain) (hq : q.Plain)
    (ih : ∀ S, (generate vars scope p q = some S → Forces vars G H S p q) ∧
      (generate vars scope q p = some S → Forces vars G H S q p))
    (h : generateParam vars scope v p q = some S) : S.Among vars G ∧
      ∀ σ, Choice vars H σ → S.SatisfiedBy σ → v.Relates (p.subst σ) (q.subst σ) := by
  cases v with
  | covariant => exact ⟨((ih S).1 h).among, ((ih S).1 h).isSubtype⟩
  | contravariant => exact ⟨((ih S).2 h).among, ((ih S).2 h).isSubtype⟩
  | invariant =>
    simp only [generateParam, Option.bind_eq_bind, Option.bind_eq_some_iff] at h
    obtain ⟨S₁, hS₁, S₂, hS₂, hmeet⟩ := h
    have h₁ := (ih S₁).1 hS₁
    have h₂ := (ih S₂).2 hS₂
    obtain ⟨hS, hsat⟩ := meet_sound hG h₁.among h₂.among hmeet
    refine ⟨hS, fun σ hσ hSσ ↦ ?_⟩
    -- Both directions leave no choice but equality.
    exact isSubtype_antisymm (hσ.plain_subst hH hp).proper (hσ.plain_subst hH hq).proper
      (h₁.isSubtype σ hσ (hsat σ hSσ).1) (h₂.isSubtype σ hσ (hsat σ hSσ).2)

/-- If the sets for all pairs of parameters force their subtypings, those of `generateParams` force
`Related`. -/
theorem generateParams_sound {scope : List String} {vs : List Variance} {ps qs : List Ty}
    {Ss : List ConstraintSet} (hG : Stock vars G) (hH : ∀ {t}, H t → t.Plain)
    (hps : ∀ p ∈ ps, p.Plain) (hqs : ∀ q ∈ qs, q.Plain)
    (ih : ∀ p ∈ ps, ∀ q ∈ qs, ∀ S, (generate vars scope p q = some S → Forces vars G H S p q) ∧
      (generate vars scope q p = some S → Forces vars G H S q p))
    (h : generateParams vars scope vs ps qs = some Ss) :
    (∀ S ∈ Ss, S.Among vars G) ∧ ∀ σ, Choice vars H σ → (∀ S ∈ Ss, S.SatisfiedBy σ) →
      Related vs (ps.map (subst σ)) (qs.map (subst σ)) := by
  rw [generateParams_eq_mapM, mapM_eq_some_iff] at h
  have hrow : ∀ r ∈ vs.zip (ps.zip qs), ∀ S, generateParam vars scope r.1 r.2.1 r.2.2 = some S →
      S.Among vars G ∧ ∀ σ, Choice vars H σ → S.SatisfiedBy σ →
        r.1.Relates (r.2.1.subst σ) (r.2.2.subst σ) := by
    intro r hr S hS
    obtain ⟨hp, hq⟩ := List.of_mem_zip (List.of_mem_zip hr).2
    exact generateParam_sound hG hH (hps _ hp) (hqs _ hq) (ih _ hp _ hq) hS
  refine ⟨fun S hS ↦ ?_, fun σ hσ hsat ↦ ?_⟩
  · obtain ⟨r, hr, hgen⟩ := exists_mem_of_forall₂ h.flip hS
    exact (hrow r hr S hgen).1
  · rw [related_iff, List.zip_map, List.zip_map_right, List.forall_mem_map]
    intro r hr
    obtain ⟨S, hS, hgen⟩ := exists_mem_of_forall₂ h hr
    exact (hrow r hr S hgen).2 σ hσ (hsat S hS)

theorem forces_con {scope : List String} {tag : String} {ps qs : List Ty} {Ss : List ConstraintSet}
    (hG : Stock vars G) (hH : ∀ {t}, H t → t.Plain) (hlen : ps.length = qs.length)
    (hps : ∀ p ∈ ps, p.Plain) (hqs : ∀ q ∈ qs, q.Plain)
    (ih : ∀ p ∈ ps, ∀ q ∈ qs, ∀ S, (generate vars scope p q = some S → Forces vars G H S p q) ∧
      (generate vars scope q p = some S → Forces vars G H S q p))
    (h : generateParams vars scope (Variance.ofTag tag ps.length) ps qs = some Ss)
    (hmeet : meetAll Ss = some S) : Forces vars G H S (.con tag ps) (.con tag qs) := by
  obtain ⟨hamong, hrel⟩ := generateParams_sound hG hH hps hqs ih h
  obtain ⟨hS, hsat⟩ := meetAll_sound hG hamong hmeet
  refine ⟨hS, fun σ hσ hSσ ↦ ?_⟩
  rw [subst_con, subst_con, isSubtype_iff_below]
  exact .con (by simpa using hlen) (by simpa using hrel σ hσ (hsat σ hSσ))

theorem forces_variadic {scope : List String} {min max : Option Int} {ps qs : List Ty}
    {Ss : List ConstraintSet} {last : ConstraintSet} (hG : Stock vars G) (hH : ∀ {t}, H t → t.Plain)
    (hps : ps ≠ []) (hqs : qs ≠ []) (hps' : ∀ p ∈ ps, p.Plain) (hqs' : ∀ q ∈ qs, q.Plain)
    (hne : arguments ps ≠ [])
    (haccepts : (Ty.variadic min max ps).accepts (arguments qs).length = true)
    (ih : ∀ p ∈ ps, ∀ q ∈ qs, ∀ S, (generate vars scope p q = some S → Forces vars G H S p q) ∧
      (generate vars scope q p = some S → Forces vars G H S q p))
    (h : generateSpread vars scope (arguments ps) (arguments qs) = some Ss)
    (hlast : generate vars scope (ps.getLast hps) (qs.getLast hqs) = some last)
    (hmeet : meetAll (Ss ++ [last]) = some S) :
    Forces vars G H S (.variadic min max ps) (.con "Function" qs) := by
  have hargs : ∀ p ∈ stretch (arguments qs).length (arguments ps), p ∈ ps := fun p hp ↦
    List.dropLast_subset ps (mem_of_mem_stretch hp)
  rw [generateSpread_eq_generateParams] at h
  obtain ⟨hamong, hrel⟩ := generateParams_sound hG hH (fun p hp ↦ hps' p (hargs p hp))
    (fun q hq ↦ hqs' q (List.dropLast_subset qs hq))
    (fun p hp q hq ↦ ih p (hargs p hp) q (List.dropLast_subset qs hq)) h
  have hforces := (ih _ (List.getLast_mem hps) _ (List.getLast_mem hqs) last).1 hlast
  obtain ⟨hS, hsat⟩ := meetAll_sound hG (by
    rw [List.forall_mem_append, List.forall_mem_singleton]
    exact ⟨hamong, hforces.among⟩) hmeet
  refine ⟨hS, fun σ hσ hSσ ↦ ?_⟩
  have hsat := hsat σ hSσ
  rw [List.forall_mem_append, List.forall_mem_singleton] at hsat
  rw [subst_variadic, subst_con, isSubtype_iff_below]
  refine .variadic (by simpa [arguments_map] using hne) ?_ (fun p hp q hq ↦ ?_) ?_
  · rwa [arguments_map, List.length_map, accepts_map]
  · rw [List.getLast?_map, List.getLast?_eq_some_getLast hps] at hp
    rw [List.getLast?_map, List.getLast?_eq_some_getLast hqs] at hq
    cases hp
    cases hq
    exact hforces.isSubtype σ hσ hsat.2
  · rw [arguments_map, arguments_map, spreads_iff_related, List.length_map, map_stretch]
    exact hrel σ hσ hsat.1

/-- `Forces` for the bodies gives `Forces` for the quantified types, if none of `vars` is bound. -/
theorem forces_all {names : List String} {body body' : Ty} (hnames : ∀ x ∈ names, x ∉ vars)
    (h : Forces vars G H S body body') :
    Forces vars G H S (.all names body) (.all names body') := by
  refine ⟨h.among, fun σ hσ hS ↦ ?_⟩
  rw [subst_all, subst_all, isSubtype_iff_below]
  refine .all (h.isSubtype _ (hσ.filterKeys _) fun name ↦ ?_)
  by_cases hname : name ∈ vars
  · have hkeep : (!names.contains name) = true := by simpa using fun h ↦ hnames name h hname
    rw [subst_var, OrdMap.get?_filterKeys, if_pos hkeep]
    exact hS name
  · have hnone : S.get? name = none := by
      cases hc : S.get? name with
      | none => rfl
      | some c => exact absurd (h.among name c hc).1 hname
    rw [ConstraintSet.on, hnone]
    exact Constraint.holds_top _

/-- A condition `R scope s t` under which the constraints for `s` and `t` are sound.  Every
comparison hands it down to the next.  Where a variable is compared with a type, the type after
elimination of `scope` is from the stock, on the side of the bound that it is used for. -/
structure Suits (vars : List String) (G : Ty → Prop) (R : List String → Ty → Ty → Prop) : Prop where
  plain : ∀ {scope s t}, R scope s t → s.Plain ∧ t.Plain
  symm : ∀ {scope s t}, R scope s t → R scope t s
  params : ∀ {scope s t p q}, R scope s t → p ∈ s.params → q ∈ t.params → R scope p q
  all : ∀ {scope names body body'}, R scope (.all names body) (.all names body') →
    (∀ x ∈ names, x ∉ vars) ∧ R (scope ++ names) body body'
  var : ∀ {scope name t}, R scope (.var name) t → name ∈ vars → G t ∧
    (∀ up, G (t.eliminate scope up)) ∧ (t.eliminateDown scope).isSubtype t = true ∧
    t.isSubtype (t.eliminateUp scope) = true

section

variable {R : List String → Ty → Ty → Prop} {scope : List String} {name : String}

/-- The upper bound that a variable gets from a comparison with `t` forces it below `t`. -/
theorem forces_var_left (hG : Stock vars G) (hR : Suits vars G R) (hmem : name ∈ vars)
    (h : R scope (.var name) t) :
    Forces vars G H (single name (.between never (t.eliminateDown scope))) (.var name) t := by
  obtain ⟨ht, helim, hdown, -⟩ := hR.var h hmem
  refine ⟨among_single hmem ⟨hG.never, helim false⟩, fun σ hσ hS ↦ ?_⟩
  rw [hG.subst_eq ht hσ]
  exact isSubtype_trans (hG.plain (helim false)).static (satisfiedBy_single hS).2 hdown

theorem forces_var_right (hG : Stock vars G) (hR : Suits vars G R) (hmem : name ∈ vars)
    (h : R scope s (.var name)) :
    Forces vars G H (single name (.between (s.eliminateUp scope) any)) s (.var name) := by
  obtain ⟨hs, helim, -, hup⟩ := hR.var (hR.symm h) hmem
  refine ⟨among_single hmem ⟨helim true, hG.any⟩, fun σ hσ hS ↦ ?_⟩
  rw [hG.subst_eq hs hσ]
  exact isSubtype_trans (hG.plain (helim true)).static hup (satisfiedBy_single hS).1

/-- If `R scope s t` for a condition that `Suits`, the constraints generated for `s` and `t` force
the first to be a subtype of the second. -/
theorem forces_of_generate {s t : Ty} {scope : List String} {S : ConstraintSet} (hG : Stock vars G)
    (hH : ∀ {t}, H t → t.Plain) (hR : Suits vars G R) (hst : R scope s t)
    (h : generate vars scope s t = some S) : Forces vars G H S s t := by
  obtain ⟨hs, ht⟩ := hR.plain hst
  cases generates_of_generate h with
  | untyped hu => exact absurd hu (by simp [hs.static.not_isUntyped, ht.static.not_isUntyped])
  | isSubtype hsub => exact ⟨among_empty, fun σ _ _ ↦ isSubtype_subst σ hsub⟩
  | left hmem => exact forces_var_left hG hR hmem hst
  | right hmem => exact forces_var_right hG hR hmem hst
  | all hbody =>
    obtain ⟨hnames, hst⟩ := hR.all hst
    exact forces_all hnames (forces_of_generate hG hH hR hst hbody)
  | con hlen hparams hmeet =>
    refine forces_con hG hH hlen (built_con.1 hs).2 (built_con.1 ht).2
      (fun p hp q hq S ↦ ?_) hparams hmeet
    have hpq := hR.params hst hp hq
    exact ⟨forces_of_generate hG hH hR hpq, forces_of_generate hG hH hR (hR.symm hpq)⟩
  | variadic hps hqs hne hacc hspread hlast hmeet =>
    refine forces_variadic hG hH hps hqs (built_variadic.1 hs).2 (built_con.1 ht).2 hne hacc
      (fun p hp q hq S ↦ ?_) hspread hlast hmeet
    have hpq := hR.params hst hp hq
    exact ⟨forces_of_generate hG hH hR hpq, forces_of_generate hG hH hR (hR.symm hpq)⟩
  | spelt => exact absurd rfl (built_con.1 ht).1.2.1
termination_by sizeOf s + sizeOf t
decreasing_by
  all_goals subst_vars
  any_goals
    have := List.sizeOf_lt_of_mem hp
    have := List.sizeOf_lt_of_mem hq
    simp; omega
  simp; omega

end

/-- A condition that `Suits`: there is nothing to solve for, or one of the types is from the stock,
one has no quantifiers, and the scope is empty. -/
def Solvable (vars scope : List String) (G : Ty → Prop) (s t : Ty) : Prop :=
  vars = [] ∨ scope = [] ∧ (G s ∨ G t) ∧ (s.QuantifierFree ∨ t.QuantifierFree)

theorem suits_solvable (hG : Stock vars G) :
    Suits vars G fun scope s t ↦ (s.Plain ∧ t.Plain) ∧ Solvable vars scope G s t where
  plain h := h.1
  symm h := ⟨h.1.symm, h.2.imp_right fun ⟨hscope, hside, hfree⟩ ↦ ⟨hscope, hside.symm, hfree.symm⟩⟩
  params h hp hq := by
    refine ⟨⟨h.1.1.of_mem_params hp, h.1.2.of_mem_params hq⟩, h.2.imp_right ?_⟩
    rintro ⟨hscope, hside, hfree⟩
    exact ⟨hscope, hside.imp (hG.param · hp) (hG.param · hq),
      hfree.imp (Built.of_mem_params · hp) (Built.of_mem_params · hq)⟩
  all h := by
    obtain ⟨⟨hs, ht⟩, hsolve⟩ := h
    have hvars : vars = [] := hsolve.resolve_right fun hfree ↦
      hfree.2.2.elim (fun h ↦ (built_all.1 h).1 rfl) fun h ↦ (built_all.1 h).1 rfl
    exact ⟨by simp [hvars], ⟨(built_all.1 hs).2, (built_all.1 ht).2⟩, .inl hvars⟩
  var {scope name t} h hmem := by
    obtain ⟨rfl, hside, -⟩ := h.2.resolve_left (List.ne_nil_of_mem hmem)
    have ht := hside.resolve_left fun hs ↦ hG.notMem hs name (by simp) hmem
    have helim : ∀ up, t.eliminate [] up = t := eliminate_eq_self (by simp)
    simp only [eliminateDown, eliminateUp, helim]
    exact ⟨ht, fun _ ↦ ht, isSubtype_refl t, isSubtype_refl t⟩

/-- The constraints generated for `Solvable` types force the first to be a subtype of the second. -/
theorem generate_sound {scope : List String} (hG : Stock vars G) (hs : s.Plain) (ht : t.Plain)
    (hsolve : Solvable vars scope G s t) (h : generate vars scope s t = some S) :
    Forces vars G G S s t :=
  forces_of_generate hG hG.plain (suits_solvable hG) ⟨⟨hs, ht⟩, hsolve⟩ h

/-! ## Solutions -/

theorem mem_insertName {name n : String} {names : List String} :
    name ∈ insertName n names ↔ name = n ∨ name ∈ names := by
  induction names with
  | nil => simp [insertName]
  | cons m names ih =>
    rw [insertName]
    split
    · rw [List.mem_cons]
    · split
      · next hnm => simp [hnm]
      · rw [List.mem_cons, ih, List.mem_cons, or_left_comm]

theorem mem_sortedNames {name : String} {names : List String} :
    name ∈ sortedNames names ↔ name ∈ names := by
  induction names with
  | nil => rfl
  | cons n names ih =>
    rw [sortedNames, List.foldr_cons, mem_insertName, ← sortedNames, ih, List.mem_cons]

/-- `S.completed names` keeps the constraints of `S` and adds `.top` for the other `names`. -/
theorem get?_completed (S : ConstraintSet) (names : List String) (name : String) :
    (S.completed names).get? name =
      (S.get? name).or (if name ∈ names then some .top else none) := by
  have hfold : ∀ (l : List String) (S : ConstraintSet),
      (l.foldl (fun s name ↦ if s.contains name then s else s.insert name .top) S).get? name =
        (S.get? name).or (if name ∈ l then some .top else none) := by
    intro l
    induction l with
    | nil => simp
    | cons k l ih =>
      intro S
      have hstep : (if S.contains k then S else S.insert k .top).get? name =
          (S.get? name).or (if name = k then some .top else none) := by
        rw [OrdMap.contains]
        split
        · rename_i hk
          by_cases hname : name = k
          · subst hname
            obtain ⟨c, hc⟩ := Option.isSome_iff_exists.1 hk
            simp [hc]
          · simp [hname]
        · rename_i hk
          rw [OrdMap.get?_insert]
          by_cases hname : name = k
          · subst hname
            simp_all
          · simp [hname, Ne.symm hname]
      rw [List.foldl_cons, ih, hstep, Option.or_assoc]
      by_cases hname : name = k <;> simp [hname]
  rw [completed, hfold]
  simp only [mem_sortedNames]

theorem choose_mem {c : Constraint} {usage : Usage} (h : c.Among G) : G (c.choose usage) := by
  match c, h with
  | .between l u, ⟨hl, hu⟩ =>
    rw [Constraint.choose]
    split
    · exact hu
    · exact hl

theorem holds_choose {c : Constraint} {usage : Usage} (hsat : c.isSatisfiable = true) :
    c.Holds (c.choose usage) := by
  cases c with
  | equal t => rfl
  | untyped => trivial
  | between lower upper =>
    rw [Constraint.choose]
    split
    · exact ⟨hsat, isSubtype_refl upper⟩
    · exact ⟨isSubtype_refl lower, hsat⟩

/-- `S.minimal goal` succeeds exactly if every constraint of `S` is satisfiable. -/
theorem isSome_minimal {goal : Ty} : (S.minimal goal).isSome = S.isSatisfiable := by
  rw [minimal]
  split <;> simp_all

/-- `S.minimal goal` chooses types for the constrained variables and for those of the goal. -/
theorem get?_of_minimal {goal : Ty} (h : S.minimal goal = some σ) (name : String) :
    σ.get? name = ((S.get? name).or (if name ∈ goal.freeVars then some .top else none)).map
      (·.choose (goal.usage name)) := by
  rw [minimal] at h
  split at h
  · cases h
    rw [OrdMap.get?, OrdMap.lookup_mapEntries fun name c ↦ Constraint.choose (goal.usage name) c,
      ← get?_completed]
    rfl
  · cases h

/-- `get?_of_minimal`, restricted to `vars`. -/
theorem get?_minimal {goal : Ty} (vars : List String) (h : S.minimal goal = some σ)
    (name : String) :
    (σ.filterKeys vars.contains).get? name = if name ∈ vars then
      ((S.get? name).or (if name ∈ goal.freeVars then some .top else none)).map
        (·.choose (goal.usage name)) else none := by
  rw [OrdMap.get?_filterKeys, get?_of_minimal h]
  simp only [List.contains_iff_mem]

/-- The restriction of `S.minimal goal` to `vars` is a choice from `G`, satisfies `S`, and leaves
none of `vars` free in the goal. -/
theorem minimal_sound {goal : Ty} (hG : Supply vars G) (hS : S.Among vars G)
    (h : S.minimal goal = some σ) :
    Choice vars G (σ.filterKeys vars.contains) ∧ S.SatisfiedBy (σ.filterKeys vars.contains) ∧
      ∀ x ∈ (goal.subst (σ.filterKeys vars.contains)).freeVars, x ∉ vars := by
  have hsat : S.isSatisfiable = true := by rw [← isSome_minimal, h, Option.isSome_some]
  have hget := get?_minimal vars h
  generalize σ.filterKeys vars.contains = τ at hget ⊢
  have hchoice : Choice vars G τ := by
    intro name u hu
    rw [hget] at hu
    split at hu
    · rename_i hname
      obtain ⟨c, hc, rfl⟩ := Option.map_eq_some_iff.1 hu
      refine ⟨hname, choose_mem ?_⟩
      cases hS' : S.get? name with
      | none =>
        rw [hS', Option.none_or] at hc
        split at hc
        · cases hc
          exact Constraint.among_top hG
        · cases hc
      | some c' =>
        rw [hS', Option.some_or] at hc
        cases hc
        exact (hS name c hS').2
    · cases hu
  refine ⟨hchoice, fun name ↦ ?_, fun x hx hmem ↦ ?_⟩
  · rw [ConstraintSet.on]
    cases hS' : S.get? name with
    | none => exact Constraint.holds_top _
    | some c =>
      obtain ⟨hname, -⟩ := hS name c hS'
      rw [subst_var, hget, if_pos hname, hS', Option.some_or, Option.map_some, Option.getD_some,
        Option.getD_some]
      exact holds_choose (List.all_eq_true.1 hsat c (OrdMap.mem_values_of_get? hS'))
  · rcases mem_freeVars_subst hx with ⟨hgoal, hnone⟩ | ⟨name, -, u, hu, hxu⟩
    · rw [hget, if_pos hmem, if_pos hgoal] at hnone
      cases hS' : S.get? x <;> simp [hS'] at hnone
    · exact hG.notMem (hchoice name u hu).2 x hxu hmem

/-- The sets of `ofArguments` force every argument to be a subtype of its parameter. -/
theorem ofArguments_sound {qs : List (Ty × Ty)} {i : Nat} {Ss : List ConstraintSet}
    (hG : Stock vars G) (hqs : ∀ q ∈ qs, G q.1 ∧ q.2.Plain ∧ (vars = [] ∨ q.2.QuantifierFree))
    (h : ofArguments vars i qs = .ok Ss) :
    (∀ S ∈ Ss, S.Among vars G) ∧ ∀ σ, Choice vars G σ → (∀ S ∈ Ss, S.SatisfiedBy σ) →
      ∀ q ∈ qs, q.1.isSubtype (q.2.subst σ) = true := by
  induction qs generalizing i Ss with
  | nil =>
    cases h
    exact ⟨nofun, fun _ _ _ ↦ nofun⟩
  | cons q qs ih =>
    obtain ⟨a, p⟩ := q
    rw [List.forall_mem_cons] at hqs
    rw [ofArguments] at h
    split at h
    · cases h
    · rename_i S hS
      cases hrest : ofArguments vars (i + 1) qs with
      | error e =>
        rw [hrest] at h
        cases h
      | ok Ss' =>
        rw [hrest] at h
        cases h
        obtain ⟨ha, hp, hfree⟩ := hqs.1
        have hforces := generate_sound hG (hG.plain ha) hp
          (hfree.imp_right fun hfree ↦ ⟨rfl, .inl ha, .inr hfree⟩) hS
        obtain ⟨hamong, hsub⟩ := ih hqs.2 hrest
        refine ⟨List.forall_mem_cons.2 ⟨hforces.among, hamong⟩, fun σ hσ hsat ↦ ?_⟩
        rw [List.forall_mem_cons] at hsat ⊢
        have hsub' := hforces.isSubtype σ hσ hsat.1
        rw [hG.subst_eq ha hσ] at hsub'
        exact ⟨hsub', hsub σ hσ hsat.2⟩

end ConstraintSet

/-! ## Calls -/

/-- The type of a call is `result.subst σ` for a choice `σ` from the stock under which every
argument is a subtype of its parameter. -/
theorem exists_subst_of_callResult {args params : List Ty} {result R : Ty} (hG : Stock vars G)
    (hargs : ∀ a ∈ args, G a) (hparams : ∀ p ∈ params, p.Plain)
    (hfree : vars = [] ∨ ∀ p ∈ params, p.QuantifierFree)
    (h : callResult vars args params result = .result R) :
    ∃ σ : Subst, Choice vars G σ ∧
      (∀ q ∈ args.zip params, q.1.isSubtype (q.2.subst σ) = true) ∧ R = result.subst σ ∧
      ∀ x ∈ R.freeVars, x ∉ vars := by
  rw [callResult] at h
  split at h
  · cases h
  · rename_i sets hsets
    split at h
    · cases h
    · rename_i σ hσ
      cases h
      obtain ⟨S, hmeet, hminimal⟩ := Option.bind_eq_some_iff.1 hσ
      have hzip : ∀ q ∈ args.zip params, G q.1 ∧ q.2.Plain ∧ (vars = [] ∨ q.2.QuantifierFree) := by
        intro q hq
        obtain ⟨ha, hp⟩ := List.of_mem_zip hq
        exact ⟨hargs _ ha, hparams _ hp, hfree.imp_right fun h ↦ h _ hp⟩
      obtain ⟨hamong, hsub⟩ := ConstraintSet.ofArguments_sound hG hzip hsets
      obtain ⟨hS, hsat⟩ := ConstraintSet.meetAll_sound hG hamong hmeet
      obtain ⟨hchoice, hSσ, hvars⟩ := ConstraintSet.minimal_sound hG.toSupply hS hminimal
      have helim := eliminate_eq_self hvars true
      refine ⟨σ.filterKeys vars.contains, hchoice, hsub _ hchoice (hsat _ hSσ), helim,
        fun x hx ↦ ?_⟩
      rw [eliminateUp, helim] at hx
      exact hvars x hx

/-- **Polymorphic calls are sound.**  Let the types of the arguments be plain and not mention the
quantified `vars`, and let those of the parameters be plain and without quantifiers.  Then the type
of a call is `result.subst σ` for a substitution `σ` of `vars` under which every argument is a
subtype of its parameter, and none of `vars` is free in it. -/
theorem callResult_sound {args params : List Ty} {result R : Ty}
    (hargs : ∀ a ∈ args, a.Plain ∧ ∀ x ∈ a.freeVars, x ∉ vars)
    (hparams : ∀ p ∈ params, p.Plain ∧ p.QuantifierFree)
    (h : callResult vars args params result = .result R) :
    ∃ σ : Subst, (∀ name t, σ.get? name = some t → name ∈ vars ∧ t.Plain) ∧
      (∀ q ∈ args.zip params, q.1.isSubtype (q.2.subst σ) = true) ∧ R = result.subst σ ∧
      ∀ x ∈ R.freeVars, x ∉ vars := by
  obtain ⟨σ, hσ, hsub⟩ := exists_subst_of_callResult (stock_fixed vars)
    (fun a ha ↦ ⟨(hargs a ha).1, (hargs a ha).2⟩) (fun p hp ↦ (hparams p hp).1)
    (.inr fun p hp ↦ (hparams p hp).2) h
  exact ⟨σ, fun name t ht ↦ (hσ name t ht).imp_right (·.plain), hsub⟩

/-- A variadic function is passed for a function of one argument.  `A` is bounded from both sides
and takes its upper bound, because the result uses it as an argument. -/
theorem callResult_sound_variadic :
    callResult ["A", "B"] [.variadic none none [number, string], list integer]
        [function [.var "A", .var "B"], list (.var "A")] (function [.var "A", list (.var "B")]) =
      .result (function [number, list string]) ∧
    ∃ σ : Subst, (∀ name t, σ.get? name = some t → name ∈ ["A", "B"] ∧ t.Plain) ∧
      (∀ q ∈ [Ty.variadic none none [number, string], list integer].zip
        [function [.var "A", .var "B"], list (.var "A")], q.1.isSubtype (q.2.subst σ) = true) ∧
      function [number, list string] = (function [.var "A", list (.var "B")]).subst σ ∧
      ∀ x ∈ (function [number, list string]).freeVars, x ∉ ["A", "B"] := by
  have hrun : callResult ["A", "B"] [.variadic none none [number, string], list integer]
      [function [.var "A", .var "B"], list (.var "A")] (function [.var "A", list (.var "B")]) =
      .result (function [number, list string]) := by decide +kernel
  exact ⟨hrun, callResult_sound (by decide +kernel) (by decide +kernel) hrun⟩

end SchemeTyping
