import SchemeTyping.Proofs.Constraint
import SchemeTyping.Proofs.Ty.Lattice

/-!
# The comparisons behind constraints

`generate` compares two types, then their parameters, and so on down to the pairs that are subtypes
without a substitution and to the variables that are solved for.  `Ty.parts` are the pairs that one
comparison leads to, and `Ty.comparisons` all the pairs that are reached.

## What is here

* `Ty.forall_mem_comparisons` — what one comparison hands down to its parts holds of all
  comparisons.
* `ConstraintSet.exists_generate` — `generate` succeeds if every comparison is `Feasible` and the
  bounds of the variables have meets.
* `ConstraintSet.isSome_of_mem_comparisons` — `generate` succeeds for two types only if it does for
  all their comparisons.
* `ConstraintSet.Solved` — the comparisons that a substitution solves.
-/

set_option autoImplicit false

namespace SchemeTyping

open Ty

/-! ## The pairs -/

/-- The comparisons of two parameters of the given variance. -/
def Variance.pairs : Variance → Ty → Ty → List (Ty × Ty)
  | .covariant, p, q => [(p, q)]
  | .contravariant, p, q => [(q, p)]
  | .invariant, p, q => [(p, q), (q, p)]

namespace Ty

variable {s t : Ty} {ps qs : List Ty} {c : Ty × Ty}

/-- The comparisons of the parameters of a constructor. -/
def paramPairs : List Variance → List Ty → List Ty → List (Ty × Ty)
  | v :: vs, p :: ps, q :: qs => v.pairs p q ++ paramPairs vs ps qs
  | _, _, _ => []

/-- The comparisons of the argument types `qs` with `ps`, whose last one is repeated. -/
def spreadPairs : List Ty → List Ty → List (Ty × Ty)
  | p :: p' :: ps, q :: qs => (q, p) :: spreadPairs (p' :: ps) qs
  | [p], q :: qs => (q, p) :: spreadPairs [p] qs
  | _, _ => []

/-- The comparisons that the comparison of two plain types leads to. -/
def parts : Ty → Ty → List (Ty × Ty)
  | .con tag ps, .con tag' qs =>
    if tag = tag' ∧ ps.length = qs.length then paramPairs (Variance.ofTag tag ps.length) ps qs
    else []
  | .variadic _ _ ps, .con tag qs =>
    if tag = "Function" then
      spreadPairs (arguments ps) (arguments qs) ++ ps.getLast?.toList.zip qs.getLast?.toList
    else []
  | _, _ => []

theorem mem_paramPairs {vs : List Variance} :
    c ∈ paramPairs vs ps qs ↔ ∃ r ∈ vs.zip (ps.zip qs), c ∈ r.1.pairs r.2.1 r.2.2 := by
  induction vs generalizing ps qs with
  | nil => simp [paramPairs]
  | cons v vs ih =>
    rcases ps with _ | ⟨p, ps⟩
    · simp [paramPairs]
    rcases qs with _ | ⟨q, qs⟩
    · simp [paramPairs]
    rw [paramPairs, List.mem_append, ih, List.zip_cons_cons, List.zip_cons_cons,
      List.exists_mem_cons_iff]

theorem mem_of_mem_paramPairs {vs : List Variance} (h : c ∈ paramPairs vs ps qs) :
    c.1 ∈ ps ∧ c.2 ∈ qs ∨ c.1 ∈ qs ∧ c.2 ∈ ps := by
  obtain ⟨⟨v, p, q⟩, hr, hc⟩ := mem_paramPairs.1 h
  obtain ⟨hp, hq⟩ := List.of_mem_zip (List.of_mem_zip hr).2
  cases v <;> simp only [Variance.pairs, List.mem_cons, List.not_mem_nil, or_false] at hc
  · exact .inl (hc ▸ ⟨hp, hq⟩)
  · exact .inr (hc ▸ ⟨hq, hp⟩)
  · rcases hc with rfl | rfl
    · exact .inl ⟨hp, hq⟩
    · exact .inr ⟨hq, hp⟩

/-- `spreadPairs` is `paramPairs` on `stretch qs.length ps`, with all parameters contravariant. -/
theorem spreadPairs_eq_paramPairs (ps qs : List Ty) :
    spreadPairs ps qs =
      paramPairs (.replicate qs.length .contravariant) (stretch qs.length ps) qs := by
  induction qs generalizing ps with
  | nil => rcases ps with _ | ⟨p, _ | ⟨p', ps⟩⟩ <;> rfl
  | cons q qs ih =>
    rcases ps with _ | ⟨p, _ | ⟨p', ps⟩⟩
    · rfl
    all_goals exact congrArg ((q, p) :: ·) (ih _)

/-- The parts of a comparison are parameters of the two types. -/
theorem mem_params_of_mem_parts (h : c ∈ parts s t) :
    c.1 ∈ s.params ∧ c.2 ∈ t.params ∨ c.1 ∈ t.params ∧ c.2 ∈ s.params := by
  unfold parts at h
  split at h
  · split at h
    · exact mem_of_mem_paramPairs h
    · simp at h
  · split at h
    · rw [List.mem_append] at h
      rcases h with h | h
      · rw [spreadPairs_eq_paramPairs] at h
        have hps : ∀ {p ps n}, p ∈ stretch n (arguments ps) → p ∈ ps := fun hp ↦
          List.dropLast_subset _ (mem_of_mem_stretch hp)
        exact (mem_of_mem_paramPairs h).imp (.imp hps (List.dropLast_subset _ ·))
          (.imp (List.dropLast_subset _ ·) hps)
      · obtain ⟨hp, hq⟩ := List.of_mem_zip h
        rw [Option.mem_toList] at hp hq
        exact .inl ⟨List.mem_of_getLast? hp, List.mem_of_getLast? hq⟩
    · simp at h
  · simp at h

theorem built_of_mem_parts {p : Node → Prop} (hs : s.Built p) (ht : t.Built p) (h : c ∈ parts s t) :
    c.1.Built p ∧ c.2.Built p := by
  rcases mem_params_of_mem_parts h with ⟨h₁, h₂⟩ | ⟨h₁, h₂⟩
  · exact ⟨hs.of_mem_params h₁, ht.of_mem_params h₂⟩
  · exact ⟨ht.of_mem_params h₁, hs.of_mem_params h₂⟩

theorem sizeOf_lt_of_mem_parts (h : c ∈ parts s t) :
    sizeOf c.1 + sizeOf c.2 < sizeOf s + sizeOf t := by
  rcases mem_params_of_mem_parts h with ⟨h₁, h₂⟩ | ⟨h₁, h₂⟩
  all_goals
    have := sizeOf_lt_of_mem_params h₁
    have := sizeOf_lt_of_mem_params h₂
    omega

/-- Whether the type is a variadic function. -/
def isVariadic : Ty → Bool
  | .variadic .. => true
  | _ => false

/-- All comparisons of `s` and `t` that are not subtypes as they are. -/
def comparisons (s t : Ty) : List (Ty × Ty) :=
  if s.isSubtype t then []
  else (s, t) :: (parts s t).attach.flatMap fun c ↦ comparisons c.1.1 c.1.2
termination_by sizeOf s + sizeOf t
decreasing_by exact sizeOf_lt_of_mem_parts c.2

theorem mem_comparisons {s t : Ty} {c : Ty × Ty} : c ∈ comparisons s t ↔
    ¬ s.isSubtype t = true ∧ (c = (s, t) ∨ ∃ d ∈ parts s t, c ∈ comparisons d.1 d.2) := by
  rw [comparisons]
  split
  · simp_all
  · simp_all

/-- If the comparison of `s` and `t` hands `R` down to its parts, `R` holds of all comparisons. -/
theorem forall_mem_comparisons {R : Ty → Ty → Prop}
    (hparts : ∀ {s t}, R s t → ¬ s.isSubtype t = true → ∀ c ∈ parts s t, R c.1 c.2) {s t : Ty}
    (h : R s t) : ∀ c ∈ comparisons s t, R c.1 c.2 ∧ ¬ c.1.isSubtype c.2 = true := by
  intro c hc
  obtain ⟨hnot, rfl | ⟨d, hd, hc⟩⟩ := mem_comparisons.1 hc
  · exact ⟨h, hnot⟩
  · exact forall_mem_comparisons hparts (hparts h hnot d hd) c hc
termination_by sizeOf s + sizeOf t
decreasing_by exact sizeOf_lt_of_mem_parts hd

/-- If `R` is symmetric and inherited by parameters, it holds of all comparisons. -/
theorem forall_mem_comparisons_of_params {R : Ty → Ty → Prop} (hsymm : ∀ {s t}, R s t → R t s)
    (hparams : ∀ {s t p q}, R s t → p ∈ s.params → q ∈ t.params → R p q) (h : R s t) :
    ∀ c ∈ comparisons s t, R c.1 c.2 := by
  refine fun c hc ↦ (forall_mem_comparisons (fun {s t} h _ c hc ↦ ?_) h c hc).1
  rcases mem_params_of_mem_parts hc with ⟨hp, hq⟩ | ⟨hp, hq⟩
  · exact hparams h hp hq
  · exact hparams (hsymm h) hp hq

end Ty

/-! ## Meets -/

namespace ConstraintSet

variable {P : String → Constraint → Prop} {S T : ConstraintSet}

/-- A condition on the constraints of every variable under which they have meets that satisfy it
again. -/
structure MeetClosed (P : String → Constraint → Prop) : Prop where
  top : ∀ {name c}, P name c → P name .top
  meet : ∀ {name c c'}, P name c → P name c' → ∃ d, c.meet c' = some d ∧ P name d

/-- Every constraint of the set satisfies `P`. -/
def Within (P : String → Constraint → Prop) (S : ConstraintSet) : Prop := ∀ e ∈ S.entries, P e.1 e.2

theorem Within.of_get? (h : S.Within P) {name : String} {c : Constraint}
    (hc : S.get? name = some c) : P name c :=
  h _ (OrdMap.mem_entries_of_get? hc)

/-- `S.on name` satisfies `P` for every name of `S` and `T`. -/
theorem Within.on (htop : ∀ name c, P name c → P name .top) (hS : S.Within P) (hT : T.Within P)
    {name : String} (hname : name ∈ S.keys ∨ name ∈ T.keys) : P name (S.on name) := by
  rw [ConstraintSet.on]
  cases hc : S.get? name with
  | some c => exact hS.of_get? hc
  | none =>
    cases hc' : T.get? name with
    | some c => exact htop name c (hT.of_get? hc')
    | none =>
      exact absurd hname (not_or.2 ⟨OrdMap.get?_eq_none_iff.1 hc, OrdMap.get?_eq_none_iff.1 hc'⟩)

/-- `S.meet T` succeeds and satisfies `P` if the meets on all names do. -/
theorem exists_meet_of_names
    (h : ∀ name ∈ names S T, ∃ d, (S.on name).meet (T.on name) = some d ∧ P name d) :
    ∃ V, S.meet T = some V ∧ V.Within P := by
  obtain ⟨es, hes, hwithin⟩ : ∃ es, ((names S T).mapM fun name ↦
      ((S.on name).meet (T.on name)).map (name, ·)) = some es ∧ ∀ e ∈ es, P e.1 e.2 := by
    refine exists_mapM_eq_some fun name hname ↦ ?_
    obtain ⟨d, hd, hP⟩ := h name hname
    exact ⟨(name, d), by rw [hd, Option.map_some], hP⟩
  exact ⟨⟨es⟩, by rw [meet, hes, Option.map_some], hwithin⟩

theorem exists_meet (hP : MeetClosed P) (hS : S.Within P) (hT : T.Within P) :
    ∃ V, S.meet T = some V ∧ V.Within P := by
  have htop : ∀ name c, P name c → P name .top := fun _ _ ↦ hP.top
  exact exists_meet_of_names fun name hname ↦
    hP.meet (hS.on htop hT (mem_names.1 hname)) (hT.on htop hS (mem_names.1 hname).symm)

/-- A condition `Q` that gives meets with `Q` gives a `meetAll` with `Q`. -/
theorem exists_meetAll_of_meet {Q : ConstraintSet → Prop} {Ss : List ConstraintSet}
    (hmeet : ∀ {S T}, Q S → Q T → ∃ V, S.meet T = some V ∧ Q V) (hempty : Q ∅)
    (hSs : ∀ S ∈ Ss, Q S) : ∃ V, meetAll Ss = some V ∧ Q V := by
  -- The meet is folded over the sets; `T` is what was met so far.
  have hfold : ∀ T : ConstraintSet, Q T →
      ∃ V, Ss.foldl (fun acc S ↦ acc.bind (meet · S)) (some T) = some V ∧ Q V := by
    induction Ss with
    | nil => exact fun T hT ↦ ⟨T, rfl, hT⟩
    | cons S Ss ih =>
      intro T hT
      rw [List.forall_mem_cons] at hSs
      obtain ⟨U, hU, hQ⟩ := hmeet hT hSs.1
      rw [List.foldl_cons, Option.bind_some, hU]
      exact ih hSs.2 U hQ
  exact hfold ∅ hempty

theorem exists_meetAll {Ss : List ConstraintSet} (hP : MeetClosed P) (hSs : ∀ S ∈ Ss, S.Within P) :
    ∃ V, meetAll Ss = some V ∧ V.Within P :=
  exists_meetAll_of_meet (exists_meet hP) nofun hSs

theorem within_single {name : String} {c : Constraint} (h : P name c) :
    (single name c).Within P := by
  intro e he
  obtain rfl : e = (name, c) := by simpa [single] using he
  exact h

/-! ## When `generate` succeeds -/

variable {vars : List String} {s t : Ty}

/-- How a comparison continues: one of `vars` gets a bound that satisfies `P`, or the two types have
parameters to compare. -/
inductive Feasible (vars : List String) (P : String → Constraint → Prop) : Ty → Ty → Prop
  | left {name : String} {t : Ty} (hname : name ∈ vars) (h : P name (.between never t)) :
    Feasible vars P (.var name) t
  | right {s : Ty} {name : String} (hs : varAmong? vars s = none) (hname : name ∈ vars)
    (h : P name (.between s any)) : Feasible vars P s (.var name)
  | con {tag : String} {ps qs : List Ty} (hlen : ps.length = qs.length) :
    Feasible vars P (.con tag ps) (.con tag qs)
  | variadic {min max : Option Int} {ps qs : List Ty} (hqs : qs ≠ []) (hne : arguments ps ≠ [])
    (haccepts : (Ty.variadic min max ps).accepts (arguments qs).length = true) :
    Feasible vars P (.variadic min max ps) (.con "Function" qs)

theorem exists_generateParam {scope : List String} {v : Variance} {p q : Ty} (hP : MeetClosed P)
    (h : ∀ c ∈ v.pairs p q, ∃ S, generate vars scope c.1 c.2 = some S ∧ S.Within P) :
    ∃ S, generateParam vars scope v p q = some S ∧ S.Within P := by
  cases v with
  | covariant => exact h (p, q) List.mem_cons_self
  | contravariant => exact h (q, p) List.mem_cons_self
  | invariant =>
    obtain ⟨S, hS, hS'⟩ := h (p, q) (by simp [Variance.pairs])
    obtain ⟨T, hT, hT'⟩ := h (q, p) (by simp [Variance.pairs])
    obtain ⟨V, hV, hV'⟩ := exists_meet hP hS' hT'
    exact ⟨V, by simp [generateParam, hS, hT, hV], hV'⟩

theorem exists_generateParams {scope : List String} {vs : List Variance} {ps qs : List Ty}
    (hP : MeetClosed P)
    (h : ∀ c ∈ paramPairs vs ps qs, ∃ S, generate vars scope c.1 c.2 = some S ∧ S.Within P) :
    ∃ Ss, generateParams vars scope vs ps qs = some Ss ∧ ∀ S ∈ Ss, S.Within P := by
  rw [generateParams_eq_mapM]
  exact exists_mapM_eq_some fun r hr ↦
    exists_generateParam hP fun c hc ↦ h c (mem_paramPairs.2 ⟨r, hr, hc⟩)

/-- `generate` succeeds if every comparison is `Feasible`, and its set satisfies `P`. -/
theorem exists_generate {s t : Ty} (hP : MeetClosed P) (hs : s.Static) (ht : t.Static)
    (h : ∀ c ∈ comparisons s t, Feasible vars P c.1 c.2) :
    ∃ S, generate vars [] s t = some S ∧ S.Within P := by
  unfold generate
  rw [if_neg (by simp [hs.not_isUntyped, ht.not_isUntyped])]
  by_cases hnot : s.isSubtype t = true
  · rw [if_pos hnot]
    exact ⟨∅, rfl, nofun⟩
  rw [if_neg hnot]
  have ih : ∀ c ∈ parts s t, ∃ S, generate vars [] c.1 c.2 = some S ∧ S.Within P := fun c hc ↦ by
    obtain ⟨hs', ht'⟩ := built_of_mem_parts hs ht hc
    exact exists_generate hP hs' ht' fun d hd ↦
      h d (mem_comparisons.2 ⟨hnot, .inr ⟨c, hc, hd⟩⟩)
  cases h _ (mem_comparisons.2 ⟨hnot, .inl rfl⟩) with
  | left hname h =>
    rw [varAmong?, if_pos (List.contains_iff_mem.2 hname)]
    refine ⟨_, rfl, within_single ?_⟩
    rwa [eliminateDown, eliminate_eq_self (by simp)]
  | right hs hname h =>
    rw [hs, varAmong?, if_pos (List.contains_iff_mem.2 hname)]
    refine ⟨_, rfl, within_single ?_⟩
    rwa [eliminateUp, eliminate_eq_self (by simp)]
  | con hlen =>
    rw [parts, if_pos ⟨rfl, hlen⟩] at ih
    obtain ⟨Ss, hSs, hwithin⟩ := exists_generateParams hP ih
    obtain ⟨V, hV, hV'⟩ := exists_meetAll hP hwithin
    refine ⟨V, ?_, hV'⟩
    simp only [varAmong?, hlen, decide_true, Bool.and_self, if_true]
    rw [← hlen, hSs]
    exact hV
  | @variadic min max ps qs hqs hne hacc =>
    have hps : ps ≠ [] := fun h ↦ hne (by rw [h]; rfl)
    rw [parts, if_pos rfl, List.forall_mem_append, spreadPairs_eq_paramPairs] at ih
    obtain ⟨Ss, hSs, hwithin⟩ := exists_generateParams hP ih.1
    rw [← generateSpread_eq_generateParams] at hSs
    obtain ⟨S, hS, hS'⟩ := ih.2 (ps.getLast hps, qs.getLast hqs) (by
      simp [List.getLast?_eq_some_getLast hps, List.getLast?_eq_some_getLast hqs])
    have hall : ∀ T ∈ Ss ++ [S], T.Within P := by
      rw [List.forall_mem_append, List.forall_mem_singleton]
      exact ⟨hwithin, hS'⟩
    obtain ⟨V, hV, hV'⟩ := exists_meetAll hP hall
    refine ⟨V, ?_, hV'⟩
    simp only [varAmong?, if_true, dif_pos (And.intro hps hqs), hacc,
      List.isEmpty_eq_false_iff.2 hne,
      Bool.not_false, Bool.and_self]
    rw [hSs, hS]
    exact hV
termination_by sizeOf s + sizeOf t
decreasing_by exact sizeOf_lt_of_mem_parts hc

/-! ## What success says of the comparisons -/

theorem isSome_of_mem_pairs {scope : List String} {v : Variance} {p q : Ty} {S : ConstraintSet}
    (h : generateParam vars scope v p q = some S) :
    ∀ c ∈ v.pairs p q, (generate vars scope c.1 c.2).isSome = true := by
  cases v with
  | covariant | contravariant => exact List.forall_mem_singleton.2 (Option.isSome_of_mem h)
  | invariant =>
    simp only [generateParam, Option.bind_eq_bind, Option.bind_eq_some_iff] at h
    obtain ⟨S₁, hS₁, S₂, hS₂, -⟩ := h
    simp [Variance.pairs, hS₁, hS₂]

theorem isSome_of_mem_paramPairs {scope : List String} {vs : List Variance} {ps qs : List Ty}
    {Ss : List ConstraintSet} (h : generateParams vars scope vs ps qs = some Ss) :
    ∀ c ∈ paramPairs vs ps qs, (generate vars scope c.1 c.2).isSome = true := by
  intro c hc
  obtain ⟨r, hr, hc⟩ := mem_paramPairs.1 hc
  rw [generateParams_eq_mapM, mapM_eq_some_iff] at h
  obtain ⟨S, -, hS⟩ := exists_mem_of_forall₂ h hr
  exact isSome_of_mem_pairs hS c hc

/-- `generate` succeeds for plain types only if it does for their `parts`. -/
theorem isSome_of_mem_parts (hs : s.Plain) (ht : t.Plain) (hnot : ¬ s.isSubtype t = true)
    (h : (generate vars [] s t).isSome = true) :
    ∀ c ∈ parts s t, (generate vars [] c.1 c.2).isSome = true := by
  obtain ⟨S, hS⟩ := Option.isSome_iff_exists.1 h
  cases generates_of_generate hS with
  | untyped hu => exact absurd hu (by simp [hs.static.not_isUntyped, ht.static.not_isUntyped])
  | isSubtype hsub => exact absurd hsub hnot
  | left => simp [parts]
  | right => simp [parts]
  | all => simp [parts]
  | con hlen hparams =>
    rw [parts, if_pos ⟨rfl, hlen⟩]
    exact isSome_of_mem_paramPairs hparams
  | variadic hps hqs hne hacc hspread hlast =>
    rw [generateSpread_eq_generateParams] at hspread
    rw [parts, if_pos rfl, List.forall_mem_append, spreadPairs_eq_paramPairs]
    refine ⟨isSome_of_mem_paramPairs hspread, ?_⟩
    simp [List.getLast?_eq_some_getLast hps, List.getLast?_eq_some_getLast hqs, hlast]
  | spelt => exact absurd rfl (built_con.1 ht).1.2.1

/-- `generate` succeeds for plain types only if it does for all their `comparisons`. -/
theorem isSome_of_mem_comparisons (hs : s.Plain) (ht : t.Plain)
    (h : (generate vars [] s t).isSome = true) :
    ∀ c ∈ comparisons s t, (generate vars [] c.1 c.2).isSome = true := by
  have hall := forall_mem_comparisons
    (R := fun s t ↦ (s.Plain ∧ t.Plain) ∧ (generate vars [] s t).isSome = true)
    (fun ⟨⟨hs, ht⟩, h⟩ hnot c hc ↦
      ⟨built_of_mem_parts hs ht hc, isSome_of_mem_parts hs ht hnot h c hc⟩)
    ⟨⟨hs, ht⟩, h⟩
  exact fun c hc ↦ (hall c hc).1.2

/-! ## Comparisons that a substitution solves -/

variable {σ : Subst} {ps qs : List Ty}

/-- A substitution of `vars` keeps the head of a type other than one of `vars`. -/
theorem head_subst {G : Ty → Prop} (h : varAmong? vars t = none) (hσ : Choice vars G σ) :
    (t.subst σ).head = t.head := by
  cases t with
  | var name =>
    have hname : name ∉ vars := by simpa [varAmong?] using h
    rw [subst_eq_self fun x hx ↦ ?_]
    cases hget : σ.get? x with
    | none => rfl
    | some u => exact absurd (hσ x u hget).1 (by simp_all)
  | unknown id => rfl
  | con tag ps => rw [subst_con, head, head, List.length_map]
  | variadic min max ps => rw [subst_variadic, head, head, List.length_map]
  | all bound body => rfl

theorem hasTag_congr (h : s.head = t.head) (tag : String) : s.hasTag tag = t.hasTag tag := by
  cases s <;> cases t <;> simp_all [head, hasTag, Ty.tag?]

/-- If `con tag ps` is a subtype of `con tag qs` and neither is an extreme type, the parameters are
`Related`. -/
theorem related_of_isSubtype {tag : String} (hs : (con tag ps).Static)
    (ht : (con tag qs).Static) (hnever : ¬ (con tag ps).hasTag "Never" = true)
    (hany : ¬ (con tag qs).hasTag "Any" = true) (h : (con tag ps).isSubtype (con tag qs) = true) :
    Related (Variance.ofTag tag ps.length) ps qs := by
  cases isSubtype_iff_below.1 h with
  | untypedLeft h => exact absurd h hs.not_isUntyped
  | untypedRight h => exact absurd h ht.not_isUntyped
  | refl =>
    intro i v p q _ hp hq
    obtain rfl : p = q := Option.some.inj (hp.symm.trans hq)
    cases v
    · exact isSubtype_refl p
    · exact isSubtype_refl p
    · rfl
  | never h => exact absurd h hnever
  | any h => exact absurd h hany
  | nominal hname => exact absurd hname (nominal_asymm hname)
  | con _ hrel => exact hrel

/-- Two types with parameters whose comparisons `σ` solves. -/
inductive Matched (σ : Subst) : Ty → Ty → Prop
  | con {tag : String} {ps qs : List Ty} (hlen : ps.length = qs.length)
    (h : Related (Variance.ofTag tag ps.length) (ps.map (subst σ)) (qs.map (subst σ))) :
    Matched σ (.con tag ps) (.con tag qs)
  | variadic {min max : Option Int} {ps qs : List Ty} (hqs : qs ≠ []) (hne : arguments ps ≠ [])
    (haccepts : (Ty.variadic min max ps).accepts (arguments qs).length = true)
    (hresult : ∀ p ∈ ps.getLast?, ∀ q ∈ qs.getLast?, (p.subst σ).isSubtype (q.subst σ) = true)
    (hargs : Spreads ((arguments ps).map (subst σ)) ((arguments qs).map (subst σ))) :
    Matched σ (.variadic min max ps) (.con "Function" qs)
  | variadics {min max : Option Int} {ps qs : List Ty} :
    Matched σ (.variadic min max ps) (.variadic min max qs)

/-- `s` and `t` are static and without quantifiers, and `s.subst σ` is a subtype of `t.subst σ`. -/
structure Solved (σ : Subst) (s t : Ty) : Prop where
  static : s.Static ∧ t.Static
  quantifierFree : s.QuantifierFree ∧ t.QuantifierFree
  isSubtype : (s.subst σ).isSubtype (t.subst σ) = true

/-- If a variadic function is a subtype of a function only under `σ`, the two are `Matched`. -/
theorem matched_variadic {min max : Option Int}
    (h : ((Ty.variadic min max ps).subst σ).isSubtype ((Ty.con "Function" qs).subst σ) = true)
    (hnot : ¬ (Ty.variadic min max ps).isSubtype (.con "Function" qs) = true) :
    Matched σ (.variadic min max ps) (.con "Function" qs) := by
  rw [subst_variadic, subst_con] at h
  cases isSubtype_iff_below.1 h with
  | untypedLeft h => simp [isUntyped, hasTag, Ty.tag?] at h
  | untypedRight h => simp [isUntyped, hasTag, Ty.tag?] at h
  | never h => simp [hasTag, Ty.tag?] at h
  | any h => simp [hasTag, Ty.tag?] at h
  | variadic hne hacc hresult hargs =>
    have hne' : arguments ps ≠ [] := by simpa [arguments_map] using hne
    have hacc' : (Ty.variadic min max ps).accepts (arguments qs).length = true := by
      rwa [arguments_map, List.length_map, accepts_map] at hacc
    refine .variadic (fun hqs ↦ hnot ?_) hne' hacc' (fun p hp q hq ↦ ?_) ?_
    · -- Without a result to compare, it is below the function as it stands.
      subst hqs
      exact isSubtype_iff_below.2 (.variadic hne' hacc' (by simp) fun i p q _ hq ↦ by
        simp [arguments] at hq)
    · exact hresult _ (by simp [Option.mem_def.1 hp]) _ (by simp [Option.mem_def.1 hq])
    · rwa [arguments_map, arguments_map] at hargs

/-- If the comparison of `s` and `t` is `Solved` and neither is one of `vars`, they are `Matched`,
unless `s` is a subtype of `t` already. -/
theorem Solved.matched (hσ : Choice vars Static σ) (h : Solved σ s t)
    (hnot : ¬ s.isSubtype t = true) (hleft : varAmong? vars s = none)
    (hright : varAmong? vars t = none) : Matched σ s t := by
  have hs' : (s.subst σ).Static := Built.subst h.static.1 fun x u hx ↦ (hσ x u hx).2
  have ht' : (t.subst σ).Static := Built.subst h.static.2 fun x u hx ↦ (hσ x u hx).2
  have hnever : ¬ (s.subst σ).hasTag "Never" = true := fun h ↦
    hnot (isSubtype_iff_below.2 (.never (hasTag_congr (head_subst hleft hσ) _ ▸ h)))
  have hany : ¬ (t.subst σ).hasTag "Any" = true := fun h ↦
    hnot (isSubtype_iff_below.2 (.any (hasTag_congr (head_subst hright hσ) _ ▸ h)))
  have hname : ¬ NamedBelow (s.subst σ) (t.subst σ) := fun h ↦
    hnot ((h.congr_left (head_subst hleft hσ)).congr_right (head_subst hright hσ)).isSubtype
  have hheads := (((head_cases_of_isSubtype hs' ht' h.isSubtype).resolve_left hnever).resolve_left
    hany).resolve_left hname
  rcases hheads with hhead | ⟨min, max, ps, qs, heq, heq'⟩
  · rw [head_subst hleft hσ, head_subst hright hσ] at hhead
    cases s with
    | var | unknown =>
      cases t <;> simp only [head, reduceCtorEq, Head.var.injEq, Head.unknown.injEq] at hhead
      exact absurd (isSubtype_refl _) (hhead ▸ hnot)
    | all => exact absurd rfl (built_all.1 h.quantifierFree.1).1
    | con tag ps =>
      cases t <;> simp only [head, reduceCtorEq, Head.con.injEq] at hhead
      obtain ⟨rfl, hlen⟩ := hhead
      have hsub := h.isSubtype
      rw [subst_con] at hnever hany hs' ht'
      rw [subst_con, subst_con] at hsub
      exact .con hlen (by simpa using related_of_isSubtype hs' ht' hnever hany hsub)
    | variadic min max ps =>
      cases t <;> simp only [head, reduceCtorEq, Head.variadic.injEq] at hhead
      obtain ⟨rfl, rfl, -⟩ := hhead
      exact .variadics
  · -- The heads are those of the types before the substitution.
    have hhead := (head_subst hleft hσ).symm.trans (congrArg head heq)
    have hhead' := (head_subst hright hσ).symm.trans (congrArg head heq')
    cases s <;> simp only [head, reduceCtorEq, Head.variadic.injEq] at hhead
    cases t <;> simp only [head, reduceCtorEq, Head.con.injEq] at hhead'
    obtain ⟨rfl, -⟩ := hhead'
    exact matched_variadic h.isSubtype hnot

theorem isSubtype_of_mem_paramPairs {vs : List Variance}
    (h : Related vs (ps.map (subst σ)) (qs.map (subst σ))) :
    ∀ c ∈ paramPairs vs ps qs, (c.1.subst σ).isSubtype (c.2.subst σ) = true := by
  intro c hc
  obtain ⟨⟨v, p, q⟩, hr, hc⟩ := mem_paramPairs.1 hc
  rw [related_iff, List.zip_map, List.zip_map_right, List.forall_mem_map] at h
  have hrel : v.Relates (p.subst σ) (q.subst σ) := h _ hr
  cases v <;> simp only [Variance.pairs, List.mem_cons, List.not_mem_nil, or_false] at hc
  · exact hc ▸ hrel
  · exact hc ▸ hrel
  · have heq : p.subst σ = q.subst σ := hrel
    rcases hc with rfl | rfl <;> simp [heq]

theorem Matched.isSubtype_of_mem_parts (h : Matched σ s t) :
    ∀ c ∈ parts s t, (c.1.subst σ).isSubtype (c.2.subst σ) = true := by
  cases h with
  | con hlen h =>
    rw [parts, if_pos ⟨rfl, hlen⟩]
    exact isSubtype_of_mem_paramPairs h
  | variadic hqs hne hacc hresult hargs =>
    rw [spreads_iff_related, List.length_map, map_stretch] at hargs
    rw [parts, if_pos rfl, List.forall_mem_append, spreadPairs_eq_paramPairs]
    refine ⟨isSubtype_of_mem_paramPairs hargs, fun c hc ↦ ?_⟩
    obtain ⟨hp, hq⟩ := List.of_mem_zip hc
    rw [Option.mem_toList] at hp hq
    exact hresult _ hp _ hq
  | variadics => simp [parts]

/-- If the comparison of `s` and `t` is `Solved`, so are its parts. -/
theorem Solved.of_mem_parts (hσ : Choice vars Static σ) (h : Solved σ s t)
    (hnot : ¬ s.isSubtype t = true) : ∀ c ∈ parts s t, Solved σ c.1 c.2 := by
  intro c hc
  have hleft : varAmong? vars s = none := by
    cases s <;> first | rfl | simp [parts] at hc
  have hright : varAmong? vars t = none := by
    cases t <;> first | rfl | (cases s <;> simp [parts] at hc)
  exact ⟨built_of_mem_parts h.static.1 h.static.2 hc,
    built_of_mem_parts h.quantifierFree.1 h.quantifierFree.2 hc,
    (h.matched hσ hnot hleft hright).isSubtype_of_mem_parts c hc⟩

/-- If the comparison of `s` and `t` is `Solved`, so are all `comparisons`. -/
theorem Solved.of_mem_comparisons (hσ : Choice vars Static σ) (h : Solved σ s t) :
    ∀ c ∈ comparisons s t, Solved σ c.1 c.2 ∧ ¬ c.1.isSubtype c.2 = true :=
  forall_mem_comparisons (fun h hnot ↦ h.of_mem_parts hσ hnot) h

/-- `generate` succeeds for a `Solved` comparison if no two variadic functions are compared and the
bounds of the variables have meets. -/
theorem Solved.exists_generate (hP : MeetClosed P) (hσ : Choice vars Static σ) (h : Solved σ s t)
    (hvariadic : ∀ c ∈ comparisons s t, ¬ (c.1.isVariadic = true ∧ c.2.isVariadic = true))
    (hupper : ∀ name ∈ vars, ∀ u, (.var name, u) ∈ comparisons s t → P name (.between never u))
    (hlower : ∀ name ∈ vars, ∀ l, (l, .var name) ∈ comparisons s t → P name (.between l any)) :
    ∃ S, generate vars [] s t = some S ∧ S.Within P := by
  refine ConstraintSet.exists_generate hP h.static.1 h.static.2 fun ⟨p, q⟩ hc ↦ ?_
  obtain ⟨hsolved, hnot⟩ := h.of_mem_comparisons hσ _ hc
  cases hleft : varAmong? vars p with
  | some name =>
    obtain ⟨rfl, hname⟩ := varAmong?_eq_some hleft
    exact .left hname (hupper name hname q hc)
  | none =>
    cases hright : varAmong? vars q with
    | some name =>
      obtain ⟨rfl, hname⟩ := varAmong?_eq_some hright
      exact .right hleft hname (hlower name hname p hc)
    | none =>
      cases hsolved.matched hσ hnot hleft hright with
      | con hlen => exact .con hlen
      | variadic hqs hne hacc => exact .variadic hqs hne hacc
      | variadics => exact absurd ⟨rfl, rfl⟩ (hvariadic _ hc)

end ConstraintSet

end SchemeTyping
