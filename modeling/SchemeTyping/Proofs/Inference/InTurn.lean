import SchemeTyping.Proofs.Inference.Classes
import SchemeTyping.Proofs.Inference.Complete
import SchemeTyping.Proofs.Inference.Counted

/-!
# Generalising a list of types

A naming that one generalisation has left can be given to the next one.  This file follows a naming
through the generalisations of a list of types in the same environment, and then instantiates the
results (`generalize_renames`).  Together the generalisations rename classes: a class that does not
occur in the environment has one name in all the types, different classes have different names, and
no name is free in the environment.  Instantiation puts a new unknown for every name, so it gives
the types back up to a renaming of the unknowns that were named.

## What is here

* `NamedOutside` — the invariant of the naming in between.
* `NamedOutside.openIn_eq` — the unknowns of the environment are as they were, so every
  generalisation leaves the same ones alone.
* `NamedOutside.again` — the names that were given are among the values of the naming, and these are
  avoided, so a new name is different from all of them.
-/

set_option autoImplicit false

namespace SchemeTyping

/-- A node of a type without variables and quantifiers, in which functions take one argument. -/
def Ty.Node.Curried : Ty.Node → Prop
  | .con tag arity => tag = "Function" → arity = 2
  | .unknown | .variadic _ => True
  | .var | .all => False

instance : DecidablePred Ty.Node.Curried
  | .con _ _ => inferInstanceAs (Decidable (_ → _))
  | .unknown | .variadic _ => inferInstanceAs (Decidable True)
  | .var | .all => inferInstanceAs (Decidable False)

namespace Ty

/-- `fill` keeps the free variables. -/
theorem mem_freeVars_fill_of_mem {t : Ty} {f : String → Ty} {x : String} (h : x ∈ t.freeVars) :
    x ∈ (t.fill f).freeVars := by
  induction t with
  | var => exact h
  | unknown => cases h
  | con tag ps ih =>
    rw [freeVars_con] at h
    obtain ⟨q, hq, hx⟩ := List.mem_flatMap.1 h
    rw [fill_con, freeVars_con]
    exact List.mem_flatMap.2 ⟨q.fill f, List.mem_map_of_mem hq, ih q hq hx⟩
  | variadic min max ps ih =>
    rw [freeVars_variadic] at h
    obtain ⟨q, hq, hx⟩ := List.mem_flatMap.1 h
    rw [fill_variadic, freeVars_variadic]
    exact List.mem_flatMap.2 ⟨q.fill f, List.mem_map_of_mem hq, ih q hq hx⟩
  | all bound body ih =>
    rw [freeVars_all, List.mem_filter] at h
    rw [fill_all, freeVars_all, List.mem_filter]
    exact ⟨ih h.1, h.2⟩

/-- A function of one argument is its own `curried` form. -/
theorem curried_eq_self {tag : String} {ps : List Ty} (h : tag = "Function" → ps.length = 2) :
    (con tag ps).curried = con tag ps := by
  rw [curried]
  split
  · rename_i htag
    obtain ⟨a, r, rfl⟩ := List.length_eq_two.1 (h htag)
    rfl
  · rfl

end Ty

namespace Infer

open Ty

variable {store : Store} {env : Env} {st st' : NamingState} {r : String} {t : Ty}
  {s : InferenceState}

/-! ## Names outside the environment -/

/-- The invariant of naming the unknowns of `store` other than those of `env`: the latter are as
they were, and no name is free in `env`. -/
structure NamedOutside (store : Store) (env : Env) (st : NamingState) :
    Prop extends Named store st where
  frame : Forest.Frame store st.naming
  fixed : ∀ r ∈ openIn store env, st.naming.value? r = store.value? r
  captureFree : ∀ r name, st.naming.value? r = some (.var name) → name ∉ env.freeVars
  reserved : ∀ name ∈ env.freeVars, name ∈ st.names.avoid

theorem namedOutside_initial (hwf : store.WF) (hvars : ∀ k name, store.value? k ≠ some (.var name))
    {names : Names} (hnames : ∀ name ∈ env.freeVars, name ∈ names.avoid) :
    NamedOutside store env ⟨store, names⟩ :=
  ⟨named_initial hwf names, .refl store, fun _ _ ↦ rfl,
    fun r name h ↦ absurd h (hvars r name), hnames⟩

/-- `nameOf` finds a name, or gives a new one to the class of the unknown. -/
theorem ensures_nameOf_cases (hwf : st.naming.WF) (r : String) :
    Ensures (nameOf r) st
      (fun _ st' ↦ st' = st ∨ Forest.Frame st.naming st'.naming ∧ st'.names = st.names.fresh.2 ∧
        ∀ a, st'.naming.value? a =
          if st.naming.Same r a then some (.var st.names.fresh.1) else st.naming.value? a)
      (fun _ _ ↦ True) := by
  rw [nameOf, ensures_bind, ensures_get]
  split
  · exact .inl rfl
  · have hset := (Forest.ensures_setValue hwf r (Ty.var st.names.fresh.1)).and
      (Forest.framed_setValue r (Ty.var st.names.fresh.1) st.naming)
    rcases hrun : (Forest.setValue r (Ty.var st.names.fresh.1)).run st.naming with ⟨id | u, naming⟩
    · simp only [hrun]
      trivial
    · rw [ensures_ok hrun] at hset
      simp only [hrun]
      obtain ⟨⟨-, -, -, -, hval⟩, hframe⟩ := hset
      exact .inr ⟨hframe, rfl, hval⟩

/-- An unknown that is `openIn` the environment is not in one class with one that is named. -/
theorem NamedOutside.not_same (h : NamedOutside store env st) (hs : store.Acyclic)
    (hr : store.value? r = some (.unknown r) ∨ store.value? r = none) (hopen : r ∉ openIn store env)
    {a : String} (ha : a ∈ openIn store env) : ¬ st.naming.Same r a := by
  intro hsame
  have hvalue := ((h.classes r a).1 hsame).value?_eq
  obtain ⟨S, -, hS⟩ := mem_openIn_iff.1 ha
  obtain ⟨v, hv⟩ := h.wf.value?_isSome hsame.1
  rcases hr with hr | hr
  · rw [hr] at hvalue
    rcases Store.next?_eq_none_iff.1 (Store.next?_of_mem_unknowns_apply hs hS) with ha' | ha'
    · exact absurd (hvalue.trans ha') nofun
    · rw [ha'] at hvalue
      exact hopen (unknown.inj (Option.some.inj hvalue) ▸ ha)
  · exact absurd ((h.missing r hr).symm.trans hv) nofun

theorem ensures_nameOf_outside (h : NamedOutside store env st) (hs : store.Acyclic)
    (hr : store.value? r = some (.unknown r) ∨ store.value? r = none)
    (hopen : r ∉ openIn store env) :
    Ensures (nameOf r) st (fun _ st' ↦ NamedOutside store env st') (fun _ _ ↦ True) := by
  refine ((ensures_nameOf h.toNamed hr).and (ensures_nameOf_cases h.wf r)).mono ?_
    fun _ _ _ ↦ trivial
  rintro w st' ⟨⟨hnamed, -⟩, rfl | ⟨hframe, hnames, hval⟩⟩
  · exact h
  · refine ⟨hnamed, h.frame.trans hframe, fun a ha ↦ ?_, fun a name ha ↦ ?_, fun name hname ↦ ?_⟩
    · rw [hval a, if_neg (h.not_same hs hr hopen ha), h.fixed a ha]
    · rw [hval a] at ha
      split at ha
      · cases ha
        exact fun hfree ↦ Names.fresh_notMem_avoid _ (h.reserved _ hfree)
      · exact h.captureFree a name ha
    · rw [hnames]
      exact List.mem_cons_of_mem _ (h.reserved name hname)

/-! ## What naming a type preserves -/

section keeps

variable {I : NamingState → Prop} {P : String → Prop} {fixed : List String}

theorem ensures_nameUnknownsList_keeps {ts : List Ty}
    (ih : ∀ t ∈ ts, ∀ {st}, I st → (∀ r ∈ t.unknowns, P r) →
      Ensures (nameUnknowns fixed t) st (fun _ st' ↦ I st') (fun _ _ ↦ True))
    (hst : I st) (hts : ∀ r ∈ ts.flatMap unknowns, P r) :
    Ensures (nameUnknownsList fixed ts) st (fun _ st' ↦ I st') (fun _ _ ↦ True) := by
  induction ts generalizing st with
  | nil => exact hst
  | cons t ts ih' =>
    rw [List.forall_mem_cons] at ih
    rw [List.flatMap_cons, List.forall_mem_append] at hts
    rw [nameUnknownsList, ensures_bind]
    refine (ih.1 hst hts.1).mono (fun w st₁ hst₁ ↦ ?_) fun _ _ ↦ id
    rw [ensures_bind]
    exact (ih' ih.2 hst₁ hts.2).mono (fun _ _ ↦ id) fun _ _ ↦ id

/-- What `nameOf` preserves, `nameUnknowns` preserves. -/
theorem ensures_nameUnknowns_keeps
    (hname : ∀ {r st}, P r → r ∉ fixed → I st →
      Ensures (nameOf r) st (fun _ st' ↦ I st') (fun _ _ ↦ True))
    (t : Ty) (hst : I st) (ht : ∀ r ∈ t.unknowns, P r) :
    Ensures (nameUnknowns fixed t) st (fun _ st' ↦ I st') (fun _ _ ↦ True) := by
  induction t generalizing st with
  | var => exact hst
  | unknown r =>
    rw [nameUnknowns, ensures_ite]
    exact ⟨fun _ ↦ hst,
      fun hf ↦ hname (ht r (by simp)) (fun h ↦ hf (List.contains_iff_mem.2 h)) hst⟩
  | con tag ps ih =>
    rw [nameUnknowns, ensures_bind]
    rw [unknowns_con] at ht
    exact (ensures_nameUnknownsList_keeps ih hst ht).mono (fun _ _ ↦ id) fun _ _ ↦ id
  | variadic min max ps ih =>
    rw [nameUnknowns, ensures_bind]
    rw [unknowns_variadic] at ht
    exact (ensures_nameUnknownsList_keeps ih hst ht).mono (fun _ _ ↦ id) fun _ _ ↦ id
  | all bound body ih =>
    rw [nameUnknowns, ensures_bind]
    exact (ih hst ht).mono (fun _ _ ↦ id) fun _ _ ↦ id

end keeps

/-! ## Repeated generalisation -/

/-- An unknown without a solution is left alone by a naming, or has a name in it. -/
theorem Named.apply_open (h : Named store st) (hs : store.Acyclic) (hr : store.next? r = none) :
    st.naming.apply (.unknown r) = .unknown r ∨
      ∃ name, st.naming.value? r = some (.var name) ∧ st.naming.apply (.unknown r) = .var name := by
  rcases Store.next?_eq_none_iff.1 hr with hr | hr
  · exact .inl (Store.apply_unknown_of_none (Store.next?_eq_none_iff.2 (.inl (h.missing r hr))))
  · rcases h.named r hr with hr | ⟨name, -, hr⟩
    · exact .inl (Store.apply_unknown_of_none (Store.next?_eq_none_iff.2 (.inr hr)))
    · exact .inr ⟨name, hr, h.apply_named hs hr⟩

/-- The naming and the store give the same environment. -/
theorem NamedOutside.mapValues_eq (h : NamedOutside store env st) (hs : store.Acyclic) :
    env.mapValues st.naming.apply = env.mapValues store.apply := by
  have happly : ∀ S ∈ env.values, st.naming.apply S = store.apply S := by
    intro S hS
    rw [h.apply_eq hs]
    refine (fill_congr fun r hr ↦ ?_).trans (fill_self _)
    have hnext := Store.next?_of_mem_unknowns_apply hs hr
    refine Store.apply_unknown_of_none (Store.next?_eq_none_iff.2 ?_)
    rw [h.fixed r (mem_openIn_iff.2 ⟨S, hS, hr⟩)]
    exact Store.next?_eq_none_iff.1 hnext
  refine congrArg OrdMap.mk (List.map_congr_left fun e he ↦ ?_)
  rw [happly e.2 (List.mem_map_of_mem he)]

theorem NamedOutside.openIn_eq (h : NamedOutside store env st) (hs : store.Acyclic) :
    openIn st.naming env = openIn store env := by
  rw [openIn, openIn, h.mapValues_eq hs]

/-- A naming can be continued with other names to avoid, as long as its own are among them. -/
theorem NamedOutside.again (h : NamedOutside store env st)
    (hdense : store.index.values = List.range store.cells.size) {names : Names}
    (henv : ∀ name ∈ env.freeVars, name ∈ names.avoid)
    (hvalues : ∀ v ∈ st.naming.values, ∀ name ∈ v.freeVars, name ∈ names.avoid) :
    NamedOutside store env ⟨st.naming, names⟩ := by
  refine ⟨⟨h.wf, h.classes, h.missing, fun r hr ↦ ?_, h.distinct, h.values⟩, h.frame, h.fixed,
    h.captureFree, henv⟩
  refine (h.named r hr).imp_right ?_
  rintro ⟨name, -, hv⟩
  have hmem : Ty.var name ∈ st.naming.values :=
    Forest.mem_values h.wf (by rw [h.frame.index, h.frame.size, hdense]) hv
  exact ⟨name, hvalues _ hmem name (by simp), hv⟩

/-- The free variables of an environment stay free when a store is applied to it. -/
theorem mem_freeVars_mapValues {name : String} (h : name ∈ env.freeVars) (store : Store) :
    name ∈ Env.freeVars (env.mapValues store.apply) := by
  obtain ⟨S, hS, hname⟩ := List.mem_flatMap.1 h
  obtain ⟨e, he, rfl⟩ := List.mem_map.1 hS
  refine List.mem_flatMap.2 ⟨store.apply e.2, ?_, ?_⟩
  · exact List.mem_map.2 ⟨(e.1, store.apply e.2), List.mem_map.2 ⟨e, he, rfl⟩, rfl⟩
  · rw [Store.apply_eq_fill]
    exact mem_freeVars_fill_of_mem hname

/-- `NamedTo` for the type under the naming gives `NamedTo` for the type under the store. -/
theorem NamedOutside.namedTo (h : NamedOutside store env st) (hs : store.Acyclic)
    (hk : Keeps st st') {w : Ty} (hw : NamedTo (openIn store env) st' (st.naming.apply t) w) :
    NamedTo (openIn store env) st' (store.apply t) w := by
  have hnext : ∀ r ∈ (store.apply t).unknowns, store.next? r = none :=
    fun r ↦ Store.next?_of_mem_unknowns_apply hs
  refine ⟨fun r hr hf ↦ ?_, ?_⟩
  · rcases h.apply_open hs (hnext r hr) with hsame | ⟨name, hname, -⟩
    · refine hw.named r ?_ hf
      rw [h.apply_eq hs, mem_unknowns_fill]
      exact ⟨r, hr, by rw [hsame]; simp⟩
    · exact ⟨name, hk r name hname⟩
  · rw [hw.eq, h.apply_eq hs, fill_fill]
    refine fill_congr fun r hr ↦ ?_
    rcases h.apply_open hs (hnext r hr) with hsame | ⟨name, hname, hvar⟩
    · rw [hsame, fill_unknown]
    · -- The unknowns of the environment have no names.
      have hf : r ∉ openIn store env := by
        intro hf
        rw [h.fixed r hf] at hname
        rcases Store.next?_eq_none_iff.1 (hnext r hr) with hr | hr <;> rw [hr] at hname
          <;> cases hname
      rw [hvar, fill_var, nameIn, if_neg hf, hk r name hname]
      rfl

/-- `generalizeNamed` preserves `NamedOutside` and all names, and the unknowns of the type have
names then. -/
theorem ensures_generalizeNamed_outside (h : NamedOutside store env st) (hs : store.Acyclic)
    (hdense : store.index.values = List.range store.cells.size)
    (ht : store.Registered (store.apply t)) :
    Ensures (generalizeNamed st.naming env t) s
      (fun r s' ↦ s' = { s with log := s'.log } ∧ ∃ names, NamedOutside store env ⟨r.2, names⟩ ∧
        Keeps st ⟨r.2, names⟩ ∧ NamedTo (openIn store env) ⟨r.2, names⟩ (store.apply t) r.1)
      (fun _ _ ↦ False) := by
  obtain ⟨names, hagain, hnames⟩ : ∃ names, NamedOutside store env ⟨st.naming, names⟩ ∧
      generalizeWith st.naming env t = ((nameUnknowns (openIn store env) (st.naming.apply t)).run
        ⟨st.naming, names⟩).map id (·.naming) := by
    rw [generalizeWith, if_pos (by simp [(h.acyclic hs).settles]), ← h.openIn_eq hs]
    refine ⟨_, h.again hdense (fun name hname ↦ ?_) fun v hv name hname ↦ ?_, rfl⟩
    · exact List.mem_append_left _ (List.mem_append_left _ (mem_freeVars_mapValues hname _))
    · exact List.mem_append_right _ (List.mem_flatMap.2 ⟨v, hv, hname⟩)
  -- What is left under the naming was left under the store.
  have hleft : ∀ r ∈ (st.naming.apply t).unknowns, r ∈ (store.apply t).unknowns := by
    intro r hr
    rw [h.apply_eq hs, mem_unknowns_fill] at hr
    obtain ⟨q, hq, hr⟩ := hr
    rcases h.apply_open hs (Store.next?_of_mem_unknowns_apply hs hq) with hsame | ⟨name, -, hvar⟩
    · rw [hsame, unknowns_unknown, List.mem_singleton] at hr
      exact hr ▸ hq
    · rw [hvar] at hr
      cases hr
  have hopen : ∀ r ∈ (st.naming.apply t).unknowns,
      store.value? r = some (.unknown r) ∨ store.value? r = none := fun r hr ↦
    (Store.next?_eq_none_iff.1 (Store.next?_of_mem_unknowns_apply hs (hleft r hr))).symm
  have hnamed := (nameable store (openIn store env) (st.naming.apply t) hagain.toNamed hopen).and
    (ensures_nameUnknowns_keeps (fun hr hf hst ↦ ensures_nameOf_outside hst hs hr hf) _
      hagain hopen)
  rw [generalizeNamed, hnames]
  rcases hrun : (nameUnknowns (openIn store env) (st.naming.apply t)).run ⟨st.naming, names⟩
    with ⟨f | w, st'⟩
  · rw [ensures_error hrun] at hnamed
    obtain ⟨⟨r, hr, hnone⟩, -⟩ := hnamed
    obtain ⟨v, hv⟩ := h.wf.value?_isSome ((h.contains_iff r).2 (ht r (hleft r hr)))
    exact absurd ((h.missing r hnone).symm.trans hv) (by simp)
  · rw [ensures_ok hrun] at hnamed
    obtain ⟨⟨-, hkeeps, hw⟩, houtside⟩ := hnamed
    exact ⟨rfl, st'.names, houtside, hkeeps, h.namedTo hs hkeeps hw⟩

/-! ## Generalising a list of types -/

/-- Generalises the types of a list, each with the naming that the one before has left. -/
def generalizeInTurn (env : Env) (naming : Store) : List Ty → Infer (List Ty × Store)
  | [] => return ([], naming)
  | t :: ts => do
    let (g, naming) ← generalizeNamed naming env t
    let (gs, naming) ← generalizeInTurn env naming ts
    return (g :: gs, naming)

theorem ensures_generalizeInTurn {ts : List Ty} (h : NamedOutside store env st) (hs : store.Acyclic)
    (hdense : store.index.values = List.range store.cells.size)
    (hts : ∀ t ∈ ts, store.Registered (store.apply t)) :
    Ensures (generalizeInTurn env st.naming ts) s
      (fun r s' ↦ s' = { s with log := s'.log } ∧ ∃ names, NamedOutside store env ⟨r.2, names⟩ ∧
        Keeps st ⟨r.2, names⟩ ∧
        List.Forall₂ (fun t ↦ NamedTo (openIn store env) ⟨r.2, names⟩ (store.apply t)) ts r.1)
      (fun _ _ ↦ False) := by
  induction ts generalizing st s with
  | nil => exact ⟨rfl, st.names, h, .refl st, .nil⟩
  | cons t ts ih =>
    rw [List.forall_mem_cons] at hts
    rw [generalizeInTurn, ensures_bind]
    refine (ensures_generalizeNamed_outside h hs hdense hts.1).mono ?_ fun _ _ ↦ id
    rintro ⟨g, naming⟩ s₁ ⟨hs₁, names, h₁, hk₁, hg⟩
    rw [ensures_bind]
    refine (ih h₁ hts.2).mono ?_ fun _ _ ↦ id
    rintro ⟨gs, naming'⟩ s₂ ⟨hs₂, names', h₂, hk₂, hgs⟩
    refine ⟨by rw [hs₂, hs₁], names', h₂, hk₁.trans hk₂, .cons (hg.keeps hk₂) hgs⟩

/-- `generalizeInTurn` succeeds and names all unknowns that are left in the types.  The first one
takes the store itself for the naming. -/
theorem exists_generalized {ts : List Ty} (hcounted : Counted s) (hs : s.store.Acyclic)
    (hvars : ∀ k name, s.store.value? k ≠ some (.var name))
    (env : Env) (hts : ∀ u ∈ t :: ts, s.store.Registered (s.store.apply u)) :
    ∃ g gs naming naming' s₁ s₂ names,
      (generalize env t).run s = (.ok (g, naming), s₁) ∧
      (generalizeInTurn env naming ts).run s₁ = (.ok (gs, naming'), s₂) ∧
      s₁ = { s with log := s₁.log } ∧ s₂ = { s with log := s₂.log } ∧
      NamedOutside s.store env ⟨naming', names⟩ ∧
      List.Forall₂ (fun u ↦ NamedTo (openIn s.store env) ⟨naming', names⟩ (s.store.apply u))
        (t :: ts) (g :: gs) := by
  have hinitial : NamedOutside s.store env ⟨s.store, .avoiding env.freeVars⟩ :=
    namedOutside_initial hcounted.wf hvars fun _ ↦ id
  rw [List.forall_mem_cons] at hts
  have hfirst := ensures_generalizeNamed_outside (s := s) hinitial hs hcounted.dense hts.1
  rcases hrun : (generalizeNamed s.store env t).run s with ⟨f | ⟨g, naming⟩, s₁⟩
  · exact ((ensures_error hrun).1 hfirst).elim
  obtain ⟨hs₁, names₁, h₁, -, hg⟩ := (ensures_ok hrun).1 hfirst
  have hrest := ensures_generalizeInTurn (s := s₁) h₁ hs hcounted.dense hts.2
  rcases hrun' : (generalizeInTurn env naming ts).run s₁ with ⟨f | ⟨gs, naming'⟩, s₂⟩
  · exact ((ensures_error hrun').1 hrest).elim
  obtain ⟨hs₂, names, h, hk, hgs⟩ := (ensures_ok hrun').1 hrest
  exact ⟨g, gs, naming, naming', s₁, s₂, names, by rw [generalize, run_get_bind, hrun], hrun', hs₁,
    by rw [hs₂, hs₁], h, .cons (hg.keeps hk) hgs⟩

/-! ## New unknowns for names -/

/-- Every instance is an unknown with the name for its stem and a number greater than `first`. -/
def Issued (first : Nat) (instances : Env) : Prop :=
  ∀ name u, instances.get? name = some u → ∃ n, first < n ∧ u = .unknown (name ++ "#" ++ toString n)

/-- Instances have been issued for `names`, and those there were are kept. -/
structure Issues (first : Nat) (s : InferenceState) (instances instances' : Env)
    (names : List String) :
    Prop where
  counter : first ≤ s.counter
  issued : Issued first instances'
  keeps : ∀ name u, instances.get? name = some u → instances'.get? name = some u
  covers : ∀ name ∈ names, ∃ u, instances'.get? name = some u

/-- Instantiation assigns the instances to the variables. -/
def Assigns (t : Ty) : Prop :=
  ∀ {s : InferenceState} {first : Nat} {instances : Env}, first ≤ s.counter →
    Issued first instances →
    Ensures (instantiateWith instances t) s
      (fun r s' ↦ Issues first s' instances r.2 t.freeVars ∧ ∀ f, Extends r.2 f → r.1 = t.assign f)
      (fun _ _ ↦ False)

theorem ensures_instantiateList_assigns {ts : List Ty} (ih : ∀ t ∈ ts, Assigns t) {first : Nat}
    {instances : Env} (hfirst : first ≤ s.counter) (hi : Issued first instances) :
    Ensures (instantiateList instances ts) s
      (fun r s' ↦ Issues first s' instances r.2 (ts.flatMap freeVars) ∧
        ∀ f, Extends r.2 f → r.1 = ts.map (assign f))
      (fun _ _ ↦ False) := by
  induction ts generalizing s instances with
  | nil => exact ⟨⟨hfirst, hi, fun _ _ ↦ id, nofun⟩, fun _ _ ↦ rfl⟩
  | cons t ts ih' =>
    rw [List.forall_mem_cons] at ih
    rw [instantiateList, ensures_bind]
    refine (ih.1 hfirst hi).mono ?_ fun _ _ ↦ id
    rintro ⟨w, i₁⟩ s₁ ⟨h₁, hw⟩
    rw [ensures_bind]
    refine (ih' ih.2 h₁.counter h₁.issued).mono ?_ fun _ _ ↦ id
    rintro ⟨ws, i₂⟩ s₂ ⟨h₂, hws⟩
    refine ⟨⟨h₂.counter, h₂.issued, fun name u hu ↦ h₂.keeps name u (h₁.keeps name u hu), ?_⟩,
      fun f hf ↦ ?_⟩
    · rw [List.flatMap_cons, List.forall_mem_append]
      refine ⟨fun name hname ↦ ?_, h₂.covers⟩
      obtain ⟨u, hu⟩ := h₁.covers name hname
      exact ⟨u, h₂.keeps name u hu⟩
    · have hf₁ : Extends i₁ f := fun name u hu ↦ hf name u (h₂.keeps name u hu)
      exact List.cons_eq_cons.2 ⟨hw f hf₁, hws f hf⟩

theorem assigns (ht : t.Built fun n ↦ n = .var ∨ n.Curried) : Assigns t := by
  induction t with
  | unknown => exact fun hfirst hi ↦ ⟨⟨hfirst, hi, fun _ _ ↦ id, by simp⟩, fun _ _ ↦ rfl⟩
  | var name =>
    intro s first instances hfirst hi
    rw [instantiateWith]
    cases hname : instances.get? name with
    | some u =>
      refine ⟨⟨hfirst, hi, fun _ _ ↦ id, fun name' h ↦ ⟨u, ?_⟩⟩, fun f hf ↦ (hf name u hname).symm⟩
      rw [List.mem_singleton.1 h, hname]
    | none =>
      rw [ensures_bind, ensures_ok (run_newUnknown name)]
      refine ⟨⟨Nat.le_succ_of_le hfirst, OrdMap.forall_get?_insert hi ?_, fun name' u h ↦ ?_,
        fun name' h ↦ ?_⟩, fun f hf ↦ (hf name _ (OrdMap.get?_insert_self _ _ _)).symm⟩
      · exact ⟨s.counter + 1, Nat.lt_succ_of_le hfirst, rfl⟩
      · rw [OrdMap.get?_insert, if_neg, h]
        rintro rfl
        rw [hname] at h
        cases h
      · rw [List.mem_singleton.1 h]
        exact ⟨_, OrdMap.get?_insert_self _ _ _⟩
  | con tag ps ih =>
    intro s first instances hfirst hi
    obtain ⟨hn, hps⟩ := built_con.1 ht
    rw [instantiateWith, ensures_bind]
    refine (ensures_instantiateList_assigns (fun q hq ↦ ih q hq (hps q hq)) hfirst hi).mono ?_
      fun _ _ ↦ id
    rintro ⟨ws, i⟩ s' ⟨hissues, hws⟩
    refine ⟨by rwa [freeVars_con], fun f hf ↦ ?_⟩
    have hlen : tag = "Function" → (ps.map (assign f)).length = 2 :=
      fun htag ↦ (List.length_map _).trans (hn.resolve_left (by simp) htag)
    rw [assign_con, ← curried_eq_self hlen, ← hws f hf]
  | variadic min max ps ih =>
    intro s first instances hfirst hi
    obtain ⟨-, hps⟩ := built_variadic.1 ht
    rw [instantiateWith, ensures_bind]
    refine (ensures_instantiateList_assigns (fun q hq ↦ ih q hq (hps q hq)) hfirst hi).mono ?_
      fun _ _ ↦ id
    rintro ⟨ws, i⟩ s' ⟨hissues, hws⟩
    refine ⟨by rwa [freeVars_variadic], fun f hf ↦ ?_⟩
    rw [assign_variadic, ← hws f hf]
  | all => exact absurd (built_all.1 ht).1 (by simp [Node.Curried])

/-- Instantiation puts unknowns with new numbers for the variables. -/
theorem ensures_instantiate_fresh (ht : t.Built fun n ↦ n = .var ∨ n.Curried) (s : InferenceState) :
    Ensures (instantiate t) s
      (fun w _ ↦ ∃ number : String → Nat, (∀ name ∈ t.freeVars, s.counter < number name) ∧
        w = t.assign fun name ↦ .unknown (name ++ "#" ++ toString (number name)))
      (fun _ _ ↦ False) := by
  rw [instantiate, ensures_bind]
  have hnone : Issued s.counter ∅ := fun name u h ↦ absurd h (by simp)
  refine (assigns ht (Nat.le_refl _) hnone).mono ?_ fun _ _ ↦ id
  rintro ⟨w, instances⟩ s' ⟨hissues, hw⟩
  have hnumber : ∀ name, ∃ n, ∀ u, instances.get? name = some u →
      s.counter < n ∧ u = .unknown (name ++ "#" ++ toString n) := by
    intro name
    cases h : instances.get? name with
    | none => exact ⟨0, by simp⟩
    | some u =>
      obtain ⟨n, hn, hu⟩ := hissues.issued name u h
      refine ⟨n, fun u' hu' ↦ ?_⟩
      cases hu'
      exact ⟨hn, hu⟩
  choose number hnumber using hnumber
  refine ⟨number, fun name hname ↦ ?_, hw _ fun name u hu ↦ (hnumber name u hu).2.symm⟩
  obtain ⟨u, hu⟩ := hissues.covers name hname
  exact (hnumber name u hu).1

/-! ## Classes and their names -/

/-- `store.apply t`, with `ν` for the unknowns that are not `openIn` the environment. -/
def renamed (store : Store) (env : Env) (ν : String → Ty) (t : Ty) : Ty :=
  (store.apply t).fill fun p ↦ if p ∈ openIn store env then .unknown p else ν p

/-- `a` is in a class that is left in one of the types and does not occur in the environment. -/
def Replaced (store : Store) (env : Env) (ts : List Ty) (a : String) : Prop :=
  ∃ t ∈ ts, ∃ p ∈ (store.apply t).unknowns, p ∉ openIn store env ∧ store.Same p a

/-- Among unknowns with `P`, `f` has one value for each class, and different values for different
classes. -/
def ByClass (store : Store) (P : String → Prop) (f : String → String) : Prop :=
  ∀ a b, P a → P b → (f a = f b ↔ store.Same a b)

/-- The name that a naming has for an unknown. -/
def NamingState.nameFor (st : NamingState) (a : String) : String :=
  ((st.naming.value? a).bind varName?).getD ""

theorem nameFor_eq {name : String} (h : st.naming.value? r = some (.var name)) :
    st.nameFor r = name := by
  rw [NamingState.nameFor, h]
  rfl

/-- A type whose unknowns have been named is `renamed` by their names. -/
theorem NamedTo.eq_renamed {w : Ty} (h : NamedTo (openIn store env) st (store.apply t) w) :
    w = renamed store env (fun p ↦ .var (st.nameFor p)) t := by
  rw [h.eq, renamed]
  refine fill_congr fun p hp ↦ ?_
  rw [nameIn]
  split
  · rfl
  · rename_i hopen
    obtain ⟨name, hname⟩ := h.named p hp hopen
    rw [hname, nameFor_eq hname]
    rfl

section names

variable {us : List Ty} {a : String}

/-- The class of an unknown that was replaced has an unknown for its value, which has the name. -/
theorem NamedOutside.exists_named (h : NamedOutside store env st) (hs : store.Acyclic)
    (hus : ∀ u ∈ us, ∃ w, NamedTo (openIn store env) st (store.apply u) w)
    (ha : Replaced store env us a) :
    ∃ p, store.Same p a ∧ store.value? p = some (.unknown p) ∧
      st.naming.value? p = some (.var (st.nameFor a)) := by
  obtain ⟨u, hu, p, hp, hopen, hsame⟩ := ha
  obtain ⟨w, hw⟩ := hus u hu
  obtain ⟨name, hname⟩ := hw.named p hp hopen
  have hvalue : st.naming.value? a = some (.var name) :=
    ((h.classes p a).2 hsame).value?_eq.symm.trans hname
  refine ⟨p, hsame, ?_, by rw [hname, nameFor_eq hvalue]⟩
  refine (Store.next?_eq_none_iff.1 (Store.next?_of_mem_unknowns_apply hs hp)).resolve_left
    fun hnone ↦ ?_
  exact absurd ((h.missing p hnone).symm.trans hname) nofun

theorem NamedOutside.byClass (h : NamedOutside store env st) (hs : store.Acyclic)
    (hus : ∀ u ∈ us, ∃ w, NamedTo (openIn store env) st (store.apply u) w) :
    ByClass store (Replaced store env us) st.nameFor := by
  intro a b ha hb
  refine ⟨fun heq ↦ ?_, fun hsame ↦ ?_⟩
  · obtain ⟨p, hpa, hp, hname⟩ := h.exists_named hs hus ha
    obtain ⟨q, hqb, hq, hname'⟩ := h.exists_named hs hus hb
    obtain rfl := h.distinct p q _ hp hq hname (heq ▸ hname')
    exact Store.same_trans (Store.same_symm hpa) hqb
  · rw [NamingState.nameFor, NamingState.nameFor, ((h.classes a b).2 hsame).value?_eq]

/-- Instantiating a type with one name for each class gives new unknowns, one for each class. -/
theorem ensures_instantiate_renamed {name : String → String} (hv : store.Built Node.Curried)
    (ht : t.Built Node.Curried) (hname : ByClass store (Replaced store env [t]) name)
    (s : InferenceState) :
    Ensures (instantiate (renamed store env (fun p ↦ .var (name p)) t)) s
      (fun w _ ↦ ∃ fresh : String → String, w = renamed store env (fun p ↦ .unknown (fresh p)) t ∧
        ByClass store (Replaced store env [t]) fresh ∧
        ∀ a, Replaced store env [t] a → ∃ stem n, s.counter < n ∧
          fresh a = stem ++ "#" ++ toString n)
      (fun _ _ ↦ False) := by
  have happly : (store.apply t).Built Node.Curried := hv.apply ht
  have hbuilt :
      (renamed store env (fun p ↦ .var (name p)) t).Built fun n ↦ n = .var ∨ n.Curried := by
    refine Built.fill (Built.mono happly fun _ hn ↦ .inr (.inr hn)) fun p _ ↦ ?_
    split
    · exact built_unknown.2 (.inr trivial)
    · exact built_var.2 (.inl rfl)
  refine (ensures_instantiate_fresh hbuilt s).mono ?_ fun _ _ ↦ id
  rintro w s' ⟨number, hnumber, rfl⟩
  refine ⟨fun a ↦ name a ++ "#" ++ toString (number (name a)), ?_, fun a b ha hb ↦ ?_,
    fun a ha ↦ ?_⟩
  · have hvar : (store.apply t).Built (· ≠ .var) := Built.mono happly (by rintro _ hn rfl; exact hn)
    rw [renamed, renamed, assign_fill hvar]
    refine fill_congr fun p _ ↦ ?_
    split <;> rfl
  · rw [← hname a b ha hb]
    refine ⟨fun heq ↦ ?_, congrArg fun x ↦ x ++ "#" ++ toString (number x)⟩
    -- Equal ids have equal numbers, and what stands before the number is the name.
    have hn := number_eq_of_id heq
    simp only [hn, String.append_assoc] at heq
    exact String.append_left_inj _ |>.1 heq
  · refine ⟨name a, number (name a), hnumber _ ?_, rfl⟩
    obtain ⟨u, hu, p, hp, hopen, hsame⟩ := ha
    rw [List.mem_singleton.1 hu] at hp
    have hreplaced : ∀ b, store.Same p b → Replaced store env [t] b := fun b hb ↦
      ⟨t, List.mem_singleton_self t, p, hp, hopen, hb⟩
    rw [← (hname p a (hreplaced p (.refl hsame.1)) (hreplaced a hsame)).2 hsame]
    refine mem_freeVars_fill (Built.mono happly (by rintro _ hn rfl; exact hn)) hp ?_
    rw [if_neg hopen]
    exact List.mem_singleton.2 rfl

end names

/-- **Generalisation renames classes, and instantiation undoes it.**  Let the store be the one after
some calls, and acyclic.  Let its values and the types `t :: ts` be built from nodes that are
`Node.Curried`, with unknowns of the store only.  Generalise the types one after the other in any
environment, each with the naming of the one before.  This succeeds and leaves the store as it is.
The results are the types with the store applied and a variable for every unknown that does not
occur in the environment.  One class has one name in all of them, different classes have different
names, and no name is free in the environment.  Instantiating each result gives the type with the
store applied and new unknowns for those that were named, one for each class. -/
theorem generalize_renames (calls : List Call) (hstore : s.store = (after .initial calls).store)
    (hcounter : s.counter = (after .initial calls).counter) (hs : s.store.Acyclic)
    (hvalues : ∀ k v, s.store.value? k = some v → Held Node.Curried s.store v) (env : Env)
    {ts : List Ty} (hts : ∀ u ∈ t :: ts, Held Node.Curried s.store u) :
    ∃ g gs naming naming' s₁ s₂ name,
      (generalize env t).run s = (.ok (g, naming), s₁) ∧
      (generalizeInTurn env naming ts).run s₁ = (.ok (gs, naming'), s₂) ∧
      s₁.store = s.store ∧ s₂.store = s.store ∧
      g :: gs = (t :: ts).map (renamed s.store env fun p ↦ .var (name p)) ∧
      ByClass s.store (Replaced s.store env (t :: ts)) name ∧
      (∀ a, Replaced s.store env (t :: ts) a → name a ∉ env.freeVars) ∧
      ∀ u ∈ t :: ts, ∃ fresh s₃,
        (instantiate (renamed s.store env (fun p ↦ .var (name p)) u)).run s₂ =
          (.ok (renamed s.store env (fun p ↦ .unknown (fresh p)) u), s₃) ∧
        ByClass s.store (Replaced s.store env [u]) fresh ∧
        ∀ a, Replaced s.store env [u] a → s.store.contains (fresh a) = false := by
  have hcounted : Counted s := (counted_initial.after calls).congr hstore hcounter
  have hbuilt : s.store.Built Node.Curried := fun k v h ↦ (hvalues k v h).built
  have hclosed : s.store.Closed := fun k v h ↦ (hvalues k v h).registered
  have hvars : ∀ k name, s.store.value? k ≠ some (.var name) :=
    fun k name h ↦ built_var.1 (hbuilt k _ h)
  obtain ⟨g, gs, naming, naming', s₁, s₂, names, hrun, hrun', hs₁, hs₂, h, hnamed⟩ :=
    exists_generalized hcounted hs hvars env fun u hu ↦ hclosed.apply (hts u hu).registered
  have hus : ∀ u ∈ t :: ts,
      ∃ w, NamedTo (openIn s.store env) ⟨naming', names⟩ (s.store.apply u) w :=
    fun u hu ↦ (exists_mem_of_forall₂ hnamed hu).imp fun _ ↦ And.right
  refine ⟨g, gs, naming, naming', s₁, s₂, NamingState.nameFor ⟨naming', names⟩, hrun, hrun',
    by rw [hs₁], by rw [hs₂], ?_, h.byClass hs hus, fun a ha ↦ ?_, fun u hu ↦ ?_⟩
  · have hrenamed := hnamed.imp fun u w hw ↦ hw.eq_renamed.symm
    rw [← List.forall₂_map_left_iff, List.forall₂_eq_eq_eq] at hrenamed
    exact hrenamed.symm
  · obtain ⟨p, -, -, hname⟩ := h.exists_named hs hus ha
    exact h.captureFree p _ hname
  · have hclass : ByClass s.store (Replaced s.store env [u])
        (NamingState.nameFor ⟨naming', names⟩) :=
      h.byClass hs fun v hv ↦ hus v (List.mem_singleton.1 hv ▸ hu)
    have hinst := ensures_instantiate_renamed hbuilt (hts u hu).built hclass s₂
    rcases hrun₃ : (instantiate (renamed s.store env
        (fun p ↦ .var (NamingState.nameFor ⟨naming', names⟩ p)) u)).run s₂ with ⟨f | w, s₃⟩
    · exact ((ensures_error hrun₃).1 hinst).elim
    · obtain ⟨fresh, rfl, hfresh, hnumber⟩ := (ensures_ok hrun₃).1 hinst
      refine ⟨fresh, s₃, rfl, hfresh, fun a ha ↦ ?_⟩
      obtain ⟨stem, n, hn, hid⟩ := hnumber a ha
      rw [hs₂] at hn
      rw [hid]
      exact hcounted.numbered.contains_later stem hn

/-- Calls that put two unknowns in one class and solve a third by a function from it. -/
def aliased : List Call :=
  [.newUnknown "x", .newUnknown "y", .newUnknown "z", .newUnknown "w", .newUnknown "v",
    .unify (.unknown "x#1") (.unknown "y#2") none none,
    .unify (.unknown "w#4") (function [.unknown "y#2", .unknown "z#3"]) none none]

/-- One of the unknowns and the first of all names occur in the environment.  The two unknowns of
one class share a name, also when the second one occurs in the second type only. -/
theorem generalize_renames_aliased :
    let store := (after .initial aliased).store
    let env : Env := ⟨[("f", function [.unknown "z#3", .var "a"])]⟩
    store.Acyclic ∧ (∀ k v, store.value? k = some v → Held Node.Curried store v) ∧
      ∃ g gs naming naming' s₁ s₂ x v,
        (generalize env (function [.unknown "x#1", .unknown "w#4"])).run (after .initial aliased) =
          (.ok (g, naming), s₁) ∧
        (generalizeInTurn env naming [.variadic none none [.unknown "y#2", .unknown "v#5"]]).run
          s₁ =
          (.ok (gs, naming'), s₂) ∧
        s₂.store = store ∧ g = function [.var x, function [.var x, .unknown "z#3"]] ∧
        gs = [.variadic none none [.var x, .var v]] ∧ x ≠ v ∧ x ≠ "a" ∧ v ≠ "a" ∧
        ∃ y s₃, (instantiate g).run s₂ =
            (.ok (function [.unknown y, function [.unknown y, .unknown "z#3"]]), s₃) ∧
          store.contains y = false := by
  intro store env
  have hs : store.Acyclic := (acyclic_after wf_initial acyclic_initial (by decide +kernel)).2
  have hcounted := counted_initial.after aliased
  have hheld : ∀ v ∈ store.values, v.Built Node.Curried ∧
      ∀ id ∈ v.unknowns, store.contains id = true := by
    decide +kernel
  have hvalues : ∀ k v, store.value? k = some v → Held Node.Curried store v := fun k v hv ↦
    have h := hheld v (Forest.mem_values hcounted.wf hcounted.dense hv)
    ⟨h.1, h.2⟩
  have hts : ∀ u ∈ [function [.unknown "x#1", .unknown "w#4"],
      .variadic none none [.unknown "y#2", .unknown "v#5"]],
      u.Built Node.Curried ∧ ∀ id ∈ u.unknowns, store.contains id = true := by decide +kernel
  obtain ⟨g, gs, naming, naming', s₁, s₂, name, hrun, hrun', -, hstore, hgs, hname, hfree, hinst⟩ :=
    generalize_renames aliased rfl rfl hs hvalues env fun u hu ↦ ⟨(hts u hu).1, (hts u hu).2⟩
  have hopen : openIn store env = ["z#3"] := by decide +kernel
  have happly : store.apply (function [.unknown "x#1", .unknown "w#4"]) =
      function [.unknown "x#1", function [.unknown "x#1", .unknown "z#3"]] := by decide +kernel
  have happly' : store.apply (.variadic none none [.unknown "y#2", .unknown "v#5"]) =
      .variadic none none [.unknown "x#1", .unknown "v#5"] := by decide +kernel
  have hrenamed : ∀ ν, renamed store env ν (function [.unknown "x#1", .unknown "w#4"]) =
      function [ν "x#1", function [ν "x#1", .unknown "z#3"]] := by
    intro ν
    rw [renamed, happly, hopen]
    rfl
  have hx : ∀ ts, Replaced store env (function [.unknown "x#1", .unknown "w#4"] :: ts) "x#1" :=
    fun ts ↦
    ⟨_, List.mem_cons_self, "x#1", by rw [happly]; decide, by rw [hopen]; decide, by decide +kernel⟩
  have hv : Replaced store env [function [.unknown "x#1", .unknown "w#4"],
      .variadic none none [.unknown "y#2", .unknown "v#5"]] "v#5" :=
    ⟨_, List.mem_cons_of_mem _ List.mem_cons_self, "v#5", by rw [happly']; decide,
      by rw [hopen]; decide, by decide +kernel⟩
  obtain ⟨fresh, s₃, hrun₃, -, hnew⟩ := hinst _ List.mem_cons_self
  obtain ⟨rfl, rfl⟩ := List.cons.inj hgs
  rw [hrenamed, hrenamed] at hrun₃
  refine ⟨hs, hvalues, _, _, naming, naming', s₁, s₂, name "x#1", name "v#5", hrun, hrun', hstore,
    hrenamed _, ?_, fun h ↦ ?_, fun h ↦ ?_, fun h ↦ ?_, fresh "x#1", s₃, ?_, hnew _ (hx [])⟩
  · rw [List.map_singleton, renamed, happly', hopen]
    rfl
  · exact absurd ((hname _ _ (hx _) hv).1 h) (by decide +kernel)
  · exact hfree _ (hx _) (h ▸ by decide)
  · exact hfree _ hv (h ▸ by decide)
  · rw [hrenamed]
    exact hrun₃

end Infer

end SchemeTyping
