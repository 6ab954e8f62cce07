import Mathlib.Algebra.Order.BigOperators.Group.List
import Mathlib.Algebra.Order.Group.Nat
import Mathlib.Logic.Function.Basic
import SchemeTyping.Proofs.Inference.Instantiate
import SchemeTyping.Proofs.Inference.Typing

/-!
# Generalisation

## What is here

* `ensures_generalize` — the unknowns that are left in a type and are not in the environment become
  variables, different ones for different unknowns.
* `exists_parameters` — ties this to the typing rules.  Of a solution of the store one can make
  another one that agrees with it on the environment and gives every unknown that was generalised a
  parameter of its own.  What was derived for all solutions then holds with these parameters, and
  generalising over them gives the type that inference has found.
-/

set_option autoImplicit false

namespace SchemeTyping.Infer

open Ty Typing

/-! ## Naming -/

/-- The invariant of naming the unknowns of `store`.  Those without a solution have a variable or
are as they were; no variable is used twice. -/
structure Named (store : Store) (st : NamingState) : Prop where
  wf : st.naming.WF
  classes : ∀ a b, st.naming.Same a b ↔ store.Same a b
  missing : ∀ r, store.value? r = none → st.naming.value? r = none
  named : ∀ r, store.value? r = some (.unknown r) → st.naming.value? r = some (.unknown r) ∨
    ∃ name ∈ st.names.avoid, st.naming.value? r = some (.var name)
  distinct : ∀ r r' name, store.value? r = some (.unknown r) →
    store.value? r' = some (.unknown r') →
    st.naming.value? r = some (.var name) → st.naming.value? r' = some (.var name) → r = r'
  values : ∀ k v, st.naming.value? k = some v → store.value? k = some v ∨
    ∃ name r, v = .var name ∧ store.Same r k ∧ store.value? r = some (.unknown r)

/-- Names that have been given stay. -/
def Keeps (st st' : NamingState) : Prop :=
  ∀ r name, st.naming.value? r = some (.var name) → st'.naming.value? r = some (.var name)

variable {store : Store} {st st' : NamingState} {r : String} {t : Ty} {fixed : List String}

theorem Keeps.refl (st : NamingState) : Keeps st st := fun _ _ ↦ id

theorem Keeps.trans {st'' : NamingState} (h : Keeps st st') (h' : Keeps st' st'') : Keeps st st'' :=
  fun r name hr ↦ h' r name (h r name hr)

theorem named_initial (hwf : store.WF) (names : Names) : Named store ⟨store, names⟩ := by
  refine ⟨hwf, fun _ _ ↦ .rfl, fun _ ↦ id, fun r h ↦ .inl h, fun r r' name h h' hn ↦ ?_,
    fun _ _ ↦ .inl⟩
  exact absurd (h.symm.trans hn) (by simp)

theorem ensures_nameOf (hst : Named store st)
    (hr : store.value? r = some (.unknown r) ∨ store.value? r = none) :
    Ensures (nameOf r) st
      (fun w st' ↦ Named store st' ∧ Keeps st st' ∧
        ∃ name, w = .var name ∧ st'.naming.value? r = some (.var name))
      (fun _ _ ↦ store.value? r = none) := by
  rw [nameOf, ensures_bind, ensures_get]
  split
  · rename_i name h
    exact ⟨hst, .refl st, name, rfl, h⟩
  · rename_i hunnamed
    have hset := Forest.ensures_setValue hst.wf r (Ty.var st.names.fresh.1)
    rcases hrun : (Forest.setValue r (Ty.var st.names.fresh.1)).run st.naming with ⟨id | u, naming⟩
    · simp only [hrun]
      rw [ensures_error hrun] at hset
      refine hr.resolve_left fun h ↦ ?_
      have hmem := ((hst.classes r r).2 (.refl (Forest.contains_of_value? h))).1
      exact absurd hmem (by simp [hset.1])
    · rw [ensures_ok hrun] at hset
      simp only [hrun]
      obtain ⟨hwf, -, hmem, hclasses, hval⟩ := hset
      have hroot : store.value? r = some (.unknown r) := by
        refine hr.resolve_right fun h ↦ ?_
        obtain ⟨v, hv⟩ := hst.wf.value?_isSome hmem
        exact absurd ((hst.missing r h).symm.trans hv) (by simp)
      -- The class of `r` has no name yet, and no other unknown without a solution is in it.
      have hclass : ∀ a name, st.naming.value? a = some (.var name) → ¬ st.naming.Same r a :=
        fun a name ha h ↦ hunnamed name (h.value?_eq.trans ha)
      have hother : ∀ r', store.value? r' = some (.unknown r') → st.naming.Same r r' → r = r' := by
        intro r' hr' h
        have h := ((hst.classes r r').1 h).value?_eq
        rw [hroot, hr'] at h
        exact unknown.inj (Option.some.inj h)
      have hnew : naming.value? r = some (.var st.names.fresh.1) := by
        rw [hval r, if_pos (.refl hmem)]
      refine ⟨⟨hwf, fun a b ↦ (hclasses a b).trans (hst.classes a b), fun a ha ↦ ?_, fun a ha ↦ ?_,
        ?_, fun a v ha ↦ ?_⟩, fun a name ha ↦ ?_, st.names.fresh.1, rfl, hnew⟩
      · have hnone := hst.missing a ha
        refine (hval a).trans ((if_neg fun h ↦ ?_).trans hnone)
        obtain ⟨v, hv⟩ := hst.wf.value?_isSome h.1
        exact absurd (hnone.symm.trans (h.value?_eq.symm.trans hv)) (by simp)
      · by_cases h : st.naming.Same r a
        · exact .inr ⟨_, List.mem_cons_self .., (hval a).trans (if_pos h)⟩
        · rw [hval a, if_neg h]
          exact (hst.named a ha).imp_right
            (Exists.imp fun name h ↦ ⟨List.mem_cons_of_mem _ h.1, h.2⟩)
      · -- The fresh name is not among those given before, which are all avoided.
        have hfresh : ∀ a, store.value? a = some (.unknown a) → r ≠ a →
            naming.value? a ≠ some (.var st.names.fresh.1) := by
          intro a ha hne h
          rw [hval a, if_neg fun h ↦ hne (hother a ha h)] at h
          rcases hst.named a ha with hu | ⟨name, hname, hv⟩
          · rw [h] at hu; cases hu
          · rw [h] at hv; cases hv
            exact Names.fresh_notMem_avoid _ hname
        intro a b name ha hb hna hnb
        by_cases hra : r = a
        · subst hra
          rw [hnew] at hna
          cases hna
          exact not_not.1 fun hne ↦ hfresh b hb hne hnb
        · by_cases hrb : r = b
          · subst hrb
            rw [hnew] at hnb
            cases hnb
            exact absurd hna (hfresh a ha hra)
          · rw [hval a, if_neg fun h ↦ hra (hother a ha h)] at hna
            rw [hval b, if_neg fun h ↦ hrb (hother b hb h)] at hnb
            exact hst.distinct a b name ha hb hna hnb
      · by_cases h : st.naming.Same r a
        · rw [hval a, if_pos h, Option.some.injEq] at ha
          exact .inr ⟨_, r, ha.symm, (hst.classes r a).1 h, hroot⟩
        · rw [hval a, if_neg h] at ha
          exact hst.values a v ha
      · exact (hval a).trans ((if_neg (hclass a name ha)).trans ha)

/-- The type for an unknown in a finished naming. -/
def nameIn (fixed : List String) (st : NamingState) (r : String) : Ty :=
  if r ∈ fixed then .unknown r else (st.naming.value? r).getD (.unknown r)

/-- The unknowns of `t` other than the fixed ones have names, and `w` is `t` with these put in. -/
structure NamedTo (fixed : List String) (st : NamingState) (t w : Ty) : Prop where
  named : ∀ r ∈ t.unknowns, r ∉ fixed → ∃ name, st.naming.value? r = some (.var name)
  eq : w = t.fill (nameIn fixed st)

theorem NamedTo.nameIn_eq {w : Ty} (h : NamedTo fixed st t w) (hr : r ∈ t.unknowns) :
    (r ∈ fixed ∧ nameIn fixed st r = .unknown r) ∨
      ∃ name, st.naming.value? r = some (.var name) ∧ nameIn fixed st r = .var name := by
  by_cases hf : r ∈ fixed
  · exact .inl ⟨hf, if_pos hf⟩
  · obtain ⟨name, hname⟩ := h.named r hr hf
    exact .inr ⟨name, hname, by rw [nameIn, if_neg hf, hname, Option.getD_some]⟩

/-- If none is fixed, no unknown is left. -/
theorem NamedTo.unknowns_eq {w : Ty} (h : NamedTo [] st t w) : w.unknowns = [] := by
  refine List.eq_nil_iff_forall_not_mem.2 fun id hid ↦ ?_
  rw [h.eq] at hid
  obtain ⟨r, hr, hid⟩ := mem_unknowns_fill.1 hid
  obtain ⟨name, -, hr⟩ := (h.nameIn_eq hr).resolve_left fun h ↦ List.not_mem_nil h.1
  rw [hr] at hid
  cases hid

theorem NamedTo.keeps {w : Ty} (h : NamedTo fixed st t w) (hk : Keeps st st') :
    NamedTo fixed st' t w := by
  refine ⟨fun r hr hf ↦ ?_, h.eq.trans (fill_congr fun r hr ↦ ?_)⟩
  · obtain ⟨name, hname⟩ := h.named r hr hf
    exact ⟨name, hk r name hname⟩
  · rw [nameIn, nameIn]
    split
    · rfl
    · rename_i hf
      obtain ⟨name, hname⟩ := h.named r hr hf
      rw [hname, hk r name hname]

/-- `nameUnknowns` names the unknowns of `t` that have no solution.  It fails only if the store does
not have one. -/
def Nameable (store : Store) (fixed : List String) (t : Ty) : Prop :=
  ∀ {st : NamingState}, Named store st →
    (∀ r ∈ t.unknowns, store.value? r = some (.unknown r) ∨ store.value? r = none) →
    Ensures (nameUnknowns fixed t) st
      (fun w st' ↦ Named store st' ∧ Keeps st st' ∧ NamedTo fixed st' t w)
      (fun _ _ ↦ ∃ r ∈ t.unknowns, store.value? r = none)

theorem ensures_nameUnknownsList {ts : List Ty} (ih : ∀ t ∈ ts, Nameable store fixed t)
    (hst : Named store st)
    (hopen : ∀ r ∈ ts.flatMap unknowns, store.value? r = some (.unknown r) ∨
      store.value? r = none) :
    Ensures (nameUnknownsList fixed ts) st
      (fun ws st' ↦ Named store st' ∧ Keeps st st' ∧ List.Forall₂ (NamedTo fixed st') ts ws)
      (fun _ _ ↦ ∃ r ∈ ts.flatMap unknowns, store.value? r = none) := by
  induction ts generalizing st with
  | nil => exact ⟨hst, .refl st, .nil⟩
  | cons t ts ih' =>
    rw [List.forall_mem_cons] at ih
    rw [List.flatMap_cons, List.forall_mem_append] at hopen
    rw [nameUnknownsList, ensures_bind]
    refine (ih.1 hst hopen.1).mono (fun w st₁ ⟨hst₁, hk₁, hw⟩ ↦ ?_)
      fun _ _ ⟨r, hr, h⟩ ↦ ⟨r, List.mem_append_left _ hr, h⟩
    rw [ensures_bind]
    refine (ih' ih.2 hst₁ hopen.2).mono (fun ws st₂ ⟨hst₂, hk₂, hws⟩ ↦ ?_)
      fun _ _ ⟨r, hr, h⟩ ↦ ⟨r, List.mem_append_right _ hr, h⟩
    exact ⟨hst₂, hk₁.trans hk₂, .cons (hw.keeps hk₂) hws⟩

theorem namedTo_row {ts ws : List Ty} (h : List.Forall₂ (NamedTo fixed st) ts ws) :
    (∀ r ∈ ts.flatMap unknowns, r ∉ fixed → ∃ name, st.naming.value? r = some (.var name)) ∧
      ws = ts.map (fill (nameIn fixed st)) := by
  induction h with
  | nil => simp
  | cons h _ ih =>
    rw [List.flatMap_cons, List.forall_mem_append]
    exact ⟨⟨h.named, ih.1⟩, by rw [List.map_cons, ← h.eq, ← ih.2]⟩

theorem nameable (store : Store) (fixed : List String) (t : Ty) : Nameable store fixed t := by
  induction t with
  | var name => exact fun hst _ ↦ ⟨hst, .refl _, nofun, rfl⟩
  | unknown r =>
    intro st hst hopen
    rw [nameUnknowns, ensures_ite]
    refine ⟨fun hf ↦ ⟨hst, .refl st, fun r' hr' hf' ↦ ?_, ?_⟩, fun hf ↦ ?_⟩
    · rw [unknowns_unknown, List.mem_singleton] at hr'
      exact absurd (List.contains_iff_mem.1 hf) (hr' ▸ hf')
    · rw [fill_unknown, nameIn, if_pos (List.contains_iff_mem.1 hf)]
    · refine (ensures_nameOf hst (hopen r (by simp))).mono ?_ fun _ _ h ↦ ⟨r, by simp, h⟩
      rintro w st' ⟨hst', hk, name, rfl, hname⟩
      refine ⟨hst', hk, fun r' hr' _ ↦ ?_, ?_⟩
      · rw [unknowns_unknown, List.mem_singleton] at hr'
        exact ⟨name, hr' ▸ hname⟩
      · rw [fill_unknown, nameIn, if_neg fun h ↦ hf (List.contains_iff_mem.2 h), hname]
        rfl
  | con tag ps ih =>
    intro st hst hopen
    rw [nameUnknowns, ensures_bind]
    rw [unknowns_con] at hopen ⊢
    refine (ensures_nameUnknownsList ih hst hopen).mono ?_ fun _ _ ↦ id
    rintro ws st' ⟨hst', hk, hws⟩
    obtain ⟨hnamed, rfl⟩ := namedTo_row hws
    exact ⟨hst', hk, unknowns_con tag ps ▸ hnamed, (fill_con ..).symm⟩
  | variadic min max ps ih =>
    intro st hst hopen
    rw [nameUnknowns, ensures_bind]
    rw [unknowns_variadic] at hopen ⊢
    refine (ensures_nameUnknownsList ih hst hopen).mono ?_ fun _ _ ↦ id
    rintro ws st' ⟨hst', hk, hws⟩
    obtain ⟨hnamed, rfl⟩ := namedTo_row hws
    exact ⟨hst', hk, unknowns_variadic ps min max ▸ hnamed, (fill_variadic ..).symm⟩
  | all bound body ih =>
    intro st hst hopen
    rw [nameUnknowns, ensures_bind]
    refine (ih hst hopen).mono ?_ fun _ _ ↦ id
    rintro w st' ⟨hst', hk, hw⟩
    exact ⟨hst', hk, hw.named, by rw [hw.eq]; rfl⟩

/-! ## A naming as a store -/

theorem Named.contains_iff (h : Named store st) (k : String) :
    st.naming.contains k = true ↔ store.contains k = true :=
  ⟨fun hk ↦ ((h.classes k k).1 (.refl hk)).1, fun hk ↦ ((h.classes k k).2 (.refl hk)).1⟩

/-- A naming is acyclic if the store is. -/
theorem Named.acyclic (h : Named store st) (hs : store.Acyclic) : st.naming.Acyclic := by
  refine hs.of_changed (C := fun _ ↦ False) (fun a _ b hab ↦ ?_) fun _ ↦ False.elim
  obtain ⟨v, hv, hb⟩ := hab
  obtain ⟨hv, hne⟩ := Store.next?_eq_some_iff.1 hv
  rcases h.values a v hv with hv | ⟨name, r, rfl, -⟩
  · exact ⟨v, Store.next?_eq_some_iff.2 ⟨hv, hne⟩, hb⟩
  · cases hb

theorem Named.apply_named (h : Named store st) (hs : store.Acyclic) {name : String}
    (hr : st.naming.value? r = some (.var name)) : st.naming.apply (.unknown r) = .var name := by
  rw [Store.apply_unknown (h.acyclic hs) (Store.next?_eq_some_iff.2 ⟨hr, nofun⟩),
    Store.apply_eq_fill,
    fill_var]

/-- `apply` with a naming is `apply` with the store, with names for the unknowns that are left. -/
theorem Named.apply_eq (h : Named store st) (hs : store.Acyclic) (t : Ty) :
    st.naming.apply t = (store.apply t).fill fun r ↦ st.naming.apply (.unknown r) := by
  -- By induction on the number of replacements; a class that has got a name had no solution.
  have hwithin : ∀ n t, store.settlesWithin n t = true →
      st.naming.apply t = (store.apply t).fill fun r ↦ st.naming.apply (.unknown r) := by
    intro n
    induction n with
    | zero => exact fun t h ↦ by simp [Store.settlesWithin] at h
    | succ n ih =>
      intro t ht
      rw [Store.apply_eq_fill, Store.apply_eq_fill store, fill_fill]
      refine fill_congr fun k hk ↦ ?_
      cases hnext : store.next? k with
      | none => rw [Store.apply_unknown_of_none hnext, fill_unknown]
      | some v =>
        obtain ⟨hv, hne⟩ := Store.next?_eq_some_iff.1 hnext
        rw [Store.apply_unknown hs hnext, ← ih v (Store.settlesWithin_iff.1 ht k hk v hnext)]
        have hmem := (h.contains_iff k).2 (Forest.contains_of_value? hv)
        obtain ⟨w, hw⟩ := h.wf.value?_isSome hmem
        rcases h.values k w hw with hkw | ⟨name, r, rfl, hsame, hr⟩
        · cases hv.symm.trans hkw
          exact Store.apply_unknown (h.acyclic hs) (Store.next?_eq_some_iff.2 ⟨hw, hne⟩)
        · -- The value of the class is its unknown without a solution, and that has the same name.
          cases (hsame.value?_eq.symm.trans hr).symm.trans hv
          have hname := ((h.classes r k).2 hsame).value?_eq.trans hw
          rw [h.apply_named hs hw, h.apply_named hs hname]
  exact hwithin _ t (hs.settles t)

/-! ## Generalising -/

/-- The unknowns of the environment after the store is applied to it. -/
def openIn (store : Store) (env : Env) : List String := Env.unknowns (env.mapValues store.apply)

theorem mem_openIn_iff {env : Env} :
    r ∈ openIn store env ↔ ∃ S ∈ env.values, r ∈ (store.apply S).unknowns := by
  rw [openIn, Env.unknowns, List.mem_flatMap]
  refine ⟨?_, ?_⟩
  · rintro ⟨_, hS, hr⟩
    obtain ⟨_, hentry, rfl⟩ := List.mem_map.1 hS
    obtain ⟨e, he, rfl⟩ := List.mem_map.1 hentry
    exact ⟨e.2, List.mem_map_of_mem he, hr⟩
  · rintro ⟨S, hS, hr⟩
    obtain ⟨e, he, rfl⟩ := List.mem_map.1 hS
    exact ⟨_, List.mem_map.2 ⟨(e.1, store.apply e.2), List.mem_map.2 ⟨e, he, rfl⟩, rfl⟩, hr⟩

/-- `openIn` is empty for an environment without unknowns. -/
theorem openIn_of_unknowns {env : Env} (henv : ∀ S ∈ env.values, S.unknowns = []) :
    openIn store env = [] := by
  refine List.eq_nil_iff_forall_not_mem.2 fun r hr ↦ ?_
  obtain ⟨S, hS, hr⟩ := mem_openIn_iff.1 hr
  rw [Store.apply_eq_fill, mem_unknowns_fill, henv S hS] at hr
  obtain ⟨k, hk, -⟩ := hr
  cases hk

/-- `G` is `store.apply t` with different variables for the unknowns that are not `openIn` the
environment. -/
def GeneralizedTo (store : Store) (env : Env) (t G : Ty) : Prop :=
  ∃ name : String → String,
    (∀ p ∈ (store.apply t).unknowns, ∀ q ∈ (store.apply t).unknowns, p ∉ openIn store env →
      q ∉ openIn store env → name p = name q → p = q) ∧
    G = (store.apply t).fill fun p ↦ if p ∈ openIn store env then .unknown p else .var (name p)

/-- The name of a type variable. -/
def varName? : Ty → Option String
  | .var name => some name
  | _ => none

/-- `generalizeNamed` names the unknowns that are left in the type.  It fails only if the naming
does not have one. -/
theorem ensures_generalizeNamed {s : InferenceState} {naming : Store} (hwf : naming.WF)
    (hs : naming.Acyclic) (env : Env) (t : Ty) :
    Ensures (generalizeNamed naming env t) s
      (fun r s' ↦ s' = { s with log := s'.log } ∧ ∃ names, Named naming ⟨r.2, names⟩ ∧
        NamedTo (openIn naming env) ⟨r.2, names⟩ (naming.apply t) r.1)
      (fun _ _ ↦ ∃ r ∈ (naming.apply t).unknowns, naming.value? r = none) := by
  obtain ⟨names, hnames⟩ : ∃ names, generalizeWith naming env t =
      ((nameUnknowns (openIn naming env) (naming.apply t)).run ⟨naming, names⟩).map id
        (·.naming) := by
    rw [generalizeWith, if_pos (by simp [hs.settles])]
    exact ⟨_, rfl⟩
  have hnamed := nameable naming (openIn naming env) (naming.apply t) (named_initial hwf names)
    fun r hr ↦ (Store.next?_eq_none_iff.1 (Store.next?_of_mem_unknowns_apply hs hr)).symm
  rw [generalizeNamed, hnames]
  rcases hrun : (nameUnknowns (openIn naming env) (naming.apply t)).run ⟨naming, names⟩
    with ⟨f | w, st⟩
  · exact (ensures_error hrun).1 hnamed
  · rw [ensures_ok hrun] at hnamed
    exact ⟨rfl, st.names, hnamed.1, hnamed.2.2⟩

/-- A type whose unknowns have been named is `GeneralizedTo`. -/
theorem NamedTo.generalizedTo {env : Env} {w : Ty}
    (hw : NamedTo (openIn store env) st (store.apply t) w) (hst : Named store st)
    (hs : store.Acyclic) : GeneralizedTo store env t w := by
  refine ⟨fun p ↦ ((st.naming.value? p).bind varName?).getD "", ?_, ?_⟩
  · intro p hp q hq hpf hqf heq
    obtain ⟨x, hx⟩ := hw.named p hp hpf
    obtain ⟨y, hy⟩ := hw.named q hq hqf
    simp only [hx, hy, varName?, Option.bind_some, Option.getD_some] at heq
    have hroot : ∀ r ∈ (store.apply t).unknowns, ∀ name, st.naming.value? r = some (.var name) →
        store.value? r = some (.unknown r) := fun r hr name hname ↦
      (Store.next?_eq_none_iff.1 (Store.next?_of_mem_unknowns_apply hs hr)).resolve_left
        fun h ↦ absurd ((hst.missing r h).symm.trans hname) (by simp)
    exact hst.distinct p q x (hroot p hp x hx) (hroot q hq y hy) hx (heq ▸ hy)
  · refine hw.eq.trans (fill_congr fun p hp ↦ ?_)
    rw [nameIn]
    split
    · rfl
    · rename_i hpf
      obtain ⟨x, hx⟩ := hw.named p hp hpf
      simp [hx, varName?]

/-- `generalize` fails only if the store does not have an unknown that is left in the type. -/
theorem ensures_generalize_missing {s : InferenceState} (hs : Valid s) (env : Env) (t : Ty) :
    Ensures (generalize env t) s
      (fun r s' ↦ s'.store = s.store ∧ s'.counter = s.counter ∧ GeneralizedTo s.store env t r.1)
      (fun _ _ ↦ ∃ r ∈ (s.store.apply t).unknowns, s.store.value? r = none) := by
  rw [generalize, ensures_bind, ensures_get]
  refine (ensures_generalizeNamed hs.wf hs.acyclic env t).mono ?_ fun _ _ ↦ id
  rintro ⟨w, naming⟩ s' ⟨hs', names, hst, hw⟩
  rw [hs']
  exact ⟨rfl, rfl, hw.generalizedTo hst hs.acyclic⟩

theorem ensures_generalize {s : InferenceState} (hs : Valid s) (env : Env) (t : Ty) :
    Ensures (generalize env t) s
      (fun r s' ↦ s'.store = s.store ∧ s'.counter = s.counter ∧ GeneralizedTo s.store env t r.1)
      (fun _ _ ↦ True) :=
  (ensures_generalize_missing hs env t).mono (fun _ _ ↦ id) fun _ _ _ ↦ trivial

theorem GeneralizedTo.polymorphic {s : InferenceState} {env : Env} {G : Ty} (hs : Valid s)
    (ht : t.Simple) (h : GeneralizedTo s.store env t G) : G.Polymorphic := by
  obtain ⟨name, -, rfl⟩ := h
  refine Built.fill (Built.mono (hs.simple_apply ht).polymorphic fun _ ↦ .inr) fun p _ ↦ ?_
  split
  · exact built_unknown.2 (.inr (.inl rfl))
  · exact built_var.2 (.inl rfl)

/-! ## Parameters for what was generalised -/

/-- There is an injection into the names that are not in `L`. -/
theorem exists_fresh (L : List String) :
    ∃ fresh : String → String, Function.Injective fresh ∧ ∀ r, fresh r ∉ L := by
  let pad := String.ofList (List.replicate ((L.map String.length).sum + 1) 'x')
  refine ⟨fun r ↦ pad ++ r, fun r r' h ↦ ?_, fun r hr ↦ ?_⟩
  · have h := congrArg String.toList h
    simp only [String.toList_append, List.append_cancel_left_eq] at h
    exact String.toList_injective h
  · have hle : (pad ++ r).length ≤ (L.map String.length).sum :=
      List.le_sum_of_mem (List.mem_map_of_mem hr)
    have hpad : pad.length = (L.map String.length).sum + 1 := by simp [pad]
    rw [String.length_append] at hle
    omega

theorem mem_openIn {env : Env} {S : Ty} {id : String} (hS : S ∈ env.values) (hid : id ∈ S.unknowns)
    (hr : r ∈ (store.apply (.unknown id)).unknowns) : r ∈ openIn store env := by
  refine mem_openIn_iff.2 ⟨S, hS, ?_⟩
  rw [Store.apply_eq_fill, mem_unknowns_fill]
  exact ⟨id, hid, hr⟩

/-- A parameter in the solution of an unknown of the environment occurs in the solved
environment. -/
theorem mem_unknowns_of_openIn {s : InferenceState} (hs : Valid s) {env : Env} {θ : String → Ty}
    (hθ : s.store.Solves θ) {p : String} (hr : r ∈ openIn s.store env) (hp : p ∈ (θ r).unknowns) :
    p ∈ Env.unknowns (env.mapValues fun S ↦ S.scheme.fill θ) := by
  obtain ⟨_, hS, hr⟩ := mem_openIn_iff.1 hr
  obtain ⟨e, he, rfl⟩ := List.mem_map.1 hS
  rw [Store.apply_eq_fill, mem_unknowns_fill] at hr
  obtain ⟨id, hid, hr⟩ := hr
  have hpid : p ∈ (θ id).unknowns := by
    rw [← fill_unknown id θ, ← hs.fill_apply hθ (simple_unknown id), mem_unknowns_fill]
    exact ⟨r, hr, hp⟩
  rw [Env.unknowns, List.mem_flatMap]
  refine ⟨e.2.scheme.fill θ, List.mem_map.2 ⟨_, List.mem_map.2 ⟨e, he, rfl⟩, rfl⟩, ?_⟩
  rw [mem_unknowns_fill]
  exact ⟨id, (unknowns_scheme e.2).symm ▸ hid, hpid⟩

/-- Any types for the unknowns that are left give a solution. -/
theorem Valid.solves_fill {s : InferenceState} (hs : Valid s) (ρ : String → Ty) :
    s.store.Solves fun id ↦ (s.store.apply (.unknown id)).fill ρ := by
  intro k t ht
  by_cases hk : t = .unknown k
  · rw [hk]; rfl
  · rw [(hs.simple k t ht).core_eq, ← fill_fill, ← Store.apply_eq_fill,
      ← Store.apply_unknown hs.acyclic (Store.next?_eq_some_iff.2 ⟨ht, hk⟩)]

/-- A solution with a parameter for every unknown that is not `openIn` the environment. -/
theorem exists_parameters {s : InferenceState} (hs : Valid s) (env : Env) {θ : String → Ty}
    (hθ : s.store.Solves θ) (hmono : ∀ id, (θ id).Mono) :
    ∃ θ', (∀ id, (θ' id).Mono) ∧ s.store.Solves θ' ∧
      (∀ S ∈ env.values, S.scheme.fill θ' = S.scheme.fill θ) ∧
      ∀ t G, t.Simple → GeneralizedTo s.store env t G →
        Generalizes (env.mapValues fun S ↦ S.scheme.fill θ) (t.fill θ') (G.fill θ) := by
  obtain ⟨fresh, hinj, hfresh⟩ :=
    exists_fresh (Env.unknowns (env.mapValues fun S ↦ S.scheme.fill θ))
  let ρ : String → Ty := fun r ↦ if r ∈ openIn s.store env then θ r else .unknown (fresh r)
  let θ' : String → Ty := fun id ↦ (s.store.apply (.unknown id)).fill ρ
  have happly : ∀ t, (s.store.apply t).fill ρ = t.fill θ' := fun t ↦ by
    rw [Store.apply_eq_fill, fill_fill]
  refine ⟨θ', fun id ↦ ?_, hs.solves_fill ρ, fun S hS ↦ ?_, ?_⟩
  · refine (hs.simple_apply (simple_unknown id)).fill_mono fun r ↦ ?_
    simp only [ρ]
    split
    · exact hmono r
    · exact mono_unknown _
  · refine fill_congr fun id hid ↦ ?_
    rw [unknowns_scheme] at hid
    calc θ' id = (s.store.apply (.unknown id)).fill θ :=
          fill_congr fun r hr ↦ if_pos (mem_openIn hS hid hr)
      _ = θ id := hs.fill_apply hθ (simple_unknown id)
  · rintro t G ht ⟨name, hname, rfl⟩
    have hback : ∀ r, Function.invFun fresh (fresh r) = r := Function.leftInverse_invFun hinj
    -- A parameter of the type is new or occurs in the environment.
    have hparam : ∀ p ∈ (t.fill θ').unknowns,
        p ∉ Env.unknowns (env.mapValues fun S ↦ S.scheme.fill θ) →
        ∃ r ∈ (s.store.apply t).unknowns, r ∉ openIn s.store env ∧ p = fresh r := by
      intro p hp hpenv
      rw [← happly t, mem_unknowns_fill] at hp
      obtain ⟨r, hr, hp⟩ := hp
      by_cases hro : r ∈ openIn s.store env
      · rw [show ρ r = θ r from if_pos hro] at hp
        exact absurd (mem_unknowns_of_openIn hs hθ hro hp) hpenv
      · rw [show ρ r = .unknown (fresh r) from if_neg hro, unknowns_unknown, List.mem_singleton]
          at hp
        exact ⟨r, hr, hro, hp⟩
    refine ⟨fun p ↦ name (Function.invFun fresh p), fun p hp q hq hpe hqe heq ↦ ?_, ?_⟩
    · obtain ⟨r, hr, hro, rfl⟩ := hparam p hp hpe
      obtain ⟨r', hr', hro', rfl⟩ := hparam q hq hqe
      simp only [hback] at heq
      rw [hname r hr r' hr' hro hro' heq]
    · rw [← happly t, fill_fill, fill_fill]
      refine fill_congr fun r _ ↦ ?_
      by_cases hro : r ∈ openIn s.store env
      · rw [if_pos hro, show ρ r = θ r from if_pos hro, fill_unknown]
        refine ((fill_congr fun p hp ↦ ?_).trans (fill_self _)).symm
        exact if_pos (mem_unknowns_of_openIn hs hθ hro hp)
      · rw [if_neg hro, show ρ r = .unknown (fresh r) from if_neg hro, fill_unknown, fill_var,
          if_neg (hfresh r)]
        exact congrArg (fun r ↦ var (name r)) (hback r).symm

end SchemeTyping.Infer
