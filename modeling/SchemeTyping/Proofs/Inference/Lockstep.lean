import SchemeTyping.Proofs.Inference.Twin

/-!
# Inference in lockstep

Two runs of inference that do the same steps make unknowns with the same numbers, and only the stems
of their ids differ.  `lockstep` compares such runs: a world is a renaming of ids together with the
two stores, live types are renamings of each other, and types of environments may differ in the
names of their variables as well.

`lockstep_parallel` says that all steps of inference match.  For generalisation the two sides have
to agree on the unknowns of the environment.  They do if every type with unknowns has a partner on
the other side, and also if the types that are generalised are `Anchored` in the names in scope.
-/

set_option autoImplicit false

namespace SchemeTyping.Infer

open Ty

/-! ## Worlds -/

/-- A renaming of the ids of the store on the left to those of the store on the right. -/
structure Lockstep where
  ids : Equiv.Perm String
  left : Store
  right : Store

/-- A later world has more unknowns; those that were there keep their ids. -/
instance : Preorder Lockstep where
  le w w' := (∀ k, w.left.contains k = true → w'.left.contains k = true ∧ w'.ids k = w.ids k) ∧
    ∀ k, w.right.contains k = true → w'.right.contains k = true
  le_refl _ := ⟨fun _ h ↦ ⟨h, rfl⟩, fun _ h ↦ h⟩
  le_trans w w' w'' h h' := ⟨fun k hk ↦ ⟨(h'.1 k (h.1 k hk).1).1,
    (h'.1 k (h.1 k hk).1).2.trans (h.1 k hk).2⟩, fun k hk ↦ h'.2 k (h.2 k hk)⟩

variable {D keep P : Prop} {w w' : Lockstep} {s t : InferenceState} {a b : Ty} {Γ : Scope}
  {env env' : Env}

/-- The states of two runs in a world. -/
structure Lockstep.States (D : Prop) (w : Lockstep) (s t : InferenceState) : Prop where
  orderly_left : Orderly D s
  orderly_right : Orderly D t
  left : s.store = w.left
  right : t.store = w.right
  twins : Twins w.ids s t

/-- The comparison of runs that do the same steps on unknowns with different ids. -/
def lockstep (D : Prop) : Comparison Lockstep where
  left := Lockstep.left
  right := Lockstep.right
  states := Lockstep.States D
  types w a b := Relabels w.ids a b ∧ Live D w.left a ∧ Live D w.right b
  entries w a b := (∃ V : String → String, V.Injective ∧ b = a.relabel V w.ids) ∧
    Known D w.left a ∧ Known D w.right b
  partners w a b := ∃ V : String → String, b = a.relabel V w.ids ∧ Known D w.left a

theorem Lockstep.keeps_left (h : w ≤ w') (k : String) (hk : w.left.contains k = true) :
    w'.left.contains k = true := (h.1 k hk).1

theorem Lockstep.ids_eq (h : w ≤ w') (ha : w.left.Registered a) :
    ∀ k ∈ a.unknowns, w.ids k = w'.ids k :=
  fun k hk ↦ ((h.1 k (ha k hk)).2).symm

theorem lockstep_types_mono (h : w ≤ w') (hab : (lockstep D).types w a b) :
    (lockstep D).types w' a b :=
  ⟨hab.1.trans (mapUnknowns_congr (Lockstep.ids_eq h hab.2.1.registered)),
    hab.2.1.mono (Lockstep.keeps_left h), hab.2.2.mono h.2⟩

theorem lockstep_entries_mono (h : w ≤ w') (hab : (lockstep D).entries w a b) :
    (lockstep D).entries w' a b := by
  obtain ⟨⟨V, hV, rfl⟩, ha, hb⟩ := hab
  exact ⟨⟨V, hV, relabel_congr V (Lockstep.ids_eq h ha.registered)⟩,
    ha.mono (Lockstep.keeps_left h),
    hb.mono h.2⟩

theorem lockstep_partners_mono (h : w ≤ w') (hab : (lockstep D).partners w a b) :
    (lockstep D).partners w' a b := by
  obtain ⟨V, rfl, ha⟩ := hab
  exact ⟨V, relabel_congr V (Lockstep.ids_eq h ha.registered), ha.mono (Lockstep.keeps_left h)⟩

/-! ## Types -/

theorem lockstep_row {ps qs : List Ty} (h : List.Forall₂ ((lockstep D).types w) ps qs) :
    qs = ps.map (mapUnknowns w.ids) ∧ (∀ p ∈ ps, Live D w.left p) ∧ ∀ q ∈ qs, Live D w.right q := by
  induction h with
  | nil => simp
  | cons h _ ih =>
    obtain ⟨rfl, hps, hqs⟩ := ih
    exact ⟨by rw [List.map_cons, ← show _ = _ from h.1], List.forall_mem_cons.2 ⟨h.2.1, hps⟩,
      List.forall_mem_cons.2 ⟨h.2.2, hqs⟩⟩

theorem lockstep_con {tag : String} {ps qs : List Ty} (hn : D → (Node.con tag ps.length).Definite)
    (h : List.Forall₂ ((lockstep D).types w) ps qs) :
    (lockstep D).types w (.con tag ps) (.con tag qs) := by
  have hlen := h.length_eq
  obtain ⟨rfl, hps, hqs⟩ := lockstep_row h
  exact ⟨(mapUnknowns_con _).symm, live_con.2 ⟨hn, hps⟩, live_con.2 ⟨hlen ▸ hn, hqs⟩⟩

theorem lockstep_variadic {min max : Option Int} {ps qs : List Ty} (hn : D → 0 < ps.length)
    (h : List.Forall₂ ((lockstep D).types w) ps qs) :
    (lockstep D).types w (.variadic min max ps) (.variadic min max qs) := by
  have hlen := h.length_eq
  obtain ⟨rfl, hps, hqs⟩ := lockstep_row h
  exact ⟨(mapUnknowns_variadic _).symm, live_variadic.2 ⟨hn, hps⟩, live_variadic.2 ⟨hlen ▸ hn, hqs⟩⟩

theorem lockstep_alike (h : (lockstep D).types w a b) : Alike ((lockstep D).types w) a b := by
  obtain ⟨rfl, ha, hb⟩ := h
  cases a with
  | var name => exact absurd rfl (built_var.1 ha.built).1
  | unknown id => exact .unknown id (w.ids id)
  | all bound body => exact absurd rfl (built_all.1 ha.built).1.2.1
  | con tag ps =>
    rw [mapUnknowns_con] at hb ⊢
    refine .con tag (List.forall₂_map_right_iff.2 (List.forall₂_same.2 fun p hp ↦ ?_))
    exact ⟨rfl, (live_con.1 ha).2 p hp, (live_con.1 hb).2 _ (List.mem_map_of_mem hp)⟩
  | variadic min max ps =>
    rw [mapUnknowns_variadic] at hb ⊢
    refine .variadic min max (List.forall₂_map_right_iff.2 (List.forall₂_same.2 fun p hp ↦ ?_))
    exact ⟨rfl, (live_variadic.1 ha).2 p hp, (live_variadic.1 hb).2 _ (List.mem_map_of_mem hp)⟩

/-! ## Steps -/

/-- Steps that are related by the renaming and produce live types match. -/
theorem Relates.matches {x y : Infer Ty} (hxy : Relates w.ids (Relabels w.ids) x y)
    (hst : w.States D s t) (hx : Produces D x s) (hy : Produces D y t) :
    Matches (lockstep D).states (lockstep D).types w x y s t := by
  refine (hxy s t hst.twins).transfer hx hy fun _ s' t' a b _ htwins hab ha hb ↦ ?_
  refine ⟨⟨w.ids, s'.store, t'.store⟩, ⟨fun k hk ↦ ⟨ha.1.keeps k (hst.left ▸ hk), rfl⟩,
    fun k hk ↦ hb.1.keeps k (hst.right ▸ hk)⟩, ⟨ha.1.orderly, hb.1.orderly, rfl, rfl, htwins⟩,
    hab, ha.2, hb.2⟩

theorem lockstep_unify (e₁ e₂ e₁' e₂' : Option Mention) {a' b' : Ty} (hst : w.States D s t)
    (ha : (lockstep D).types w a a') (hb : (lockstep D).types w b b') :
    Matches (lockstep D).states (lockstep D).types w (unify a b e₁ e₂)
      (unify a' b' e₁' e₂') s t := by
  obtain ⟨rfl, hal, har⟩ := ha
  obtain ⟨rfl, hbl, hbr⟩ := hb
  rw [← hst.left] at hal hbl
  rw [← hst.right] at har hbr
  exact (relates_unify a b).matches hst (produces_unify hst.orderly_left hal hbl)
    (produces_unify hst.orderly_right har hbr)

theorem lockstep_applied (hst : w.States D s t) (hab : (lockstep D).types w a b) :
    Matches (lockstep D).states (lockstep D).types w (applied a) (applied b) s t := by
  obtain ⟨hrel, hal, hbr⟩ := hab
  rw [← hst.left] at hal
  rw [← hst.right] at hbr
  exact (relates_applied hrel).matches hst (produces_applied hst.orderly_left hal)
    (produces_applied hst.orderly_right hbr)

theorem lockstep_record (site site' : Site) (hst : w.States D s t)
    (hab : (lockstep D).types w a b) :
    w.States D { s with types := s.types.insert site.key a }
      { t with types := t.types.insert site'.key b } := by
  obtain ⟨hs, ht, hleft, hright, htwins⟩ := hst
  obtain ⟨-, ha, hb⟩ := hab
  exact ⟨(produces_recorded hs site (hleft ▸ ha)).1.orderly,
    (produces_recorded ht site' (hright ▸ hb)).1.orderly, hleft, hright,
      htwins.congr ⟨rfl, rfl⟩ ⟨rfl, rfl⟩⟩

/-! ## New unknowns -/

/-- A number after the last one has not been given out. -/
theorem Numbered.contains_later (h : Numbered s) (stem : String) {n : Nat} (hn : s.counter < n) :
    s.store.contains (stem ++ "#" ++ toString n) = false := by
  refine Bool.eq_false_iff.2 fun hmem ↦ ?_
  obtain ⟨stem', m, hm, he⟩ := h.given _ hmem
  have := number_eq_of_id he
  omega

/-- The number of a new unknown has not been given out. -/
theorem Numbered.contains_new (h : Numbered s) (stem : String) :
    s.store.contains (stem ++ "#" ++ toString (s.counter + 1)) = false :=
  h.contains_later stem (Nat.lt_succ_self _)

theorem Numbered.newUnknown (h : Numbered s) (stem : String) (v : Ty) :
    Numbered { s with
      counter := s.counter + 1
      store := s.store.add (stem ++ "#" ++ toString (s.counter + 1)) v } := by
  refine ⟨fun k hk ↦ ?_, ?_⟩
  · obtain ⟨i, hi⟩ := Forest.contains_iff.1 hk
    rw [Forest.get?_index_add] at hi
    split at hi
    · exact ⟨stem, s.counter + 1, le_rfl, ‹_ = k›.symm⟩
    · obtain ⟨stem', n, hn, he⟩ := h.given k (Forest.contains_iff.2 ⟨i, hi⟩)
      exact ⟨stem', n, Nat.le_succ_of_le hn, he⟩
  · exact Forest.nodup_keys_add h.nodup _ _

/-- New unknowns with the same number correspond in a later world. -/
theorem lockstep_newUnknown (stem stem' : String) (hst : w.States D s t) :
    Matches (lockstep D).states (lockstep D).types w (newUnknown stem) (newUnknown stem') s t := by
  obtain ⟨ids, left, right⟩ := w
  obtain ⟨hs, ht, rfl, rfl, htwins⟩ := hst
  have hnew := htwins.numbered_left.contains_new stem
  have hnew' := htwins.numbered_right.contains_new stem'
  have hnumbered :=
    htwins.numbered_left.newUnknown stem (.unknown (stem ++ "#" ++ toString (s.counter + 1)))
  have hnumbered' :=
    htwins.numbered_right.newUnknown stem' (.unknown (stem' ++ "#" ++ toString (t.counter + 1)))
  have hx := produces_newUnknown hs stem
  have hy := produces_newUnknown ht stem'
  rw [Produces, Proceeds, ensures_ok (run_newUnknown _)] at hx hy
  rw [Matches, run_newUnknown, run_newUnknown]
  revert hnew hnew' hnumbered hnumbered' hx hy
  generalize stem ++ "#" ++ toString (s.counter + 1) = k,
    stem' ++ "#" ++ toString (t.counter + 1) = k'
  intro hnew hnew' hnumbered hnumbered' hx hy
  -- The renaming is changed at the two new ids only.
  have hkeep : ∀ j, s.store.contains j = true → (ids.trans (Equiv.swap (ids k) k')) j = ids j := by
    intro j hj
    refine Equiv.swap_apply_of_ne_of_ne (fun h ↦ ?_) fun h ↦ ?_
    · rw [ids.injective h, hnew] at hj
      cases hj
    · rw [← htwins.stores.contains, h] at hj
      exact Bool.false_ne_true (hnew'.symm.trans hj)
  have hk : (ids.trans (Equiv.swap (ids k) k')) k = k' := Equiv.swap_apply_left ..
  have hadd := (htwins.stores.congr hs.closed hkeep).add hs.wf ht.wf hnew
  rw [hk] at hadd
  refine ⟨⟨_, _, _⟩, ⟨fun j hj ↦ ⟨hx.1.keeps j hj, hkeep j hj⟩, hy.1.keeps⟩,
    ⟨hx.1.orderly, hy.1.orderly, rfl, rfl, hx.1.orderly.wf, hy.1.orderly.wf, hadd,
      congrArg Nat.succ htwins.counter, hnumbered, hnumbered'⟩, ?_, hx.2, hy.2⟩
  exact (congrArg Ty.unknown hk).symm

/-! ## Generalisation -/

/-- Two injective labellings of a list differ by a permutation. -/
theorem exists_perm_apply {α : Type} (l : List α) (u v : α → String)
    (hu : ∀ p ∈ l, ∀ q ∈ l, u p = u q → p = q) (hv : ∀ p ∈ l, ∀ q ∈ l, v p = v q → p = q) :
    ∃ V : Equiv.Perm String, ∀ p ∈ l, V (u p) = v p := by
  induction l with
  | nil => exact ⟨1, by simp⟩
  | cons p l ih =>
    obtain ⟨V, hV⟩ := ih
      (fun q hq r hr ↦ hu q (List.mem_cons_of_mem _ hq) r (List.mem_cons_of_mem _ hr))
      fun q hq r hr ↦ hv q (List.mem_cons_of_mem _ hq) r (List.mem_cons_of_mem _ hr)
    refine ⟨V.trans (Equiv.swap (V (u p)) (v p)), List.forall_mem_cons.2
      ⟨Equiv.swap_apply_left .., fun q hq ↦ ?_⟩⟩
    have hq' := List.mem_cons_of_mem p hq
    rw [Equiv.trans_apply, hV q hq]
    by_cases hqp : q = p
    · rw [← hqp, hV q hq, Equiv.swap_self, Equiv.refl_apply]
    · refine Equiv.swap_apply_of_ne_of_ne (fun h ↦ hqp ?_) fun h ↦
        hqp (hv q hq' p List.mem_cons_self h)
      rw [← hV q hq] at h
      exact hu q hq' p List.mem_cons_self (V.injective h)

/-- The unknowns of a generalised type that are `openIn` the environments correspond. -/
theorem lockstep_openIn (hkeep : keep ∨ P) (htwin : Store.Twin w.ids w.left w.right)
    (henv : (lockstep D).Environments D keep w Γ env env') (hab : Relabels w.ids a b)
    (hanchored : P → Anchored (fun x ↦ ∃ y, Γ.names x y) env w.left a ∧
      Anchored (fun y ↦ ∃ x, Γ.names x y) env' w.right b) {p : String}
    (hp : p ∈ (w.left.apply a).unknowns) :
    p ∈ openIn w.left env ↔ w.ids p ∈ openIn w.right env' := by
  have hne : ∀ {store : Store} {S : Ty} {q : String}, q ∈ (store.apply S).unknowns →
      S.unknowns ≠ [] := by
    intro store S q hq hnil
    rw [Store.apply_eq_fill, mem_unknowns_fill, hnil] at hq
    obtain ⟨k, hk, -⟩ := hq
    cases hk
  refine ⟨fun hopen ↦ ?_, fun hopen ↦ ?_⟩
  · obtain ⟨S, V, hpS, hS'⟩ : ∃ S V, p ∈ (w.left.apply S).unknowns ∧
        S.relabel V w.ids ∈ env'.values := by
      rcases hkeep with hkeep | hP
      · obtain ⟨S, hS, hpS⟩ := mem_openIn_iff.1 hopen
        obtain ⟨x, hx⟩ := henv.apparent_left.exists_get? hS (hne hpS)
        obtain ⟨y, S', -, hy, V, rfl, -⟩ := henv.looks.left hkeep x S hx (hne hpS)
        exact ⟨S, V, hpS, OrdMap.mem_values_of_get? hy⟩
      · obtain ⟨x, S, ⟨y, hxy⟩, hx, hpS⟩ := (hanchored hP).1 p hp hopen
        obtain ⟨S', hy, ⟨V, -, rfl⟩, -⟩ := exists_of_rel_left (henv.looks.names x y hxy) hx
        exact ⟨S, V, hpS, OrdMap.mem_values_of_get? hy⟩
    exact mem_openIn_iff.2 ⟨_, hS', htwin.mem_unknowns_apply_relabel.2 hpS⟩
  · obtain ⟨S, V, hpS, hS⟩ : ∃ S V, w.ids p ∈ (w.right.apply (S.relabel V w.ids)).unknowns ∧
        S ∈ env.values := by
      rcases hkeep with hkeep | hP
      · obtain ⟨S', hS', hpS⟩ := mem_openIn_iff.1 hopen
        obtain ⟨y, hy⟩ := henv.apparent_right.exists_get? hS' (hne hpS)
        obtain ⟨x, S, -, hx, V, rfl, -⟩ := henv.looks.right hkeep y S' hy (hne hpS)
        exact ⟨S, V, hpS, OrdMap.mem_values_of_get? hx⟩
      · have hp' : w.ids p ∈ (w.right.apply b).unknowns := by
          rw [hab, htwin.apply, unknowns_mapUnknowns]
          exact List.mem_map_of_mem hp
        obtain ⟨y, S', ⟨x, hxy⟩, hy, hpS⟩ := (hanchored hP).2 _ hp' hopen
        obtain ⟨S, hx, ⟨V, -, rfl⟩, -⟩ := exists_of_rel_right (henv.looks.names x y hxy) hy
        exact ⟨S, V, hpS, OrdMap.mem_values_of_get? hx⟩
    exact mem_openIn_iff.2 ⟨S, hS, htwin.mem_unknowns_apply_relabel.1 hpS⟩

/-- The generalised types differ by a relabelling, if the unknowns that are `openIn` the
environments correspond. -/
theorem GeneralizedTo.exists_relabel {ρ : Equiv.Perm String} {f g : Store} {G G' : Ty}
    (hG : GeneralizedTo f env a G) (hG' : GeneralizedTo g env' (a.mapUnknowns ρ) G')
    (htwin : Store.Twin ρ f g) (ha : (f.apply a).Built (Node.Live D))
    (hopen : ∀ p ∈ (f.apply a).unknowns, p ∈ openIn f env ↔ ρ p ∈ openIn g env') :
    ∃ V : String → String, V.Injective ∧ G' = G.relabel V ρ := by
  obtain ⟨u, hu, rfl⟩ := hG
  obtain ⟨v, hv, rfl⟩ := hG'
  rw [htwin.apply] at hv ⊢
  generalize f.apply a = A at *
  -- Names for the unknowns that are not fixed are different on either side.
  obtain ⟨V, hV⟩ := exists_perm_apply (A.unknowns.filter (· ∉ openIn f env)) u (fun p ↦ v (ρ p))
    (fun p hp q hq ↦ by
      rw [List.mem_filter, decide_eq_true_eq] at hp hq
      exact hu p hp.1 q hq.1 hp.2 hq.2)
    (fun p hp q hq h ↦ by
      rw [List.mem_filter, decide_eq_true_eq] at hp hq
      rw [unknowns_mapUnknowns] at hv
      exact ρ.injective (hv _ (List.mem_map_of_mem hp.1) _ (List.mem_map_of_mem hq.1)
        (fun h ↦ hp.2 ((hopen p hp.1).2 h)) (fun h ↦ hq.2 ((hopen q hq.1).2 h)) h))
  refine ⟨V, V.injective, ?_⟩
  rw [relabel_fill ⟨fun h ↦ h.1 rfl, fun h ↦ h.2.1 rfl⟩ ha, mapUnknowns, fill_fill]
  refine fill_congr fun p hp ↦ ?_
  rw [fill_unknown]
  by_cases hpo : p ∈ openIn f env
  · rw [if_pos hpo, if_pos ((hopen p hp).1 hpo), relabel]
  · rw [if_neg hpo, if_neg fun h ↦ hpo ((hopen p hp).2 h), relabel,
      hV p (List.mem_filter.2 ⟨hp, decide_eq_true hpo⟩)]

theorem lockstep_generalize (hkeep : keep ∨ P) (hst : w.States D s t)
    (henv : (lockstep D).Environments D keep w Γ env env') (hab : (lockstep D).types w a b)
    (hanchored : P → Anchored (fun x ↦ ∃ y, Γ.names x y) env w.left a ∧
      Anchored (fun y ↦ ∃ x, Γ.names x y) env' w.right b) :
    Matches (lockstep D).states (fun w' r r' ↦ w' = w ∧ (lockstep D).entries w r.1 r'.1) w
      (generalize env a)
      (generalize env' b) s t := by
  obtain ⟨ids, left, right⟩ := w
  obtain ⟨hs, ht, rfl, rfl, htwins⟩ := hst
  obtain ⟨hrel, ha, hb⟩ := hab
  have hopen := fun p ↦ lockstep_openIn hkeep htwins.stores henv hrel hanchored (p := p)
  cases hrel
  refine matches_of_ensures (ensures_generalize_live hs env ha)
    (ensures_generalize_live ht env' hb) ?_
  rintro ⟨G, _⟩ s' ⟨G', _⟩ t' ⟨hs', hG, hknown⟩ ⟨ht', hG', hknown'⟩
  have hrelabel := hG.exists_relabel hG' htwins.stores (hs.live_apply ha).built hopen
  rw [hs', ht']
  exact ⟨_, le_rfl, ⟨⟨hs.wf, hs.acyclic, hs.solutions, hs.cached⟩,
    ⟨ht.wf, ht.acyclic, ht.solutions, ht.cached⟩, rfl, rfl, htwins.congr ⟨rfl, rfl⟩ ⟨rfl, rfl⟩⟩,
      rfl, hrelabel,
    hknown, hknown'⟩

/-! ## All steps -/

/-- **All steps of inference match in lockstep**, if every type with unknowns has a partner, or if
types are anchored in the names in scope. -/
theorem lockstep_parallel (hkeep : keep ∨ P) : (lockstep D).Parallel D keep P where
  orderly h := ⟨⟨h.orderly_left, h.twins.numbered_left⟩, h.orderly_right, h.twins.numbered_right⟩
  stores h := ⟨h.left, h.right⟩
  keeps_left := Lockstep.keeps_left
  keeps_right h := h.2
  types_mono := lockstep_types_mono
  entries_mono := lockstep_entries_mono
  partners_mono := lockstep_partners_mono
  entry h := ⟨⟨id, Function.injective_id, h.1.trans (relabel_id ..).symm⟩, h.2.1.known, h.2.2.known⟩
  partner := fun ⟨⟨V, _, h⟩, ha, _⟩ ↦ ⟨V, h, ha⟩
  known h := h.2
  alike := lockstep_alike
  con := lockstep_con
  variadic := lockstep_variadic
  scheme := by
    rintro w a b ⟨⟨V, hV, rfl⟩, ha, hb⟩
    refine ⟨V, w.ids, hV, rfl, fun k hk ↦ ⟨rfl, live_unknown (ha.registered k hk), live_unknown ?_⟩⟩
    refine hb.registered _ ?_
    rw [unknowns_relabel]
    exact List.mem_map_of_mem hk
  declared := by
    intro w a hnil ha
    have hself : a.relabel id w.ids = a := (relabel_id _ a).trans (mapUnknowns_eq_self hnil)
    exact ⟨⟨id, Function.injective_id, hself.symm⟩, ha, ha.built, by simp [Store.Registered, hnil]⟩
  newUnknown := lockstep_newUnknown
  unify e₁ e₂ e₁' e₂' := lockstep_unify e₁ e₂ e₁' e₂'
  applied := lockstep_applied
  record := lockstep_record
  generalize := lockstep_generalize hkeep

end SchemeTyping.Infer
