import SchemeTyping.Proofs.Checker.Calls
import SchemeTyping.Proofs.Checker.Clean

/-!
# Checking is sound

If the checker records no diagnostic for an expression that is `FullyTyped`, then the type that it
finds is derivable (`derivable_of_typeOfRoot`).  Such a check is `Clean`, and every rule of `Clean`
follows from the rules of static typing in an environment of tame types (`Clean.derivable`).
-/

set_option autoImplicit false

namespace SchemeTyping.Check

open Ty

variable {Q : List String} {Γ : Env} {e : Expr} {es : List Expr} {t T : Ty} {ts : List Ty}

/-! ## Fully typed expressions -/

/-- An expression for which no type has to be guessed: it is not a hole, a definition or an empty
sequence, bindings bind names, and parameters and the names of `letrec` are declared with types that
are `Declarable Q`. -/
def FullyTyped (Q : List String) : Expr → Prop
  | .hole => False
  | .define .. => False
  | .sequence es => es ≠ []
  | .lambda params _ => ∀ p ∈ params, p.declared?.isSome
  | .letIn bindings _ => ∀ b ∈ bindings, b.1.identifier?.isSome
  | .letrec bindings _ => ∀ b ∈ bindings, b.1.declared?.isSome
  | .binding _ declared => ∀ d ∈ declared, d.Declarable Q
  | _ => True

instance : DecidablePred (FullyTyped Q)
  | .hole => inferInstanceAs (Decidable False)
  | .define .. => inferInstanceAs (Decidable False)
  | .sequence es => inferInstanceAs (Decidable (es ≠ []))
  | .lambda params _ => inferInstanceAs (Decidable (∀ p ∈ params, p.declared?.isSome))
  | .letIn bindings _ => inferInstanceAs (Decidable (∀ b ∈ bindings, b.1.identifier?.isSome))
  | .letrec bindings _ => inferInstanceAs (Decidable (∀ b ∈ bindings, b.1.declared?.isSome))
  | .binding _ declared => inferInstanceAs (Decidable (∀ d ∈ declared, d.Declarable Q))
  | .number _ | .bool _ | .string _ | .null | .list _ | .var _ | .call .. | .branch .. | .cond _ =>
    inferInstanceAs (Decidable True)

theorem identifier_of_declared (h : e.declared?.isSome) : e.identifier?.isSome := by
  cases e with
  | binding => rfl
  | _ => cases h

theorem slotted_of_fullyTyped (h : FullyTyped Q e) : e.Slotted ∧ ¬ e.isDefine := by
  cases e with
  | define => exact h.elim
  | lambda params body =>
    exact ⟨fun p hp ↦ identifier_of_declared (h p hp), by simp [Expr.isDefine]⟩
  | letrec bindings body =>
    exact ⟨fun b hb ↦ identifier_of_declared (h b hb), by simp [Expr.isDefine]⟩
  | letIn bindings body => exact ⟨h, by simp [Expr.isDefine]⟩
  | _ => exact ⟨trivial, by simp [Expr.isDefine]⟩

/-! ## Tame types -/

/-- An environment of tame types. -/
def TameEnv (Q : List String) (Γ : Env) : Prop := ∀ t ∈ Γ.values, t.Tame Q

theorem TameEnv.insertAll {Γ : Env} {names : List (String × Ty)} (h : TameEnv Q Γ)
    (hnames : ∀ b ∈ names, b.2.Tame Q) : TameEnv Q (Γ.insertAll names) := by
  intro t ht
  rcases OrdMap.mem_values_insertAll ht with ht | ht
  · obtain ⟨b, hb, rfl⟩ := List.mem_map.1 ht
    exact hnames b hb
  · exact h t ht

theorem tame_literal {e : Expr} {t : Ty} (h : literalType? e = some t) : t.Tame Q := by
  revert h
  fun_cases literalType? <;> rintro ⟨⟩
  · split <;> exact tame_atom (by decide)
  all_goals exact tame_atom (by decide)

theorem tame_never (Q : List String) : never.Tame Q := tame_atom (by decide)

theorem tame_list {t : Ty} (h : t.Tame Q) : (list t).Tame Q := by
  have hlist : (Node.con "List" 1).Formed := by decide
  exact tame_con hlist (List.forall_mem_singleton.2 h)

theorem tame_function (hts : ∀ t ∈ ts, t.Tame Q) (hT : T.Tame Q) :
    (function (ts ++ [T])).Tame Q := by
  refine tame_con ⟨⟨by decide, by decide, by simp⟩, by simp, fun _ ↦ by simp⟩ ?_
  rw [List.forall_mem_append]
  exact ⟨hts, by simpa using hT⟩

/-! ## Lists -/

/-- The type found for `e` is tame and derivable. -/
abbrev Found (Q : List String) (Γ : Env) (e : Expr) (t : Ty) : Prop := t.Tame Q ∧ Derivable Γ e t

theorem forall₂_of_getElem? {α β : Type} {R : α → β → Prop} {as : List α} {bs : List β}
    (hlen : bs.length = as.length)
    (h : ∀ (i : Nat) a b, as[i]? = some a → bs[i]? = some b → R a b) : List.Forall₂ R as bs := by
  refine List.forall₂_iff_zip.2 ⟨hlen.symm, fun {a b} hab ↦ ?_⟩
  obtain ⟨i, hi⟩ := List.mem_iff_getElem?.1 hab
  obtain ⟨ha, hb⟩ := List.getElem?_zip_eq_some.1 hi
  exact h i a b ha hb

theorem derivable_any (h : List.Forall₂ (Found Q Γ) es ts) : ∀ e ∈ es, Derivable Γ e any := by
  induction h with
  | nil => nofun
  | cons he _ ih => exact List.forall_mem_cons.2 ⟨he.2.any, ih⟩

/-- A derivable tame type can be enlarged by a join. -/
theorem Derivable.join {Γ : Env} {t T : Ty} (hT : T.Tame Q) (ht : t.Tame Q) :
    (T.join t).Tame Q ∧ T.isSubtype (T.join t) = true ∧
      ∀ e, Derivable Γ e t → Derivable Γ e (T.join t) := by
  have hjoin := hT.bound .upper ht
  obtain ⟨hleft, hright⟩ := holds_bound .upper T t
  exact ⟨hjoin, hleft, fun e he ↦ he.sub hright hjoin.static⟩

theorem derivable_joins (h : List.Forall₂ (Found Q Γ) es ts) (hT : T.Tame Q) :
    (ts.foldl join T).Tame Q ∧ T.isSubtype (ts.foldl join T) = true ∧
      ∀ e ∈ es, Derivable Γ e (ts.foldl join T) := by
  induction h generalizing T with
  | nil => exact ⟨hT, isSubtype_refl T, nofun⟩
  | cons ht _ ih =>
    obtain ⟨hjoin, hle, hder⟩ := Derivable.join (Γ := Γ) hT ht.1
    obtain ⟨hR, hle', hes⟩ := ih hjoin
    exact ⟨hR, isSubtype_trans hjoin.static hle hle',
      List.forall_mem_cons.2 ⟨(hder _ ht.2).sub hle' hR.static, hes⟩⟩

theorem derivable_last (h : List.Forall₂ (Found Q Γ) es ts) (hne : es ≠ []) :
    Found Q Γ (.sequence es) (ts.getLast?.getD T) := by
  obtain ⟨hlen, hzip⟩ := List.forall₂_iff_zip.1 h
  have hany := derivable_any h
  obtain ⟨es, e, rfl⟩ := (List.eq_nil_or_concat' es).resolve_left hne
  obtain ⟨ts, t, rfl⟩ := (List.eq_nil_or_concat' ts).resolve_left (by rintro rfl; simp at hlen)
  have hlen : es.length = ts.length := by simpa using hlen
  obtain ⟨ht, he⟩ : Found Q Γ e t := hzip (by simp [List.zip_append hlen])
  simp only [List.getLast?_append, List.getLast?_singleton, Option.some_or, Option.getD_some]
  exact ⟨ht, .sequence (List.forall_mem_append.1 hany).1 he⟩

/-! ## Slots -/

theorem getElem?_paramTypes {params : List Expr} {i : Nat} {u : Ty}
    (h : (paramTypes params ts)[i]? = some u) :
    ∃ p t, params[i]? = some p ∧ ts[i]? = some t ∧ u = p.declared?.getD t := by
  induction params generalizing ts i with
  | nil => cases h
  | cons p params ih =>
    cases ts with
    | nil => cases h
    | cons t ts =>
      cases i with
      | zero => exact ⟨p, t, rfl, rfl, (Option.some.inj h).symm⟩
      | succ i => exact ih h

/-- `paramTypes` does not depend on the expected types where all are declared. -/
theorem paramTypes_of_declared {params : List Expr} {us : List Ty}
    (h : ∀ p ∈ params, p.declared?.isSome) (hts : ts.length = params.length)
    (hus : us.length = params.length) : paramTypes params us = paramTypes params ts := by
  induction params generalizing ts us with
  | nil => rfl
  | cons p params ih =>
    rw [List.forall_mem_cons] at h
    obtain ⟨t, ts, rfl⟩ := List.exists_cons_of_length_eq_add_one hts
    obtain ⟨u, us, rfl⟩ := List.exists_cons_of_length_eq_add_one hus
    obtain ⟨d, hd⟩ := Option.isSome_iff_exists.1 h.1
    rw [paramTypes, paramTypes, hd, ih h.2 (Nat.succ.inj hts) (Nat.succ.inj hus)]
    rfl

/-- The names in slots, with the types of `paramTypes`. -/
theorem exists_admits {params : List Expr} (hnamed : ∀ p ∈ params, p.identifier?.isSome)
    (hparams : ∀ p ∈ params, FullyTyped Q p) (hlen : ts.length = params.length) :
    ∃ names, List.Forall₂ Admits params names ∧ names.map (·.2) = paramTypes params ts ∧
      ∀ Γ, bindSlots Γ params (paramTypes params ts) = Γ.insertAll names := by
  induction params generalizing ts with
  | nil => exact ⟨[], .nil, rfl, fun _ ↦ rfl⟩
  | cons p params ih =>
    rw [List.forall_mem_cons] at hnamed hparams
    obtain ⟨t, ts, rfl⟩ := List.exists_cons_of_length_eq_add_one hlen
    obtain ⟨names, hadmits, htypes, hbind⟩ := ih hnamed.2 hparams.2 (Nat.succ.inj hlen)
    cases p with
    | hole => exact hparams.1.elim
    | binding name declared =>
      refine ⟨(name, declared.getD t) :: names, .cons ?_ hadmits,
        by rw [List.map_cons, htypes]; rfl,
        fun Γ ↦ hbind _⟩
      cases declared with
      | none => exact .inl rfl
      | some d => exact .inr rfl
    | _ => cases hnamed.1

theorem declares_of_admits {params : List Expr} {names : List (String × Ty)}
    (h : List.Forall₂ Admits params names) (hdeclared : ∀ p ∈ params, p.declared?.isSome) :
    List.Forall₂ Declares params names := by
  induction h with
  | nil => exact .nil
  | cons hp _ ih =>
    rw [List.forall_mem_cons] at hdeclared
    rcases hp with rfl | hp
    · cases hdeclared.1
    · exact .cons hp (ih hdeclared.2)

/-- Declared types are tame, so `paramTypes` are if the types for undeclared slots are. -/
theorem tame_paramTypes {params : List Expr} (hparams : ∀ p ∈ params, FullyTyped Q p)
    (h : ∀ q ∈ params.zip ts, q.1.declared? = none → q.2.Tame Q) :
    ∀ u ∈ paramTypes params ts, u.Tame Q := by
  intro u hu
  obtain ⟨i, hi⟩ := List.mem_iff_getElem?.1 hu
  obtain ⟨p, t, hp, ht, rfl⟩ := getElem?_paramTypes hi
  cases hd : p.declared? with
  | none => exact h (p, t) (List.mem_of_getElem? (List.getElem?_zip_eq_some.2 ⟨hp, ht⟩)) hd
  | some d =>
    have hfull := hparams p (List.mem_of_getElem? hp)
    cases p with
    | binding name declared => exact (hfull d hd).tame
    | _ => cases hd

theorem tame_declared {params : List Expr} (hdeclared : ∀ p ∈ params, p.declared?.isSome)
    (hparams : ∀ p ∈ params, FullyTyped Q p) (ts : List Ty) :
    ∀ u ∈ paramTypes params ts, u.Tame Q := by
  refine tame_paramTypes hparams fun q hq hnone ↦ ?_
  have hsome := hdeclared q.1 (List.of_mem_zip hq).1
  rw [hnone] at hsome
  cases hsome

/-- The values of bindings have the types of their names. -/
theorem derivable_values {bindings : List (Expr × Expr)} {names : List (String × Ty)}
    (hfits : List.Forall₂ Fits (slots bindings) ts)
    (hnames : names.map (·.2) = paramTypes (slots bindings) ts) (htame : ∀ b ∈ names, b.2.Tame Q)
    (hvalues : ∀ (i : Nat) b u, bindings[i]? = some b → ts[i]? = some u → Derivable Γ b.2 u) :
    ∀ q ∈ bindings.zip names, Derivable Γ q.1.2 q.2.2 := by
  rintro ⟨b, n⟩ hq
  obtain ⟨i, hi⟩ := List.mem_iff_getElem?.1 hq
  obtain ⟨hb, hn⟩ := List.getElem?_zip_eq_some.1 hi
  have hu : (paramTypes (slots bindings) ts)[i]? = some n.2 := by
    rw [← hnames, List.getElem?_map, hn]; rfl
  obtain ⟨p, t, hp, ht, hnt⟩ := getElem?_paramTypes hu
  obtain rfl : b.1 = p := by simpa [hb] using hp
  have hvalue := hvalues i b t hb ht
  dsimp only
  cases hd : b.1.declared? with
  | none => rwa [hnt, hd]
  | some d =>
    have hfit :=
      (List.forall₂_iff_zip.1 hfits).2 (List.mem_of_getElem? (List.getElem?_zip_eq_some.2 ⟨hp, ht⟩))
    have hstatic := (htame n (List.mem_of_getElem? hn)).static
    rw [hnt, hd] at hstatic ⊢
    exact hvalue.sub (hfit d hd) hstatic

/-! ## All expressions -/

/-- A clean check of a fully typed expression finds a derivable type. -/
theorem Clean.derivable {g : Path → Option Ty} (h : Clean Γ e t g) (he : e.All (FullyTyped Q))
    (hΓ : TameEnv Q Γ) : Found Q Γ e t := by
  induction h with
  | literal _ h => exact ⟨tame_literal h, .literal h⟩
  | hole => exact (Expr.all_iff.1 he).1.elim
  | @name Γ e name t g _ hname h =>
    refine ⟨hΓ t (OrdMap.mem_values_of_get? h), ?_⟩
    cases e with
    | var =>
      cases hname
      exact .var h
    | binding =>
      cases hname
      exact .binding h
    | _ => cases hname
  | list _ hlen _ ih =>
    have hes := (Expr.all_iff.1 he).2
    obtain ⟨htame, -, hder⟩ := derivable_joins
      (forall₂_of_getElem? hlen fun i e t he ht ↦
        ih i e t he ht (hes e (List.mem_of_getElem? he)) hΓ)
      (tame_never Q)
    exact ⟨tame_list htame, .list htame.static hder⟩
  | sequence _ hlen _ ih =>
    obtain ⟨hne, hes⟩ := Expr.all_iff.1 he
    exact derivable_last
      (forall₂_of_getElem? hlen fun i e t he ht ↦
        ih i e t he ht (hes e (List.mem_of_getElem? he)) hΓ) hne
  | branch _ _ _ _ ihc iha ihb =>
    obtain ⟨-, hchildren⟩ := Expr.all_iff.1 he
    simp only [Expr.children, List.forall_mem_cons] at hchildren
    obtain ⟨ht, ha⟩ := iha hchildren.2.1 hΓ
    obtain ⟨ht', hb⟩ := ihb hchildren.2.2.1 hΓ
    obtain ⟨hjoin, hle, hle'⟩ := Derivable.join (Γ := _) ht ht'
    exact ⟨hjoin, .branch (ihc hchildren.1 hΓ).2.any (ha.sub hle hjoin.static) (hle' _ hb)⟩
  | @cond Γ cases us ts g _ hlen hlen' _ _ ihc iht =>
    have hcases := Expr.forall_mem_pairs.1 (Expr.all_iff.1 he).2
    have hus : List.Forall₂ (fun c u ↦ Found Q Γ c.1 u) cases us := forall₂_of_getElem? hlen
      fun i c u hc hu ↦ ihc i c u hc hu (hcases c (List.mem_of_getElem? hc)).1 hΓ
    have hts : List.Forall₂ (fun c t ↦ Found Q Γ c.2 t) cases ts := forall₂_of_getElem? hlen'
      fun i c t hc ht ↦ iht i c t hc ht (hcases c (List.mem_of_getElem? hc)).2 hΓ
    obtain ⟨htame, -, hder⟩ := derivable_joins (List.forall₂_map_left_iff.2 hts) (tame_never Q)
    have hconds := derivable_any (List.forall₂_map_left_iff.2 hus)
    exact ⟨htame, .cond htame.static (List.forall_mem_map.1 hconds) (List.forall_mem_map.1 hder)⟩
  | @lambda Γ params body ts us r g _ hlen _ _ _ _ ihbody =>
    obtain ⟨hdeclared, hchildren⟩ := Expr.all_iff.1 he
    obtain ⟨hparams, hbody⟩ := List.forall_mem_append.1 hchildren
    obtain ⟨names, hnames, htypes, hbind⟩ :=
      exists_admits (fun p hp ↦ identifier_of_declared (hdeclared p hp))
      (fun p hp ↦ (Expr.all_iff.1 (hparams p hp)).1) hlen
    have htame := tame_declared hdeclared (fun p hp ↦ (Expr.all_iff.1 (hparams p hp)).1) ts
    rw [← htypes, List.forall_mem_map] at htame
    rw [hbind] at ihbody
    obtain ⟨hr, hbody⟩ := ihbody (List.forall_mem_singleton.1 hbody) (hΓ.insertAll htame)
    rw [← htypes]
    exact ⟨tame_function (List.forall_mem_map.2 htame) hr,
      .lambda (declares_of_admits hnames hdeclared) hbody⟩
  | ignore _ _ hplan hlen _ ihf ih =>
    obtain ⟨hf, hargs⟩ := List.forall_mem_cons.1 (Expr.all_iff.1 he).2
    obtain ⟨hT, hf⟩ := ihf hf hΓ
    exact derivable_ignore hT hf hplan (derivable_any (forall₂_of_getElem? hlen fun i e t he ht ↦
      ih i e t he ht (hargs e (List.mem_of_getElem? he)) hΓ))
  | call _ _ hplan hlen _ _ hR ihf ih =>
    obtain ⟨hf, hargs⟩ := List.forall_mem_cons.1 (Expr.all_iff.1 he).2
    obtain ⟨hT, hf⟩ := ihf hf hΓ
    obtain ⟨-, hparams, -⟩ := applies_of_plan (built_unquantified hT.formed) hplan
    rw [hparams, Nat.min_self] at hlen
    exact derivable_call hT hf hplan (forall₂_of_getElem? hlen fun i e t he ht ↦
      ih i e t he ht (hargs e (List.mem_of_getElem? he)) hΓ) hR
  | @letIn Γ bindings body ts us t g _ hfits _ _ _ _ ihvalues _ ihbody =>
    obtain ⟨hnamed, hchildren⟩ := Expr.all_iff.1 he
    obtain ⟨hbindings, hbody⟩ := Expr.All.bindings hchildren
    have hvalues : ∀ (i : Nat) b u, bindings[i]? = some b → ts[i]? = some u → Found Q Γ b.2 u :=
      fun i b u hb hu ↦ ihvalues i b u hb hu (hbindings b (List.mem_of_getElem? hb)).2 hΓ
    have hlen := hfits.length_eq.symm
    have hslots : ∀ p ∈ slots bindings, FullyTyped Q p :=
      List.forall_mem_map.2 fun b hb ↦ (Expr.all_iff.1 (hbindings b hb).1).1
    obtain ⟨names, hnames, htypes, hbind⟩ :=
      exists_admits (List.forall_mem_map.2 hnamed) hslots hlen
    have htame := tame_paramTypes hslots fun q hq _ ↦ by
      obtain ⟨i, hi⟩ := List.mem_iff_getElem?.1 (List.of_mem_zip hq).2
      obtain ⟨b, hb⟩ : ∃ b, bindings[i]? = some b :=
        exists_getElem?_eq_some (by simpa using hlen.le) hi
      exact (hvalues i b _ hb hi).1
    rw [← htypes, List.forall_mem_map] at htame
    rw [hbind] at ihbody
    obtain ⟨ht, hbody⟩ := ihbody hbody (hΓ.insertAll htame)
    exact ⟨ht, .letIn hnames
      (derivable_values hfits htypes htame fun i b u hb hu ↦ (hvalues i b u hb hu).2)
      hbody⟩
  | @letrec Γ Δ bindings body ts us t g _ hΔ hfits _ _ _ _ ihvalues _ ihbody =>
    obtain ⟨hdeclared, hchildren⟩ := Expr.all_iff.1 he
    obtain ⟨hbindings, hbody⟩ := Expr.All.bindings hchildren
    have hdeclared : ∀ p ∈ slots bindings, p.declared?.isSome := List.forall_mem_map.2 hdeclared
    have hlen := hfits.length_eq.symm
    have hslots : ∀ p ∈ slots bindings, FullyTyped Q p :=
      List.forall_mem_map.2 fun b hb ↦ (Expr.all_iff.1 (hbindings b hb).1).1
    obtain ⟨names, hnames, htypes, hbind⟩ :=
      exists_admits (fun p hp ↦ identifier_of_declared (hdeclared p hp)) hslots hlen
    have htame := tame_declared hdeclared hslots ts
    rw [← htypes, List.forall_mem_map] at htame
    rw [paramTypes_of_declared hdeclared hlen (by simp), hbind] at hΔ
    have hΔtame : TameEnv Q Δ := hΔ ▸ hΓ.insertAll htame
    rw [settled_of_declared hdeclared] at ihbody
    obtain ⟨ht, hbody⟩ := ihbody hbody hΔtame
    have hvalues : ∀ q ∈ bindings.zip names, Derivable Δ q.1.2 q.2.2 := by
      refine derivable_values hfits htypes htame fun i b u hb hu ↦ ?_
      have htake : ∀ p ∈ slots (bindings.take i), p.declared?.isSome := fun p hp ↦
        hdeclared p (List.map_subset _ (List.take_subset i bindings) hp)
      have hvalue := ihvalues i b u hb hu (hbindings b (List.mem_of_getElem? hb)).2
      rw [settled_of_declared htake] at hvalue
      exact (hvalue hΔtame).2
    subst hΔ
    exact ⟨ht, .letrec (declares_of_admits hnames hdeclared) hvalues hbody⟩

/-- **Checking is sound.**  A new checker returns for every `FullyTyped` tree, in every context of
types that are `Declarable`, and the type is derivable if it has recorded no diagnostic. -/
theorem derivable_of_typeOfRoot {revision : Nat → Nat} {Γ : Env} {tree : Tree}
    (hΓ : ∀ t ∈ Γ.values, t.Declarable Q) (htree : tree.root.All (FullyTyped Q)) :
    ∃ t s, (typeOfRoot (.onDemand revision) Γ tree).run .initial = (.ok t, s) ∧
      (s.errors = ∅ → Derivable Γ tree.root t) := by
  obtain ⟨t, s, hrun, hclean⟩ :=
    clean_of_typeOfRoot (fun q hq ↦ slotted_of_fullyTyped (htree q hq)) revision Γ
  exact ⟨t, s, hrun, fun herrors ↦ ((hclean herrors).derivable htree fun u hu ↦ (hΓ u hu).tame).2⟩

/-- A polymorphic function and a variadic one. -/
def sampleContext : Env :=
  .ofList [("id", .all ["A"] (function [.var "A", .var "A"])),
    ("+", .variadic none none [number, number])]

/-- A recursive function of numbers is passed through the identity and called with an integer. -/
def sampleProgram : Tree where
  number := 1
  root := .letIn [(.binding "x" none, .number (.exact 1))]
    (.letrec [(.binding "f" (some (function [number, number])),
        .lambda [.binding "n" (some number)] (.branch (.bool true) (.var "n")
          (.call (.var "f") [.call (.var "+") [.var "n", .var "x", .number (.exact 2)]])))]
      (.call (.call (.var "id") [.var "f"]) [.var "x"]))
  revision := 0

theorem derivable_of_typeOfRoot_sample :
    (∀ t ∈ sampleContext.values, t.Declarable ["A"]) ∧ sampleProgram.root.All (FullyTyped ["A"]) ∧
      ((typeOfRoot (.onDemand fun _ ↦ 0) sampleContext sampleProgram).run .initial).map id
        (·.errors) =
        (.ok number, ∅) ∧
      Derivable sampleContext sampleProgram.root number := by
  have hcontext : ∀ t ∈ sampleContext.values, t.Declarable ["A"] := by decide +kernel
  have hprogram : sampleProgram.root.All (FullyTyped ["A"]) := by decide +kernel
  have hrun : ((typeOfRoot (.onDemand fun _ ↦ 0) sampleContext sampleProgram).run .initial).map id
    (·.errors) =
      (.ok number, ∅) := by decide +kernel
  refine ⟨hcontext, hprogram, hrun, ?_⟩
  obtain ⟨t, s, h, hderivable⟩ := @derivable_of_typeOfRoot _ (fun _ ↦ 0) _ _ hcontext hprogram
  rw [h] at hrun
  obtain ⟨⟨⟩, herrors⟩ := Prod.mk.inj hrun
  exact hderivable herrors

end SchemeTyping.Check
