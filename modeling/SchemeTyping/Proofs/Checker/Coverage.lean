import SchemeTyping.Proofs.Checker.Calls
import SchemeTyping.Proofs.Checker.Clean
import SchemeTyping.Proofs.Checker.OnDemand
import SchemeTyping.Proofs.Expr.Formed

/-!
# The paths that get a type

A check that records no diagnostic has found a type for every path of the expression, with one
exception.  A variadic function type without argument types accepts arguments, but has no parameters
for them, and the checker goes through arguments and parameters together.  So it skips the arguments
of a call of such a function.  `Clean.covered` says that these are the only paths without a type,
and that the names at all other paths are bound, by the expression around them or in the context.

The types that are found below a spot are a function from paths to types, so that those of a child
are those of the whole with a longer path (`under`).
-/

set_option autoImplicit false

namespace SchemeTyping

namespace Expr

/-! ## Scopes -/

/-- The names that an expression binds in its child at `i`.  The values of a `let`, whose numbers
are odd, are outside of the scope of its names. -/
def bindsIn : Expr → Nat → List String
  | .lambda params _, _ => params.filterMap name?
  | .letIn bindings _, i => if i % 2 = 1 then [] else bindings.filterMap (·.1.name?)
  | .letrec bindings _, _ => bindings.filterMap (·.1.name?)
  | _, _ => []

/-- The names that `e` binds around the path. -/
def scopeAt (e : Expr) : Path → List String
  | [] => []
  | i :: path => ((e.child? i).map fun c ↦ e.bindsIn i.toNat ++ c.scopeAt path).getD []

end Expr

namespace Check

open Ty

variable {bound : String → Prop} {e c : Expr} {found : Path → Option Ty} {t : Ty}

/-! ## Arguments that are skipped -/

/-- A variadic function type without argument types. -/
def Unparametrized (t : Ty) : Prop :=
  ∃ min max ps, (unquantified t).2 = .variadic min max ps ∧ arguments ps = []

/-- The child at `i` is an argument of a call, and the type found for what is called is
`Unparametrized`. -/
def PassedOver (found : Path → Option Ty) (e : Expr) (i : Int) : Prop :=
  i ≠ 0 ∧ (∃ called args, e = .call called args) ∧ ∃ t ∈ found [0], Unparametrized t

/-- The path goes through an argument that is `PassedOver`. -/
def Skipped (found : Path → Option Ty) (e : Expr) : Path → Prop
  | [] => False
  | i :: path => PassedOver found e i ∨
    ∃ c, e.child? i = some c ∧ Skipped (fun p ↦ found (i :: p)) c path

/-- The paths of `e` with a type are those that are not `Skipped`, and the names at these paths are
in `scopeAt` or `bound`. -/
def Covered (bound : String → Prop) (found : Path → Option Ty) (e : Expr) : Prop :=
  ∀ path q, e.at? path = some q → ((found path).isSome ↔ ¬ Skipped found e path) ∧
    ∀ name ∈ q.name?, (found path).isSome → name ∈ e.scopeAt path ∨ bound name

theorem Covered.mono {bound' : String → Prop} (h : Covered bound found e)
    (hb : ∀ name, bound name → bound' name) : Covered bound' found e :=
  fun path q hq ↦
    ⟨(h path q hq).1, fun name hn ht ↦ ((h path q hq).2 name hn ht).imp_right (hb name)⟩

/-- The child `c` at `i` is `Covered`, or it is `PassedOver` and has no types. -/
def ChildCovered (bound : String → Prop) (found : Path → Option Ty) (e : Expr) (i : Nat)
    (c : Expr) : Prop :=
  ¬ PassedOver found e i ∧
      Covered (fun name ↦ name ∈ e.bindsIn i ∨ bound name) (fun p ↦ found (i :: p)) c ∨
    PassedOver found e i ∧ ∀ path, found (i :: path) = none

/-- The name of `e`, if any, is `bound`, and all children are `ChildCovered`. -/
def ChildrenCovered (bound : String → Prop) (found : Path → Option Ty) (e : Expr) : Prop :=
  (∀ name ∈ e.name?, bound name) ∧ ∀ i c, e.children[i]? = some c → ChildCovered bound found e i c

theorem ChildrenCovered.covered (h : ChildrenCovered bound found e) (hroot : found [] = some t) :
    Covered bound found e := by
  intro path q hq
  cases path with
  | nil =>
    cases hq
    exact ⟨iff_of_true (by rw [hroot]; rfl) id, fun name hn _ ↦ .inr (h.1 name hn)⟩
  | cons j path =>
    rw [Expr.at?, Option.bind_eq_some_iff] at hq
    obtain ⟨c, hc, hq⟩ := hq
    obtain ⟨i, rfl⟩ : ∃ i : Nat, j = i := by
      refine ⟨j.toNat, (Int.toNat_of_nonneg ?_).symm⟩
      by_contra hneg
      rw [Expr.child?, if_pos (by omega)] at hc
      cases hc
    have hscope : e.scopeAt ((i : Int) :: path) = e.bindsIn i ++ c.scopeAt path := by
      rw [Expr.scopeAt, hc]
      rfl
    have hskipped : Skipped found e ((i : Int) :: path) ↔
        PassedOver found e i ∨ Skipped (fun p ↦ found ((i : Int) :: p)) c path := by
      rw [Skipped, hc]
      simp
    rw [hskipped, hscope]
    rcases h.2 i c (Expr.child?_natCast e i ▸ hc) with ⟨hpass, hcov⟩ | ⟨hpass, hnone⟩
    · obtain ⟨htyped, hbound⟩ := hcov path q hq
      refine ⟨by rw [htyped, or_iff_right hpass], fun name hn ht ↦ ?_⟩
      have := hbound name hn ht
      rw [List.mem_append]
      tauto
    · simp [hnone, hpass]

/-- Only arguments of calls are `PassedOver`. -/
theorem not_passedOver (h : ∀ called args, e ≠ .call called args) (i : Int) :
    ¬ PassedOver found e i := by
  rintro ⟨-, ⟨called, args, rfl⟩, -⟩
  exact h called args rfl

/-! ## Names that are bound -/

variable {Γ Δ : Env} {bindings : List (Expr × Expr)}

/-- `Γ` has a type for the name. -/
def Sees (Γ : Env) (name : String) : Prop := (Γ.get? name).isSome

theorem sees_insert {name n : String} (h : Sees (Γ.insert name t) n) : n = name ∨ Sees Γ n := by
  rw [Sees, OrdMap.get?_insert] at h
  split at h
  · rename_i heq
    exact .inl heq.symm
  · exact .inr h

theorem mem_names_cons {p : Expr} {params : List Expr} {n : String}
    (h : n ∈ params.filterMap Expr.name?) : n ∈ (p :: params).filterMap Expr.name? :=
  ((List.sublist_cons_self p params).filterMap Expr.name?).subset h

theorem names_slots (bs : List (Expr × Expr)) :
    (slots bs).filterMap Expr.name? = bs.filterMap (·.1.name?) :=
  List.filterMap_map ..

theorem sees_bindSlots {params : List Expr} {ts : List Ty} {n : String}
    (h : Sees (bindSlots Γ params ts) n) : n ∈ params.filterMap Expr.name? ∨ Sees Γ n := by
  fun_induction bindSlots Γ params ts with
  | case1 Γ name declared params t ts ih =>
    exact (ih h).elim (.inl ∘ mem_names_cons) fun h ↦ (sees_insert h).imp_left
      (by rintro rfl; exact List.mem_cons_self)
  | case2 Γ p params t ts hp ih => exact (ih h).imp_left mem_names_cons
  | case3 => exact .inr h

theorem sees_settled {params : List Expr} {ts : List Ty} {n : String}
    (h : Sees (settled Γ params ts) n) : n ∈ params.filterMap Expr.name? ∨ Sees Γ n := by
  fun_induction settled Γ params ts with
  | case1 Γ name params t ts ih =>
    exact (ih h).elim (.inl ∘ mem_names_cons) fun h ↦ (sees_insert h).imp_left
      (by rintro rfl; exact List.mem_cons_self)
  | case2 Γ p params t ts hp ih => exact (ih h).imp_left mem_names_cons
  | case3 => exact .inr h

/-! ## Children -/

/-- The children of an expression that binds nothing. -/
theorem childrenCovered_row {es : List Expr} (hname : e.name? = none) (hchildren : e.children = es)
    (hcall : ∀ called args, e ≠ .call called args)
    (h : ∀ (i : Nat) c, es[i]? = some c → Covered bound (under found i) c) :
    ChildrenCovered bound found e :=
  ⟨by simp [hname],
    fun i c hc ↦ .inl ⟨not_passedOver hcall i, (h i c (hchildren ▸ hc)).mono fun _ ↦ .inr⟩⟩

/-- The children of an expression with the pairs `bindings`, and `rest` after them. -/
theorem childrenCovered_pairs {rest : List Expr} (hname : e.name? = none)
    (hchildren : e.children = (bindings.flatMap fun b ↦ [b.1, b.2]) ++ rest)
    (hcall : ∀ called args, e ≠ .call called args)
    (hslots : ∀ (i : Nat) b, bindings[i]? = some b →
      Covered (fun n ↦ n ∈ e.bindsIn (2 * i) ∨ bound n) (under found (2 * i)) b.1)
    (hvalues : ∀ (i : Nat) b, bindings[i]? = some b →
      Covered (fun n ↦ n ∈ e.bindsIn (2 * i + 1) ∨ bound n) (under found (2 * i + 1)) b.2)
    (hrest : ∀ c ∈ rest, Covered (fun n ↦ n ∈ e.bindsIn (2 * bindings.length) ∨ bound n)
      (under found (2 * bindings.length)) c)
    (hlen : rest.length ≤ 1) : ChildrenCovered bound found e := by
  refine ⟨by simp [hname], fun n c hc ↦ .inl ⟨not_passedOver hcall n, ?_⟩⟩
  rw [hchildren] at hc
  rcases Expr.getElem?_pairs_cases hc with ⟨i, b, hi, ⟨rfl, rfl⟩ | ⟨rfl, rfl⟩⟩ | ⟨hle, hc⟩
  · exact hslots i b hi
  · exact hvalues i b hi
  · have hlt := (List.getElem?_eq_some_iff.1 hc).1
    obtain rfl : n = 2 * bindings.length := by omega
    exact hrest c (List.mem_of_getElem? hc)

/-- A type without argument types takes any number of arguments and has no parameters for them. -/
theorem plan_of_unparametrized {T : Ty} (hT : Unparametrized T) (m : Mention) (n : Nat) :
    (∃ r, plan m n (asFunction (unquantified T).2) = .solve [] r) ∨
      ∃ r d, plan m n (asFunction (unquantified T).2) = .refuse r d := by
  obtain ⟨min, max, ps, hT, hps⟩ := hT
  rw [hT, asFunction, plan]
  · split
    · exact .inl ⟨_, by rw [spread, hps]⟩
    · exact .inr ⟨_, _, rfl⟩
  · simp

/-- Every other type has a parameter for each argument. -/
theorem length_params_of_plan {T r : Ty} {m : Mention} {n : Nat} {params : List Ty}
    (h : plan m n (asFunction (unquantified T).2) = .solve params r) (hT : ¬ Unparametrized T) :
    params.length = n := by
  obtain ⟨ps, -, rfl, rfl, -⟩ | ⟨min, max, ps, hF, -, rfl, -⟩ := plan_eq_solve h
  · rfl
  · rw [spread]
    split
    · rename_i hps
      refine absurd ⟨min, max, ps, ?_, hps⟩ hT
      obtain ⟨qs, hqs⟩ | hF' := asFunction_cases (unquantified T).2
      · simp [hqs, asFunction, function] at hF
      · rw [← hF', hF]
    · simp

theorem childrenCovered_call {f : Expr} {args : List Expr} {T : Ty} (hT : found [0] = some T)
    (hf : Covered bound (under found 0) f)
    (hargs : ∀ (i : Nat) c, args[i]? = some c → ¬ Unparametrized T ∧
      Covered bound (under found (i + 1)) c ∨
      Unparametrized T ∧ ∀ path, under found (i + 1) path = none) :
    ChildrenCovered bound found (.call f args) := by
  refine ⟨by simp [Expr.name?], fun i c hc ↦ ?_⟩
  cases i with
  | zero =>
    obtain rfl : f = c := by simpa [Expr.children] using hc
    exact .inl ⟨fun h ↦ h.1 rfl, hf.mono fun _ ↦ .inr⟩
  | succ i =>
    have hpass : PassedOver found (.call f args) ((i + 1 : Nat) : Int) ↔ Unparametrized T := by
      refine ⟨?_, fun h ↦ ⟨by omega, ⟨f, args, rfl⟩, T, hT, h⟩⟩
      rintro ⟨-, -, t, ht, h⟩
      exact Option.some.inj (hT.symm.trans ht) ▸ h
    rw [ChildCovered, hpass]
    exact (hargs i c hc).imp_left fun h ↦ ⟨h.1, h.2.mono fun _ ↦ .inr⟩

/-! ## All expressions -/

theorem Clean.found_nil {g : Path → Option Ty} (h : Clean Γ e t g) : g [] = some t := by
  cases h <;> assumption

/-- A clean check is `Covered`, where the names that `Γ` has are bound. -/
theorem Clean.covered {g : Path → Option Ty} (h : Clean Γ e t g) : Covered (Sees Γ) g e := by
  induction h with
  | @literal Γ e t g hg h =>
    refine ChildrenCovered.covered ?_ hg
    cases e with
    | number | bool | string | null =>
      exact childrenCovered_row rfl rfl (by simp) (by simp [Expr.children])
    | _ => cases h
  | hole hg => exact (childrenCovered_row rfl rfl (by simp) (by simp [Expr.children])).covered hg
  | @name Γ e name t g hg hname h =>
    have hsees : ∀ n ∈ e.name?, Sees Γ n := by
      rintro n hn
      obtain rfl := Option.some.inj (hname.symm.trans hn)
      rw [Sees, h]
      rfl
    refine ChildrenCovered.covered ⟨hsees, ?_⟩ hg
    cases e with
    | var | binding => simp [Expr.children]
    | _ => cases hname
  | list hg hlen _ ih | sequence hg hlen _ ih =>
    refine (childrenCovered_row rfl rfl (by simp) fun i c hc ↦ ?_).covered hg
    obtain ⟨t, ht⟩ := exists_getElem?_eq_some hlen.ge hc
    exact ih i c t hc ht
  | @branch Γ c a b u t t' g hg _ _ _ ihc iha ihb =>
    have hchildren : (Expr.branch c a b).children = [c, a, b] := rfl
    refine (childrenCovered_row rfl hchildren (by simp) fun i q hq ↦ ?_).covered hg
    rcases i with _ | _ | _ | i <;> cases hq
    · exact ihc
    · exact iha
    · exact ihb
  | cond hg hlen hlen' _ _ ihc iht =>
    refine (childrenCovered_pairs rfl (List.append_nil _).symm (by simp) (fun i b hb ↦ ?_)
      (fun i b hb ↦ ?_)
      (by simp) (by simp)).covered hg
    · obtain ⟨u, hu⟩ := exists_getElem?_eq_some hlen.ge hb
      exact (ihc i b u hb hu).mono fun _ ↦ .inr
    · obtain ⟨t, ht⟩ := exists_getElem?_eq_some hlen'.ge hb
      exact (iht i b t hb ht).mono fun _ ↦ .inr
  | @lambda Γ params body ts us r g hg _ hlen _ _ ihparams ihbody =>
    refine ChildrenCovered.covered ⟨by simp [Expr.name?], fun i c hc ↦ ?_⟩ hg
    suffices hcov : Covered (Sees (bindSlots Γ params (paramTypes params ts))) (under g i) c from
      .inl ⟨not_passedOver (by simp) i, hcov.mono fun _ ↦ sees_bindSlots⟩
    rw [Expr.children, List.getElem?_append] at hc
    split at hc
    · obtain ⟨u, hu⟩ := exists_getElem?_eq_some hlen.ge hc
      exact ihparams i c u hc hu
    · have hlt := (List.getElem?_eq_some_iff.1 hc).1
      obtain rfl : i = params.length := by
        simp only [List.length_singleton] at hlt
        omega
      obtain rfl : body = c := by simpa using hc
      exact ihbody
  | @ignore Γ f args m T R ts g hg hf hplan hlen _ ihf ih =>
    have hT : ¬ Unparametrized T := fun hT ↦ by
      rcases plan_of_unparametrized hT m args.length with ⟨r, hr⟩ | ⟨r, d, hr⟩
        <;> simp [hr] at hplan
    refine (childrenCovered_call hf.found_nil ihf fun i c hc ↦ .inl ⟨hT, ?_⟩).covered hg
    obtain ⟨t, ht⟩ := exists_getElem?_eq_some hlen.ge hc
    exact ih i c t hc ht
  | @call Γ f args m T r R params ts g hg hf hplan hlen _ hrest _ ihf ih =>
    refine (childrenCovered_call hf.found_nil ihf fun i c hc ↦ ?_).covered hg
    by_cases hT : Unparametrized T
    · -- There is no parameter, so no argument is looked at.
      obtain rfl : params = [] := by
        rcases plan_of_unparametrized hT m args.length with ⟨r, hr⟩ | ⟨r, d, hr⟩ <;> simp_all
      exact .inr ⟨hT, hrest i (by simp [hlen]) (List.getElem?_eq_some_iff.1 hc).1⟩
    · rw [length_params_of_plan hplan hT, Nat.min_self] at hlen
      obtain ⟨t, ht⟩ := exists_getElem?_eq_some hlen.ge hc
      exact .inl ⟨hT, ih i c t hc ht⟩
  | @letIn Γ bindings body ts us t g hg hfits hlen _ _ _ ihvalues ihnames ihbody =>
    have hlen' : ts.length = bindings.length := by simpa using hfits.length_eq.symm
    refine (childrenCovered_pairs rfl rfl (by simp) (fun i b hb ↦ ?_) (fun i b hb ↦ ?_) ?_
      (by simp)).covered hg
    · obtain ⟨u, hu⟩ := exists_getElem?_eq_some hlen.ge hb
      refine (ihnames i b u hb hu).mono fun n hn ↦ ?_
      rw [Expr.bindsIn, if_neg (by omega), ← names_slots]
      exact sees_bindSlots hn
    · obtain ⟨u, hu⟩ := exists_getElem?_eq_some hlen'.ge hb
      exact (ihvalues i b u hb hu).mono fun _ ↦ .inr
    · refine List.forall_mem_singleton.2 (ihbody.mono fun n hn ↦ ?_)
      rw [Expr.bindsIn, if_neg (by omega), ← names_slots]
      exact sees_bindSlots hn
  | @letrec Γ Δ bindings body ts us t g hg hΔ hfits hlen _ _ _ ihvalues ihnames ihbody =>
    have hlen' : ts.length = bindings.length := by simpa using hfits.length_eq.symm
    -- Whatever names of the group have their types already, all are names of the bindings.
    have hbound : ∀ {bs n}, bs ⊆ bindings → Sees (settled Δ (slots bs) ts) n →
        n ∈ bindings.filterMap (·.1.name?) ∨ Sees Γ n := by
      intro bs n hbs hn
      rcases sees_settled hn with hn | hn
      · rw [names_slots] at hn
        exact .inl (List.filterMap_subset _ hbs hn)
      · rw [← names_slots]
        exact sees_bindSlots (hΔ ▸ hn)
    refine (childrenCovered_pairs rfl rfl (by simp) (fun i b hb ↦ ?_) (fun i b hb ↦ ?_) ?_
      (by simp)).covered hg
    · obtain ⟨u, hu⟩ := exists_getElem?_eq_some hlen.ge hb
      exact (ihnames i b u hb hu).mono fun n ↦ hbound (List.Subset.refl _)
    · obtain ⟨u, hu⟩ := exists_getElem?_eq_some hlen'.ge hb
      exact (ihvalues i b u hb hu).mono fun n ↦ hbound (List.take_subset i _)
    · exact List.forall_mem_singleton.2 (ihbody.mono fun n ↦ hbound (List.Subset.refl _))

/-! ## A new checker -/

/-- The type that a checker has found at a path of a tree. -/
def typeIn (revision : Nat → Nat) (tree : Tree) (s : CheckerState) (path : Path) : Option Ty :=
  s.cache.get? ⟨tree.number, revision tree.number, path⟩

/-- **The paths that get a type.**  A new checker returns for every tree that was read and has no
definitions in it, in every context `Γ`.  If it records no diagnostic, the paths without a type are
those that are `Skipped`: in arguments of calls of a variadic function type without argument types.
Every name at a path with a type is bound around that path or in `Γ`. -/
theorem typed_iff_not_skipped {source : String} {es : List Expr}
    (hread : Expr.readAll source = .ok es) {tree : Tree} (hroot : tree.root ∈ es)
    (hdefine : tree.root.defineCount = 0) (revision : Nat → Nat) (Γ : Env) :
    ∃ t s, (typeOfRoot (.onDemand revision) Γ tree).run .initial = (.ok t, s) ∧
      (s.errors = ∅ → ∀ path e, tree.root.at? path = some e →
        ((typeIn revision tree s path).isSome ↔ ¬ Skipped (typeIn revision tree s) tree.root path) ∧
        ∀ name ∈ e.name?, (typeIn revision tree s path).isSome →
          name ∈ tree.root.scopeAt path ∨ (Γ.get? name).isSome) := by
  have hformed := Expr.formed_of_readAll hread hroot
  obtain ⟨t, s, hrun, hclean⟩ :=
    clean_of_typeOfRoot (fun q hq ↦ ⟨Expr.slotted_of_formed (hformed q hq),
    Expr.defineCount_eq_zero_iff.1 hdefine q hq⟩) revision Γ
  exact ⟨t, s, hrun, fun herrors ↦ (hclean herrors).covered⟩

/-- A variadic function with an argument type, and one without. -/
def variadicContext : Env :=
  .ofList [("+", .variadic none none [number, number]), ("f", .variadic none none [integer])]

/-- A call with an argument that is skipped, as an argument of another call. -/
def nestedCall : Tree where
  number := 1
  root := .lambda [.binding "n" none] (.call (.var "+") [.var "n", .call (.var "f") [.var "x"]])
  revision := 0

theorem readAll_nestedCall : Expr.readAll "(lambda (n) (+ n (f x)))" = .ok [nestedCall.root] := by
  decide +kernel

theorem typed_iff_not_skipped_nestedCall :
    ∃ t s, (typeOfRoot (.onDemand fun _ ↦ 0) variadicContext nestedCall).run .initial = (.ok t, s) ∧
      s.errors = ∅ ∧
      Skipped (typeIn (fun _ ↦ 0) nestedCall s) nestedCall.root [1, 2, 1] ∧
      ¬ Skipped (typeIn (fun _ ↦ 0) nestedCall s) nestedCall.root [1, 1] ∧
      ("n" ∈ nestedCall.root.scopeAt [1, 1] ∨ (variadicContext.get? "n").isSome) := by
  have hmem : nestedCall.root ∈ [nestedCall.root] := List.mem_cons_self
  obtain ⟨t, s, hrun, hcov⟩ := typed_iff_not_skipped readAll_nestedCall hmem rfl (fun _ ↦ 0)
    variadicContext
  have hs :
      ((typeOfRoot (.onDemand fun _ ↦ 0) variadicContext nestedCall).run .initial).2.errors = ∅ ∧
      typeIn (fun _ ↦ 0) nestedCall
        ((typeOfRoot (.onDemand fun _ ↦ 0) variadicContext nestedCall).run .initial).2 [1, 1] =
          some untyped ∧
      typeIn (fun _ ↦ 0) nestedCall
        ((typeOfRoot (.onDemand fun _ ↦ 0) variadicContext nestedCall).run .initial).2 [1, 2, 1] =
          none := by
    decide +kernel
  rw [hrun] at hs
  obtain ⟨herrors, hn, hx⟩ := hs
  obtain ⟨htyped, hbound⟩ := hcov herrors [1, 1] (.var "n") rfl
  refine ⟨t, s, hrun, herrors, ?_, htyped.1 (by rw [hn]; rfl), hbound "n" rfl (by rw [hn]; rfl)⟩
  by_contra h
  have := (hcov herrors [1, 2, 1] (.var "x") rfl).1.2 h
  rw [hx] at this
  cases this

/-- A name that is bound nowhere, without a type and without a diagnostic. -/
def looseCall : Tree := ⟨1, .call (.var "f") [.var "x"], 0⟩

theorem loose_name_unnoticed :
    Expr.readAll "(f x)" = .ok [looseCall.root] ∧ looseCall.root.defineCount = 0 ∧
      ((typeOfRoot (.onDemand fun _ ↦ 0) variadicContext looseCall).run .initial).map id
        (fun s ↦ (s.errors, typeIn (fun _ ↦ 0) looseCall s [1])) = (.ok integer, (∅, none)) ∧
      looseCall.root.at? [1] = some (.var "x") ∧ looseCall.root.scopeAt [1] = [] ∧
      variadicContext.get? "x" = none := by
  refine ⟨by decide +kernel, rfl, ?_, rfl, rfl, rfl⟩
  decide +kernel

end Check

end SchemeTyping
