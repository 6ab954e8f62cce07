import SchemeTyping.Ty.Subst

/-!
# The structure of types

The functions on `Ty` come in pairs, one for a type and one for a list of types.  This file restates
them by `List.map`, `List.flatMap` and membership, and gives the induction that goes with it.  The
functions on lists are not mentioned any more afterwards.

## What is here

* `Ty.induction` — induction with a hypothesis for every parameter.
* `Ty.fill` — the laws of replacing unknowns, which are those of a substitution.
* `Ty.Node`, `Ty.Built` — a fragment of the types is described by the nodes that its members are
  built from: `t.Built p` says that every node of `t` passes the test `p`.  A node keeps the tag and
  the number of parameters, so that one can say that a constructor has no parameters, or at least
  one.
-/

set_option autoImplicit false

namespace SchemeTyping.Ty

/-- Induction on `Ty`, with a hypothesis for every parameter of `con` and `variadic`. -/
@[elab_as_elim, induction_eliminator]
theorem induction {P : Ty → Prop} (var : ∀ name, P (.var name)) (unknown : ∀ id, P (.unknown id))
    (con : ∀ tag ps, (∀ p ∈ ps, P p) → P (.con tag ps))
    (variadic : ∀ min max ps, (∀ p ∈ ps, P p) → P (.variadic min max ps))
    (all : ∀ bound body, P body → P (.all bound body)) (t : Ty) : P t :=
  @Ty.rec P (fun ps ↦ ∀ p ∈ ps, P p) var unknown con variadic all
    (fun _ h ↦ absurd h List.not_mem_nil)
    (fun _ _ hp hps _ h ↦ (List.mem_cons.1 h).elim (fun e ↦ e ▸ hp) (hps _)) t

/-! ## Equations -/

variable (tag name id : String) (ps : List Ty) (min max : Option Int) (bound : List String)
  (body : Ty) (f : String → Ty) (σ : Subst)

@[simp] theorem unknowns_var : (var name).unknowns = [] := rfl

@[simp] theorem unknowns_unknown : (unknown id).unknowns = [id] := rfl

@[simp] theorem unknowns_con : (con tag ps).unknowns = ps.flatMap unknowns :=
  unknownsList_eq_flatMap ps

@[simp] theorem unknowns_variadic : (variadic min max ps).unknowns = ps.flatMap unknowns :=
  unknownsList_eq_flatMap ps

@[simp] theorem unknowns_all : (all bound body).unknowns = body.unknowns := rfl

@[simp] theorem freeVars_var : (var name).freeVars = [name] := rfl

@[simp] theorem freeVars_unknown : (unknown id).freeVars = [] := rfl

@[simp] theorem freeVars_con : (con tag ps).freeVars = ps.flatMap freeVars :=
  freeVarsList_eq_flatMap ps

@[simp] theorem freeVars_variadic : (variadic min max ps).freeVars = ps.flatMap freeVars :=
  freeVarsList_eq_flatMap ps

@[simp] theorem freeVars_all :
    (all bound body).freeVars = body.freeVars.filter fun name ↦ !bound.contains name := rfl

@[simp] theorem fill_var : (var name).fill f = var name := rfl

@[simp] theorem fill_unknown : (unknown id).fill f = f id := rfl

@[simp] theorem fill_con : (con tag ps).fill f = con tag (ps.map (fill f)) :=
  congrArg _ (fillList_eq_map f ps)

@[simp] theorem fill_variadic : (variadic min max ps).fill f = variadic min max (ps.map (fill f)) :=
  congrArg _ (fillList_eq_map f ps)

@[simp] theorem fill_all : (all bound body).fill f = all bound (body.fill f) := rfl

@[simp] theorem subst_var : (var name).subst σ = (σ.get? name).getD (var name) := rfl

@[simp] theorem subst_unknown : (unknown id).subst σ = unknown id := rfl

@[simp] theorem subst_con : (con tag ps).subst σ = con tag (ps.map (subst σ)) :=
  congrArg _ (substList_eq_map σ ps)

@[simp] theorem subst_variadic :
    (variadic min max ps).subst σ = variadic min max (ps.map (subst σ)) :=
  congrArg _ (substList_eq_map σ ps)

@[simp] theorem subst_all : (all bound body).subst σ
    = all bound (body.subst (σ.filterKeys fun name ↦ !bound.contains name)) := rfl

theorem size_le_sizeList {p : Ty} (hp : p ∈ ps) : p.size ≤ sizeList ps := by
  induction hp with
  | head => exact Nat.le_add_right _ _
  | tail _ _ ih => exact Nat.le_trans ih (Nat.le_add_left _ _)

@[simp] theorem size_unknown : (unknown id).size = 1 := rfl

theorem size_lt_con {p : Ty} (hp : p ∈ ps) : p.size < (con tag ps).size := by
  have := size_le_sizeList ps hp
  rw [size]
  omega

theorem size_lt_variadic {p : Ty} (hp : p ∈ ps) : p.size < (variadic min max ps).size := by
  have := size_le_sizeList ps hp
  rw [size]
  omega

@[simp] theorem size_all : (all bound body).size = 1 + body.size := rfl

/-! ## Parameters -/

variable {t : Ty} {f : String → Ty} {g : String → Ty} {tag name id : String} {ps : List Ty}
  {min max : Option Int} {bound : List String} {body : Ty}

theorem arguments_append_result (h : ps ≠ []) : arguments ps ++ [result ps] = ps := by
  rw [arguments, result, List.getLastD_eq_getLast?, List.getLast?_eq_some_getLast h,
    Option.getD_some,
    List.dropLast_concat_getLast h]

theorem mem_freeVars_of_mem_params {p : Ty} {x : String} (hp : p ∈ t.params) (hx : x ∈ p.freeVars) :
    x ∈ t.freeVars := by
  cases t with
  | con tag ps => exact freeVars_con tag ps ▸ List.mem_flatMap.2 ⟨p, hp, hx⟩
  | variadic min max ps => exact freeVars_variadic ps min max ▸ List.mem_flatMap.2 ⟨p, hp, hx⟩
  | _ => exact absurd hp List.not_mem_nil

theorem sizeOf_lt_of_mem_params {p : Ty} (hp : p ∈ t.params) : sizeOf p < sizeOf t := by
  cases t with
  | con tag ps =>
    have := List.sizeOf_lt_of_mem (show p ∈ ps from hp)
    simp only [con.sizeOf_spec]
    omega
  | variadic min max ps =>
    have := List.sizeOf_lt_of_mem (show p ∈ ps from hp)
    simp only [variadic.sizeOf_spec]
    omega
  | _ => exact absurd hp List.not_mem_nil

/-! ## Filling -/

/-- `t.fill f` depends on `f` only at the unknowns of `t`. -/
theorem fill_congr (h : ∀ id ∈ t.unknowns, f id = g id) : t.fill f = t.fill g := by
  induction t with
  | var => rfl
  | unknown id => exact h id (by simp)
  | con tag ps ih =>
    rw [fill_con, fill_con, List.map_congr_left fun p hp ↦ ih p hp fun id hid ↦ h id ?_]
    simp only [unknowns_con, List.mem_flatMap]
    exact ⟨p, hp, hid⟩
  | variadic min max ps ih =>
    rw [fill_variadic, fill_variadic,
      List.map_congr_left fun p hp ↦ ih p hp fun id hid ↦ h id ?_]
    simp only [unknowns_variadic, List.mem_flatMap]
    exact ⟨p, hp, hid⟩
  | all bound body ih => rw [fill_all, fill_all, ih h]

theorem fill_fill (f g : String → Ty) (t : Ty) :
    (t.fill f).fill g = t.fill fun id ↦ (f id).fill g := by
  induction t with
  | var => rfl
  | unknown => rfl
  | con tag ps ih => simp only [fill_con, List.map_map]; congr 1; exact List.map_congr_left ih
  | variadic min max ps ih =>
    simp only [fill_variadic, List.map_map]; congr 1; exact List.map_congr_left ih
  | all bound body ih => simp only [fill_all, ih]

theorem fill_self (t : Ty) : t.fill unknown = t := by
  induction t with
  | var => rfl
  | unknown => rfl
  | con tag ps ih => rw [fill_con, List.map_congr_left ih, List.map_id']
  | variadic min max ps ih => rw [fill_variadic, List.map_congr_left ih, List.map_id']
  | all bound body ih => rw [fill_all, ih]

theorem mem_unknowns_fill {u : String} :
    u ∈ (t.fill f).unknowns ↔ ∃ id ∈ t.unknowns, u ∈ (f id).unknowns := by
  induction t with
  | var => simp
  | unknown => simp
  | con tag ps ih | variadic min max ps ih =>
    simp only [fill_con, fill_variadic, unknowns_con, unknowns_variadic, List.mem_flatMap,
      List.mem_map]
    constructor
    · rintro ⟨q, ⟨p, hp, rfl⟩, hu⟩
      obtain ⟨id, hid, hu⟩ := (ih p hp).1 hu
      exact ⟨id, ⟨p, hp, hid⟩, hu⟩
    · rintro ⟨id, ⟨p, hp, hid⟩, hu⟩
      exact ⟨_, ⟨p, hp, rfl⟩, (ih p hp).2 ⟨id, hid, hu⟩⟩
  | all bound body ih => exact ih

/-- What `f` puts for an unknown of `t` is no larger than `t.fill f`. -/
theorem size_le_size_fill {id : String} (h : id ∈ t.unknowns) : (f id).size ≤ (t.fill f).size := by
  induction t with
  | var => simp at h
  | unknown => simp at h; simp [h]
  | con tag ps ih =>
    obtain ⟨p, hp, hid⟩ := List.mem_flatMap.1 (unknowns_con tag ps ▸ h)
    rw [fill_con]
    exact Nat.le_trans (ih p hp hid) (Nat.le_of_lt (size_lt_con tag _ (List.mem_map_of_mem hp)))
  | variadic min max ps ih =>
    obtain ⟨p, hp, hid⟩ := List.mem_flatMap.1 (unknowns_variadic ps min max ▸ h)
    rw [fill_variadic]
    exact Nat.le_trans (ih p hp hid)
      (Nat.le_of_lt (size_lt_variadic _ min max (List.mem_map_of_mem hp)))
  | all bound body ih =>
    have := ih h
    simp only [fill_all, size_all]
    omega

/-- It is smaller, unless `t` is that unknown itself. -/
theorem size_lt_size_fill {id : String} (h : id ∈ t.unknowns) (ht : t ≠ unknown id) :
    (f id).size < (t.fill f).size := by
  cases t with
  | var => simp at h
  | unknown id' => simp at h; exact absurd (congrArg unknown h.symm) ht
  | con tag ps =>
    obtain ⟨p, hp, hid⟩ := List.mem_flatMap.1 (unknowns_con tag ps ▸ h)
    rw [fill_con]
    exact Nat.lt_of_le_of_lt (size_le_size_fill hid) (size_lt_con tag _ (List.mem_map_of_mem hp))
  | variadic min max ps =>
    obtain ⟨p, hp, hid⟩ := List.mem_flatMap.1 (unknowns_variadic ps min max ▸ h)
    rw [fill_variadic]
    exact Nat.lt_of_le_of_lt (size_le_size_fill hid)
      (size_lt_variadic _ min max (List.mem_map_of_mem hp))
  | all bound body =>
    have := size_le_size_fill (f := f) (unknowns_all bound body ▸ h)
    rw [fill_all, size_all]
    omega

/-! ## Nodes -/

/-- A node of a type: its constructor, with the tag and the number of parameters. -/
inductive Node
  | var
  | unknown
  | con (tag : String) (arity : Nat)
  | variadic (arity : Nat)
  | all
  deriving DecidableEq, Repr

/-- The tag of a `Node.con`. -/
def Node.tag? : Node → Option String
  | .con tag _ => some tag
  | _ => none

mutual

/-- The nodes of a type, each before those of its parameters. -/
def nodes : Ty → List Node
  | .var _ => [.var]
  | .unknown _ => [.unknown]
  | .con tag ps => .con tag ps.length :: nodesList ps
  | .variadic _ _ ps => .variadic ps.length :: nodesList ps
  | .all _ body => .all :: body.nodes

/-- The nodes of the types of a list. -/
def nodesList : List Ty → List Node
  | [] => []
  | t :: ts => t.nodes ++ nodesList ts

end

/-- Every node of `t` satisfies `p`. -/
def Built (p : Node → Prop) (t : Ty) : Prop := ∀ n ∈ t.nodes, p n

instance (p : Node → Prop) [DecidablePred p] (t : Ty) : Decidable (t.Built p) :=
  inferInstanceAs (Decidable (∀ n ∈ t.nodes, p n))

variable {p q : Node → Prop}

theorem mem_nodesList {n : Node} : n ∈ nodesList ps ↔ ∃ t ∈ ps, n ∈ t.nodes := by
  induction ps with
  | nil => simp [nodesList]
  | cons t ps ih => simp [nodesList, ih]

@[simp] theorem built_var : (var name).Built p ↔ p .var := by simp [Built, nodes]

@[simp] theorem built_unknown : (unknown id).Built p ↔ p .unknown := by simp [Built, nodes]

@[simp] theorem built_con :
    (con tag ps).Built p ↔ p (.con tag ps.length) ∧ ∀ t ∈ ps, t.Built p := by
  simp only [Built, nodes, List.forall_mem_cons, mem_nodesList]
  exact and_congr_right fun _ ↦
    ⟨fun h t ht n hn ↦ h n ⟨t, ht, hn⟩, fun h n ⟨t, ht, hn⟩ ↦ h t ht n hn⟩

@[simp] theorem built_variadic :
    (variadic min max ps).Built p ↔ p (.variadic ps.length) ∧ ∀ t ∈ ps, t.Built p := by
  simp only [Built, nodes, List.forall_mem_cons, mem_nodesList]
  exact and_congr_right fun _ ↦
    ⟨fun h t ht n hn ↦ h n ⟨t, ht, hn⟩, fun h n ⟨t, ht, hn⟩ ↦ h t ht n hn⟩

@[simp] theorem built_all : (all bound body).Built p ↔ p .all ∧ body.Built p := by
  simp [Built, nodes]

theorem Built.of_mem_params (h : t.Built p) {q : Ty} (hq : q ∈ t.params) : q.Built p := by
  cases t with
  | con tag ps => exact (built_con.1 h).2 q hq
  | variadic min max ps => exact (built_variadic.1 h).2 q hq
  | _ => exact absurd hq List.not_mem_nil

theorem Built.mono (h : t.Built p) (hpq : ∀ n, p n → q n) : t.Built q := fun n hn ↦ hpq n (h n hn)

theorem Built.unknown (h : t.Built p) (hid : id ∈ t.unknowns) : (unknown id).Built p := by
  induction t with
  | var => simp at hid
  | unknown => simpa using h
  | con tag ps ih =>
    obtain ⟨q, hq, hid⟩ := List.mem_flatMap.1 (unknowns_con tag ps ▸ hid)
    exact ih q hq ((built_con.1 h).2 q hq) hid
  | variadic min max ps ih =>
    obtain ⟨q, hq, hid⟩ := List.mem_flatMap.1 (unknowns_variadic ps min max ▸ hid)
    exact ih q hq ((built_variadic.1 h).2 q hq) hid
  | all bound body ih => exact ih (built_all.1 h).2 hid

/-- `t.fill f` is built from `p` if `t` is, up to unknowns, and so is every `f id` that is put
in. -/
theorem Built.fill (h : t.Built fun n ↦ n = .unknown ∨ p n)
    (hf : ∀ id ∈ t.unknowns, (f id).Built p) : (t.fill f).Built p := by
  induction t with
  | var => simpa using h
  | unknown id => exact hf id (by simp)
  | con tag ps ih =>
    rw [built_con] at h
    rw [fill_con, built_con, List.length_map]
    refine ⟨by simpa using h.1, ?_⟩
    rw [List.forall_mem_map]
    refine fun t ht ↦ ih t ht (h.2 t ht) fun id hid ↦ hf id ?_
    rw [unknowns_con, List.mem_flatMap]
    exact ⟨t, ht, hid⟩
  | variadic min max ps ih =>
    rw [built_variadic] at h
    rw [fill_variadic, built_variadic, List.length_map]
    refine ⟨by simpa using h.1, ?_⟩
    rw [List.forall_mem_map]
    refine fun t ht ↦ ih t ht (h.2 t ht) fun id hid ↦ hf id ?_
    rw [unknowns_variadic, List.mem_flatMap]
    exact ⟨t, ht, hid⟩
  | all bound body ih =>
    rw [built_all] at h
    rw [fill_all, built_all]
    exact ⟨by simpa using h.1, ih h.2 hf⟩

end SchemeTyping.Ty
