import SchemeTyping.Proofs.Ty.Basic

/-!
# Types as schemes

When a type is read as a scheme, its variables stand for any types.

## What is here

* `Ty.assign` — puts types for the variables.
* `Ty.scheme` — the form in which inference uses a declared type: without quantifiers, and with
  functions of one argument only.
* `Mono`, `Simple`, `Polymorphic`, `Regular` — the fragments that inference deals with, by their
  nodes. All of them leave out `any`, `never`, the gradual type, `number` and variadic functions.
-/

set_option autoImplicit false

namespace SchemeTyping.Ty

mutual

/-- Puts `f name` for every variable, whether a quantifier binds it or not. -/
def assign (f : String → Ty) : Ty → Ty
  | .var name => f name
  | .unknown id => .unknown id
  | .con tag ps => .con tag (assignList f ps)
  | .variadic min max ps => .variadic min max (assignList f ps)
  | .all bound body => .all bound (body.assign f)

/-- As `assign`, for the types of a list. -/
def assignList (f : String → Ty) : List Ty → List Ty
  | [] => []
  | t :: ts => t.assign f :: assignList f ts

end

mutual

/-- The type without its quantifiers, with functions as chains of functions of one argument. -/
def scheme : Ty → Ty
  | .var name => .var name
  | .unknown id => .unknown id
  | .con tag ps => (Ty.con tag (schemeList ps)).curried
  | .variadic min max ps => .variadic min max (schemeList ps)
  | .all _ body => body.scheme

/-- As `scheme`, for the types of a list. -/
def schemeList : List Ty → List Ty
  | [] => []
  | t :: ts => t.scheme :: schemeList ts

end

variable {f g : String → Ty} {name id tag : String} {ps : List Ty} {min max : Option Int}
  {bound : List String} {body t : Ty} {p : Node → Prop}

theorem assignList_eq_map (f : String → Ty) (ps : List Ty) :
    assignList f ps = ps.map (assign f) := by
  induction ps with
  | nil => rfl
  | cons t ps ih => rw [assignList, ih, List.map_cons]

theorem schemeList_eq_map (ps : List Ty) : schemeList ps = ps.map scheme := by
  induction ps with
  | nil => rfl
  | cons t ps ih => rw [schemeList, ih, List.map_cons]

@[simp] theorem assign_var : (var name).assign f = f name := rfl

@[simp] theorem assign_unknown : (unknown id).assign f = unknown id := rfl

@[simp] theorem assign_con : (con tag ps).assign f = con tag (ps.map (assign f)) := by
  rw [assign, assignList_eq_map]

@[simp] theorem assign_variadic :
    (variadic min max ps).assign f = variadic min max (ps.map (assign f)) := by
  rw [assign, assignList_eq_map]

@[simp] theorem assign_all : (all bound body).assign f = all bound (body.assign f) := rfl

@[simp] theorem scheme_var : (var name).scheme = var name := rfl

@[simp] theorem scheme_unknown : (unknown id).scheme = unknown id := rfl

@[simp] theorem scheme_con : (con tag ps).scheme = (con tag (ps.map scheme)).curried := by
  rw [scheme, schemeList_eq_map]

@[simp] theorem scheme_variadic :
    (variadic min max ps).scheme = variadic min max (ps.map scheme) := by
  rw [scheme, schemeList_eq_map]

@[simp] theorem scheme_all : (all bound body).scheme = body.scheme := rfl

/-! ## Assigning types to variables -/

/-- A type without variables is not changed by `assign`. -/
theorem assign_eq_self (h : t.Built (· ≠ .var)) : t.assign f = t := by
  induction t with
  | var => simp at h
  | unknown => rfl
  | con tag ps ih =>
    rw [assign_con, List.map_congr_left fun q hq ↦ ih q hq ((built_con.1 h).2 q hq), List.map_id']
  | variadic min max ps ih =>
    rw [assign_variadic, List.map_congr_left fun q hq ↦ ih q hq ((built_variadic.1 h).2 q hq),
      List.map_id']
  | all bound body ih => rw [assign_all, ih (built_all.1 h).2]

/-- `assign` and `fill` commute if `g` puts in types without variables. -/
theorem fill_assign (hg : ∀ id, (g id).Built (· ≠ .var)) (t : Ty) :
    (t.assign f).fill g = (t.fill g).assign fun name ↦ (f name).fill g := by
  induction t with
  | var => rfl
  | unknown id => exact (assign_eq_self (hg id)).symm
  | con tag ps ih =>
    simp only [assign_con, fill_con, List.map_map]
    congr 1
    exact List.map_congr_left ih
  | variadic min max ps ih =>
    simp only [assign_variadic, fill_variadic, List.map_map]
    congr 1
    exact List.map_congr_left ih
  | all bound body ih => simp only [assign_all, fill_all, ih]

theorem Built.assign (h : t.Built fun n ↦ n = .var ∨ p n) (hf : ∀ name, (f name).Built p) :
    (t.assign f).Built p := by
  induction t with
  | var name => exact hf name
  | unknown id => simpa using h
  | con tag ps ih =>
    rw [built_con] at h
    rw [assign_con, built_con, List.length_map, List.forall_mem_map]
    exact ⟨by simpa using h.1, fun q hq ↦ ih q hq (h.2 q hq)⟩
  | variadic min max ps ih =>
    rw [built_variadic] at h
    rw [assign_variadic, built_variadic, List.length_map, List.forall_mem_map]
    exact ⟨by simpa using h.1, fun q hq ↦ ih q hq (h.2 q hq)⟩
  | all bound body ih =>
    rw [built_all] at h
    rw [assign_all, built_all]
    exact ⟨by simpa using h.1, ih h.2⟩

/-- If `t` has no variables and no quantifiers, `subst σ` reaches only what `f` puts in. -/
theorem subst_fill {σ : Subst} (h : t.Built fun n ↦ n ≠ .var ∧ n ≠ .all) :
    (t.fill f).subst σ = t.fill fun id ↦ (f id).subst σ := by
  induction t with
  | var => simp at h
  | unknown => rfl
  | con tag ps ih =>
    rw [fill_con, subst_con, fill_con, List.map_map]
    exact congrArg _ (List.map_congr_left fun q hq ↦ ih q hq ((built_con.1 h).2 q hq))
  | variadic min max ps ih =>
    rw [fill_variadic, subst_variadic, fill_variadic, List.map_map]
    exact congrArg _ (List.map_congr_left fun q hq ↦ ih q hq ((built_variadic.1 h).2 q hq))
  | all => simp at h

theorem mem_freeVars_fill {id x : String} (h : t.Built (· ≠ .all)) (hid : id ∈ t.unknowns)
    (hx : x ∈ (f id).freeVars) : x ∈ (t.fill f).freeVars := by
  induction t with
  | var => simp at hid
  | unknown u => rwa [← List.mem_singleton.1 hid]
  | con tag ps ih =>
    obtain ⟨q, hq, hid⟩ := List.mem_flatMap.1 (unknowns_con tag ps ▸ hid)
    rw [fill_con, freeVars_con, List.mem_flatMap]
    exact ⟨q.fill f, List.mem_map_of_mem hq, ih q hq ((built_con.1 h).2 q hq) hid⟩
  | variadic min max ps ih =>
    obtain ⟨q, hq, hid⟩ := List.mem_flatMap.1 (unknowns_variadic ps min max ▸ hid)
    rw [fill_variadic, freeVars_variadic, List.mem_flatMap]
    exact ⟨q.fill f, List.mem_map_of_mem hq, ih q hq ((built_variadic.1 h).2 q hq) hid⟩
  | all => simp at h

/-! ## Currying -/

section map

variable {h : Ty → Ty} (hcon : ∀ tag ps, h (con tag ps) = con tag (ps.map h))

include hcon

/-- A function `h` that goes below constructors goes below a `chain`. -/
theorem map_chain (args : List Ty) (r : Ty) : h (chain args r) = chain (args.map h) (h r) := by
  induction args with
  | nil => rfl
  | cons a args ih =>
    rw [List.map_cons, show chain (a :: args) r = function [a, chain args r] from rfl,
      function, hcon]
    simp only [List.map_cons, List.map_nil, ih]
    rfl

theorem map_curried (tag : String) (ps : List Ty) :
    h (con tag ps).curried = (con tag (ps.map h)).curried := by
  have hargs : arguments (ps.map h) = (arguments ps).map h := by
    rw [arguments, arguments, List.map_dropLast]
  have hresult : result (ps.map h) = h (result ps) := by
    rw [result, result, List.getLastD_eq_getLast?, List.getLastD_eq_getLast?, List.getLast?_map]
    cases ps.getLast? with
    | none => exact (hcon "Any" []).symm
    | some => rfl
  rw [curried, curried, hargs, hresult]
  split
  · rcases arguments ps with _ | ⟨a, _ | ⟨b, as⟩⟩
    · exact hcon _ _
    · exact hcon _ _
    · exact map_chain hcon _ _
  · exact hcon _ _

end map

theorem fill_chain (args : List Ty) (r : Ty) :
    (chain args r).fill f = chain (args.map (fill f)) (r.fill f) :=
  map_chain (fun tag ps ↦ fill_con tag ps f) args r

theorem fill_curried (tag : String) (ps : List Ty) :
    (con tag ps).curried.fill f = (con tag (ps.map (fill f))).curried :=
  map_curried (fun tag ps ↦ fill_con tag ps f) tag ps

theorem assign_curried (tag : String) (ps : List Ty) :
    (con tag ps).curried.assign f = (con tag (ps.map (assign f))).curried :=
  map_curried (fun _ _ ↦ assign_con) tag ps

theorem unknowns_chain (args : List Ty) (r : Ty) :
    (chain args r).unknowns = args.flatMap unknowns ++ r.unknowns := by
  induction args with
  | nil => rfl
  | cons a args ih =>
    rw [show chain (a :: args) r = function [a, chain args r] from rfl, function, unknowns_con]
    simp [ih]

theorem unknowns_curried (t : Ty) : t.curried.unknowns = t.unknowns := by
  cases t with
  | con tag ps =>
    rw [curried]
    split
    · by_cases hps : ps = []
      · subst hps
        rfl
      · have hflat : (con tag ps).unknowns = (arguments ps).flatMap unknowns ++
            (result ps).unknowns := by
          rw [unknowns_con, ← arguments_append_result hps]
          simp [arguments, result]
        rw [hflat]
        split
        · rename_i h
          simp [h, procedure]
        · exact hflat
        · exact unknowns_chain _ _
    · rfl
  | _ => rfl

theorem unknowns_scheme (t : Ty) : t.scheme.unknowns = t.unknowns := by
  induction t with
  | var => rfl
  | unknown => rfl
  | con tag ps ih =>
    rw [scheme_con, unknowns_curried, unknowns_con, unknowns_con, List.flatMap_def, List.map_map,
      List.flatMap_def]
    congr 1
    exact List.map_congr_left ih
  | variadic min max ps ih =>
    rw [scheme_variadic, unknowns_variadic, unknowns_variadic, List.flatMap_def, List.map_map,
      List.flatMap_def]
    congr 1
    exact List.map_congr_left ih
  | all bound body ih => exact ih

/-! ## Fragments -/

/-- The tags of `any`, `never`, the gradual type and `number`. -/
def specialTags : List String := ["Any", "Never", "?", "Number"]

/-- A constructor without a special tag, where `arity` holds of the number of parameters of a
`Function`. -/
def Node.Ordinary (arity : Nat → Prop) : Node → Prop
  | .con tag n => tag ∉ specialTags ∧ (tag = "Function" → arity n)
  | _ => False

instance (arity : Nat → Prop) [DecidablePred arity] : DecidablePred (Node.Ordinary arity)
  | .con _ _ => inferInstanceAs (Decidable (_ ∧ _))
  | .var | .unknown | .variadic _ | .all => inferInstanceAs (Decidable False)

/-- A type without variables and quantifiers.  Its unknowns are type parameters. -/
def Mono (t : Ty) : Prop := t.Built fun n ↦ n = .unknown ∨ n.Ordinary (0 < ·)

/-- A monotype in which functions have one argument, as inference finds it. -/
def Simple (t : Ty) : Prop := t.Built fun n ↦ n = .unknown ∨ n.Ordinary (· = 2)

/-- A simple type with variables. -/
def Polymorphic (t : Ty) : Prop := t.Built fun n ↦ n = .var ∨ n = .unknown ∨ n.Ordinary (· = 2)

/-- A type that may stand in an environment. -/
def Regular (t : Ty) : Prop :=
  t.Built fun n ↦ n = .var ∨ n = .all ∨ n = .unknown ∨ n.Ordinary (0 < ·)

theorem Node.Ordinary.mono {arity arity' : Nat → Prop} {n : Node} (h : n.Ordinary arity)
    (ha : ∀ k, arity k → arity' k) : n.Ordinary arity' := by
  cases n with
  | con tag k => exact ⟨h.1, fun e ↦ ha k (h.2 e)⟩
  | _ => exact h

theorem Simple.mono (h : t.Simple) : t.Mono :=
  Built.mono h fun _ ↦ Or.imp_right fun h ↦ h.mono fun _ hk ↦ by omega

theorem Simple.polymorphic (h : t.Simple) : t.Polymorphic := Built.mono h fun _ ↦ .inr

theorem Polymorphic.regular (h : t.Polymorphic) : t.Regular :=
  Built.mono h fun _ ↦ Or.imp_right fun h ↦ .inr (h.imp_right fun h ↦ h.mono fun _ hk ↦ by omega)

theorem Mono.no_var (h : t.Mono) : t.Built (· ≠ .var) :=
  Built.mono h fun n hn ↦ by rintro rfl; simp [Node.Ordinary] at hn

theorem Simple.fill_mono (h : t.Simple) (hf : ∀ id, (f id).Mono) : (t.fill f).Mono :=
  Built.fill (Built.mono h.mono fun _ ↦ .inr) fun id _ ↦ hf id

theorem Simple.no_var_all (h : t.Simple) : t.Built fun n ↦ n ≠ .var ∧ n ≠ .all :=
  Built.mono h fun n hn ↦ by constructor <;> rintro rfl <;> simp [Node.Ordinary] at hn

theorem simple_atom {tag : String} (htag : tag ∉ specialTags) (hfun : tag ≠ "Function") :
    (con tag []).Simple := by
  simp [Simple, Node.Ordinary, htag, hfun]

theorem simple_function {a r : Ty} : (function [a, r]).Simple ↔ a.Simple ∧ r.Simple := by
  simp [Simple, function, Node.Ordinary, specialTags]

theorem simple_procedure {r : Ty} : (procedure r).Simple ↔ r.Simple := by
  simp [Simple, procedure, Node.Ordinary, specialTags]

theorem simple_list {r : Ty} : (list r).Simple ↔ r.Simple := by
  simp [Simple, list, Node.Ordinary, specialTags]

theorem simple_unknown (id : String) : (unknown id).Simple := by simp [Simple]

theorem mono_unknown (id : String) : (unknown id).Mono := by simp [Mono]

theorem simple_chain {args : List Ty} {r : Ty} (ha : ∀ a ∈ args, a.Simple) (hr : r.Simple) :
    (chain args r).Simple := by
  induction args with
  | nil => exact hr
  | cons a args ih =>
    rw [List.forall_mem_cons] at ha
    exact simple_function.2 ⟨ha.1, ih ha.2⟩

theorem polymorphic_function {a r : Ty} :
    (function [a, r]).Polymorphic ↔ a.Polymorphic ∧ r.Polymorphic := by
  simp [Polymorphic, function, Node.Ordinary, specialTags]

theorem polymorphic_chain {args : List Ty} {r : Ty} (ha : ∀ a ∈ args, a.Polymorphic)
    (hr : r.Polymorphic) : (chain args r).Polymorphic := by
  induction args with
  | nil => exact hr
  | cons a args ih =>
    rw [List.forall_mem_cons] at ha
    exact polymorphic_function.2 ⟨ha.1, ih ha.2⟩

theorem polymorphic_curried {tag : String} {ps : List Ty} (htag : tag ∉ specialTags)
    (hfun : tag = "Function" → 0 < ps.length) (hps : ∀ t ∈ ps, t.Polymorphic) :
    (con tag ps).curried.Polymorphic := by
  rw [curried]
  split
  · rename_i h
    subst h
    have hne : ps ≠ [] := List.length_pos_iff.1 (hfun rfl)
    have hall : ∀ t ∈ arguments ps ++ [result ps], t.Polymorphic := by
      rw [arguments_append_result hne]
      exact hps
    rw [List.forall_mem_append, List.forall_mem_singleton] at hall
    split
    · simpa [Polymorphic, procedure, Node.Ordinary, specialTags] using hall.2
    · rename_i a h
      have hlen : ps.length = 2 := by
        rw [← arguments_append_result hne, h]
        rfl
      refine built_con.2 ⟨.inr (.inr ?_), hps⟩
      exact ⟨htag, fun _ ↦ hlen⟩
    · exact polymorphic_chain hall.1 hall.2
  · rename_i h
    exact built_con.2 ⟨.inr (.inr ⟨htag, fun e ↦ absurd e h⟩), hps⟩

theorem Regular.scheme (h : t.Regular) : t.scheme.Polymorphic := by
  induction t with
  | var => simp [Polymorphic]
  | unknown => simp [Polymorphic]
  | con tag ps ih =>
    obtain ⟨hn, hps⟩ := built_con.1 h
    have hn : tag ∉ specialTags ∧ (tag = "Function" → 0 < ps.length) := by
      simpa [Node.Ordinary] using hn
    rw [scheme_con]
    refine polymorphic_curried hn.1 (by simpa using hn.2) ?_
    rw [List.forall_mem_map]
    exact fun q hq ↦ ih q hq (hps q hq)
  | variadic => simp [Regular, Node.Ordinary] at h
  | all bound body ih => exact ih (built_all.1 h).2

/-- A type that inference has found is its own scheme. -/
theorem Polymorphic.scheme_eq (h : t.Polymorphic) : t.scheme = t := by
  induction t with
  | var => rfl
  | unknown => rfl
  | con tag ps ih =>
    obtain ⟨hn, hps⟩ := built_con.1 h
    rw [scheme_con, List.map_congr_left fun q hq ↦ ih q hq (hps q hq), List.map_id', curried]
    split
    · rename_i he
      have hlen : ps.length = 2 := by
        have : tag ∉ specialTags ∧ (tag = "Function" → ps.length = 2) := by
          simpa [Node.Ordinary] using hn
        exact this.2 he
      obtain ⟨a, r, rfl⟩ : ∃ a r, ps = [a, r] := by
        match ps, hlen with
        | [a, r], _ => exact ⟨a, r, rfl⟩
      rfl
    · rfl
  | variadic => simp [Polymorphic, Node.Ordinary] at h
  | all => simp [Polymorphic, Node.Ordinary] at h

end SchemeTyping.Ty
