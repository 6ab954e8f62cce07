import SchemeTyping.Proofs.Checker.Runs
import SchemeTyping.Proofs.Expr

/-!
# Two checks in lockstep

`Mirrors F R S x y` compares two steps.  From states related by `R`, either both return, with
results related by `S`, or both fail with the same diagnostic, one that `F` allows; and the states
that they leave are related by `R` again.

The rules of the checker look at little of the state.  `InStep` lists what they read and write, and
says that it agrees in states related by `R`, in an area.  An area says which expression is at which
place, so that the children of an expression are at the places below it (`Row`).

## What is here

* `InStep.synth` — checking an expression of the area mirrors itself in both surroundings.
* `InStep.compute` — so does computing a definition.
* `Expr.Slotted`, `Expr.Asks` — names are bound in slots, and the rules put them into the context
  before they look at the slots.  So a check asks the surroundings only for names outside of slots.
-/

set_option autoImplicit false

namespace SchemeTyping

namespace Expr

/-- The names that the expression binds are in slots with an `identifier?`. -/
def Slotted : Expr → Prop
  | .define name _ => name.identifier?.isSome
  | .letIn bindings _ | .letrec bindings _ => ∀ b ∈ bindings, b.1.identifier?.isSome
  | .lambda params _ => ∀ p ∈ params, p.identifier?.isSome
  | _ => True

instance : DecidablePred Slotted
  | .define name _ => inferInstanceAs (Decidable (name.identifier?.isSome = true))
  | .letIn bindings _ | .letrec bindings _ =>
    inferInstanceAs (Decidable (∀ b ∈ bindings, b.1.identifier?.isSome = true))
  | .lambda params _ => inferInstanceAs (Decidable (∀ p ∈ params, p.identifier?.isSome = true))
  | .number _ | .bool _ | .string _ | .null | .list _ | .hole | .binding _ _ | .var _ | .call _ _
  | .sequence _ | .branch _ _ _ | .cond _ => inferInstanceAs (Decidable True)

/-- The children of an expression other than the slots of names. -/
def operands : Expr → List Expr
  | .list es | .sequence es => es
  | .call called args => called :: args
  | .define _ value => [value]
  | .letIn bindings body | .letrec bindings body => bindings.map (·.2) ++ [body]
  | .lambda _ body => [body]
  | .branch c t e => [c, t, e]
  | .cond cases => cases.flatMap fun b ↦ [b.1, b.2]
  | _ => []

/-- `e.Asks name`: the name occurs in `e` outside of the slots of names, so that its type has to be
found. -/
inductive Asks : Expr → String → Prop
  | var {name : String} : Asks (.var name) name
  | binding {name : String} {declared : Option Ty} : Asks (.binding name declared) name
  | operand {e c : Expr} {name : String} (hc : c ∈ e.operands) (h : Asks c name) : Asks e name

theorem mem_children_of_mem_operands {e c : Expr} (h : c ∈ e.operands) : c ∈ e.children := by
  cases e with
  | letIn bindings body | letrec bindings body =>
    simp only [operands, children, List.mem_append, List.mem_map, List.mem_flatMap] at h ⊢
    refine h.imp_left ?_
    rintro ⟨b, hb, rfl⟩
    exact ⟨b, hb, by simp⟩
  | _ => simp_all [operands, children]

end Expr

/-- The name that a diagnostic reports as unbound. -/
def Diagnostic.unbound? : Diagnostic → Option String
  | .unboundVariable m => m.expr.name?
  | _ => none

namespace Check

open Ty

variable {α β α' β' : Type} {F : Diagnostic → CheckerState → Prop}
  {R : CheckerState → CheckerState → Prop} {S : α → β → Prop} {S' : α' → β' → Prop} {x : Check α}
  {y : Check β}

/-! ## Mirrored steps -/

/-- Both outcomes are results related by `S`, or both are one diagnostic that `F` allows; the states
are related by `R`. -/
def Paired (F : Diagnostic → CheckerState → Prop) (R : CheckerState → CheckerState → Prop)
    (S : α → β → Prop) : Except Fault α × CheckerState → Except Fault β × CheckerState → Prop
  | (.ok a, s), (.ok b, t) => S a b ∧ R s t
  | (.error f, s), (.error g, t) => (∃ d, f = .diagnosed d ∧ g = .diagnosed d ∧ F d s) ∧ R s t
  | _, _ => False

/-- From states related by `R`, the outcomes of `x` and `y` are `Paired`. -/
def Mirrors (F : Diagnostic → CheckerState → Prop) (R : CheckerState → CheckerState → Prop)
    (S : α → β → Prop) (x : Check α) (y : Check β) : Prop :=
  ∀ s t, R s t → Paired F R S (x.run s) (y.run t)

/-- No diagnostic is allowed. -/
def Never (_ : Diagnostic) (_ : CheckerState) : Prop := False

/-- Mirrored steps that allow no diagnostic both return. -/
theorem Mirrors.exists_run (h : Mirrors Never R S x y) {s t : CheckerState} (hst : R s t) :
    ∃ a s' b t', x.run s = (.ok a, s') ∧ y.run t = (.ok b, t') ∧ S a b ∧ R s' t' := by
  have h := h s t hst
  rcases hx : x.run s with ⟨f | a, s'⟩ <;> rcases hy : y.run t with ⟨g | b, t'⟩ <;> rw [hx, hy] at h
  · obtain ⟨⟨d, -, -, hd⟩, -⟩ := h
    exact hd.elim
  · exact h.elim
  · exact h.elim
  · exact ⟨a, s', b, t', rfl, rfl, h.1, h.2⟩

theorem Mirrors.of_exists (h : ∀ s t, R s t → ∃ a s' b t', x.run s = (.ok a, s') ∧
    y.run t = (.ok b, t') ∧ S a b ∧ R s' t') : Mirrors F R S x y := by
  intro s t hst
  obtain ⟨a, s', b, t', hx, hy, hS, hR⟩ := h s t hst
  rw [hx, hy]
  exact ⟨hS, hR⟩

theorem Mirrors.mono {F' : Diagnostic → CheckerState → Prop} {T : α → β → Prop}
    (h : Mirrors F R S x y) (hF : ∀ d s, F d s → F' d s) (hS : ∀ a b, S a b → T a b) :
    Mirrors F' R T x y := by
  intro s t hst
  have h := h s t hst
  revert h
  rcases x.run s with ⟨f | a, s'⟩ <;> rcases y.run t with ⟨g | b, t'⟩
  · rintro ⟨⟨d, hf, hg, hd⟩, hst⟩
    exact ⟨⟨d, hf, hg, hF d s' hd⟩, hst⟩
  · exact id
  · exact id
  · exact fun h ↦ ⟨hS a b h.1, h.2⟩

theorem Mirrors.mayFail (h : Mirrors Never R S x y) : Mirrors F R S x y :=
  h.mono (fun _ _ ↦ False.elim) fun _ _ ↦ id

theorem Mirrors.pure {a : α} {b : β} (h : S a b) : Mirrors F R S (Pure.pure a) (Pure.pure b) :=
  fun _ _ hst ↦ ⟨h, hst⟩

theorem mirrors_throw {d : Diagnostic} (h : ∀ s, F d s) :
    Mirrors F R S (throw (.diagnosed d) : Check α) (throw (.diagnosed d) : Check β) :=
  fun s _ hst ↦ ⟨⟨d, rfl, rfl, h s⟩, hst⟩

theorem Mirrors.bind {f : α → Check α'} {g : β → Check β'} (hxy : Mirrors F R S x y)
    (hfg : ∀ a b, S a b → Mirrors F R S' (f a) (g b)) : Mirrors F R S' (x >>= f) (y >>= g) := by
  intro s t hst
  have h := hxy s t hst
  rw [run_bind, run_bind]
  revert h
  rcases x.run s with ⟨e | a, s'⟩ <;> rcases y.run t with ⟨e' | b, t'⟩
  · exact id
  · exact False.elim
  · exact False.elim
  · exact fun h ↦ hfg a b h.1 s' t' h.2

theorem Mirrors.next {x y : Check α} {f : α → Check α'} {g : α → Check β'}
    (hxy : Mirrors F R Eq x y) (hfg : ∀ a, Mirrors F R S' (f a) (g a)) :
    Mirrors F R S' (x >>= f) (y >>= g) := by
  refine hxy.bind ?_
  rintro a _ rfl
  exact hfg a

theorem mirrors_get {f g : CheckerState → Check α}
    (h : ∀ s t, R s t → Mirrors F R Eq (f s) (g t)) : Mirrors F R Eq (get >>= f) (get >>= g) :=
  fun s t hst ↦ h s t hst s t hst

theorem mirrors_modify {f g : CheckerState → CheckerState} (h : ∀ s t, R s t → R (f s) (g t)) :
    Mirrors F R Eq (modify f : Check PUnit) (modify g) :=
  fun s t hst ↦ ⟨rfl, h s t hst⟩

theorem mirrors_report {p : Place} {d : Diagnostic} (h : ∀ s t, R s t →
      R { s with errors := s.errors.insert p d } { t with errors := t.errors.insert p d }) :
    Mirrors F R Eq (report p d) (report p d) :=
  mirrors_modify h

/-- `reporting` handles a diagnostic on both sides. -/
theorem Mirrors.reporting {x y : Check Ty} {p : Place} (hxy : Mirrors F R Eq x y)
    (h : ∀ d s t, F d s → R s t →
      R { s with errors := s.errors.insert p d } { t with errors := t.errors.insert p d }) :
    Mirrors Never R Eq (reporting p x) (reporting p y) := by
  intro s t hst
  have hxy := hxy s t hst
  rw [Check.reporting, Check.reporting, run_tryCatch, run_tryCatch]
  revert hxy
  rcases x.run s with ⟨f | a, s'⟩ <;> rcases y.run t with ⟨g | b, t'⟩
  · rintro ⟨⟨d, rfl, rfl, hd⟩, hst⟩
    exact ⟨rfl, h d s' t' hd hst⟩
  · exact False.elim
  · exact False.elim
  · exact id

/-! ## Areas -/

/-- The expressions `es` are at the children of the place `p`, from the number `k` on. -/
def Row (area : Place → Expr → Prop) (p : Place) : Nat → List Expr → Prop
  | _, [] => True
  | k, e :: es => area (p.child k) e ∧ Row area p (k + 1) es

section

variable {area : Place → Expr → Prop} {p : Place} {k : Nat} {es : List Expr}

theorem row_append {ds : List Expr} :
    Row area p k (ds ++ es) ↔ Row area p k ds ∧ Row area p (k + ds.length) es := by
  induction ds generalizing k with
  | nil => simp [Row]
  | cons d ds ih => simp [Row, ih, and_assoc, Nat.add_comm 1, Nat.add_assoc]

theorem row_of_getElem? (h : ∀ i e, es[i]? = some e → area (p.child (k + i)) e) :
    Row area p k es := by
  induction es generalizing k with
  | nil => trivial
  | cons e es ih =>
    refine ⟨h 0 e rfl, ih fun i e' hi ↦ ?_⟩
    rw [Nat.add_assoc, Nat.add_comm 1]
    exact h (i + 1) e' hi

theorem row_of_forall (h : ∀ e ∈ es, ∀ i, area (p.child i) e) : Row area p k es :=
  row_of_getElem? fun _ e hi ↦ h e (List.mem_of_getElem? hi) _

/-- The slots and values of bindings are at the children of `p` alternately. -/
abbrev PairRow (area : Place → Expr → Prop) (p : Place) (k : Nat)
    (bindings : List (Expr × Expr)) : Prop :=
  Row area p k (bindings.flatMap fun b ↦ [b.1, b.2])

/-- The children of a form with bindings: the pairs come before the body. -/
theorem row_bindings {bindings : List (Expr × Expr)} {body : Expr}
    (h : Row area p 0 ((bindings.flatMap fun b ↦ [b.1, b.2]) ++ [body])) :
    PairRow area p 0 bindings ∧ area (p.child (2 * bindings.length)) body := by
  obtain ⟨hrow, hbody, -⟩ := row_append.1 h
  rw [Expr.length_pairs, Nat.zero_add] at hbody
  exact ⟨hrow, hbody⟩

/-- An expression without definitions whose names are bound in slots. -/
structure DefineFree (e : Expr) : Prop where
  slotted : e.All Expr.Slotted
  defineCount : e.defineCount = 0

theorem DefineFree.not_isDefine {e : Expr} (h : DefineFree e) : ¬ e.isDefine :=
  (Expr.all_iff.1 (Expr.defineCount_eq_zero_iff.1 h.defineCount)).1

/-- The places with `A`, where the expression is `DefineFree`. -/
def Clear (A : Place → Prop) (p : Place) (e : Expr) : Prop := A p ∧ DefineFree e

theorem Clear.slotted {A : Place → Prop} {e : Expr} (h : Clear A p e) : e.Slotted :=
  (Expr.all_iff.1 h.2.slotted).1

theorem Clear.children {A : Place → Prop} (hA : ∀ i, A (p.child i)) {e : Expr} (h : Clear A p e) :
    Row (Clear A) p 0 e.children :=
  row_of_forall fun c hc i ↦
    ⟨hA i, (Expr.all_iff.1 h.2.slotted).2 c hc, Expr.defineCount_eq_zero_iff.2
    ((Expr.all_iff.1 (Expr.defineCount_eq_zero_iff.1 h.2.defineCount)).2 c hc)⟩

end

/-! ## What the rules read and write -/

/-- The key of a place in the cache. -/
def keyAt (w : Surroundings) (p : Place) : CacheKey := ⟨p.tree, w.revision p.tree, p.path⟩

theorem keyAt_eq {revision : Nat → Nat} {tree : Tree} {p : Place}
    (hrevision : revision tree.number = tree.revision) (hp : p.tree = tree.number)
    (find : String → Check (Option Ty)) : keyAt ⟨revision, find⟩ p = tree.key p.path := by
  rw [keyAt, hp, Tree.key, ← hrevision]

/-- The definition that `synth` postpones at a spot, in the context `c`. -/
def waiting (c : Context) (spot : Spot) (name value : Expr) : Pending :=
  ⟨spot.mention (.define name value), name.declared?, c, spot.place⟩

/-- The name that a diagnostic reports as unbound is one that `w.typeOf` has not found. -/
def Sayable (w : Surroundings) (d : Diagnostic) (s : CheckerState) : Prop :=
  ∀ name, d.unbound? = some name → ∃ s₀, (w.typeOf name).run s₀ = (.ok none, s)

theorem sayable {w : Surroundings} {d : Diagnostic} {s : CheckerState} (h : d.unbound? = none) :
    Sayable w d s := by
  intro name hname
  rw [h] at hname
  cases hname

/-- What the rules read agrees in related states, in an area that has the children of its
expressions, and what they write keeps the states related.  The rules ask for names with `V` only.
Contexts are related by `C`, because the numbers of `letrec`s may differ. -/
structure InStep (w w' : Surroundings) (area : Place → Expr → Prop) (V : String → Prop)
    (R : CheckerState → CheckerState → Prop) (C : Context → Context → Prop) : Prop where
  slotted : ∀ {p : Place} {e : Expr}, area p e → e.Slotted
  children : ∀ {p : Place} {e : Expr}, area p e → Row area p 0 e.children
  revision : ∀ {p : Place} {e : Expr}, area p e → w'.revision p.tree = w.revision p.tree
  cached : ∀ {p : Place} {e : Expr} {s t : CheckerState}, area p e → R s t →
    t.cache.get? (keyAt w p) = s.cache.get? (keyAt w p)
  record : ∀ {p : Place} {e : Expr} (T : Ty) {s t : CheckerState}, area p e → R s t →
    R { s with cache := s.cache.insert (keyAt w p) T }
      { t with cache := t.cache.insert (keyAt w p) T }
  report : ∀ {p : Place} {e : Expr} {d : Diagnostic} {s t : CheckerState}, area p e →
    Sayable w d s →
    R s t → R { s with errors := s.errors.insert p d } { t with errors := t.errors.insert p d }
  typeOf : ∀ {name : String}, V name → Mirrors Never R Eq (w.typeOf name) (w'.typeOf name)
  types : ∀ {c c' : Context}, C c c' → c'.types = c.types
  fixed : ∀ Γ : Env, C (.fixed Γ) (.fixed Γ)
  newGroup : ∀ (Γ : Env) {s t : CheckerState}, R s t →
    R { s with groups := s.groups + 1 } { t with groups := t.groups + 1 } ∧
      C ⟨Γ, some s.groups⟩ ⟨Γ, some t.groups⟩
  insert : ∀ {Γ : Env} {g g' : Nat} (name : String) (T : Ty), C ⟨Γ, some g⟩ ⟨Γ, some g'⟩ →
    C ⟨Γ.insert name T, some g⟩ ⟨Γ.insert name T, some g'⟩
  settle : ∀ {Γ : Env} {g g' : Nat} (name : String) (T : Ty) {s t : CheckerState},
    C ⟨Γ, some g⟩ ⟨Γ, some g'⟩ → R s t → R (s.settle (some g) name T) (t.settle (some g') name T)
  postpone : ∀ {spot : Spot} {name : String} {declared : Option Ty} {value : Expr} {c c' : Context}
    {s t : CheckerState}, area spot.place (.define (.binding name declared) value) →
      C c c' → R s t →
    R { s with definitions :=
          s.definitions.insert name (waiting c spot (.binding name declared) value) }
      { t with definitions :=
          t.definitions.insert name (waiting c' spot (.binding name declared) value) }

/-- `e` asks only for names with `V`. -/
def AsksOnly (V : String → Prop) (e : Expr) : Prop := ∀ name, e.Asks name → V name

theorem AsksOnly.operand {V : String → Prop} {e q : Expr} (h : AsksOnly V e) (hq : q ∈ e.operands) :
    AsksOnly V q :=
  fun name hname ↦ h name (.operand hq hname)

/-- `synth` mirrors itself on `e` at every place of the area. -/
def Twin (w w' : Surroundings) (area : Place → Expr → Prop) (R : CheckerState → CheckerState → Prop)
    (C : Context → Context → Prop) (e : Expr) : Prop :=
  ∀ (c c' : Context) (spot : Spot) (expected : Option Ty), C c c' → area spot.place e →
    Mirrors Never R Eq (synth w c spot expected e) (synth w' c' spot expected e)

section

variable {w w' : Surroundings} {area : Place → Expr → Prop} {V : String → Prop}
  {C : Context → Context → Prop} {c c' : Context} {spot : Spot} {expected : Option Ty} {k : Nat}
  {e : Expr} {es : List Expr} {bindings : List (Expr × Expr)} {Γ : Env}

/-- `synth` looks a spot up in the cache, and otherwise finds its type by a rule and records it. -/
theorem InStep.cachedOr (h : InStep w w' area V R C) (hspot : area spot.place e) {x y : Check Ty}
    (hxy : Mirrors (Sayable w) R Eq x y) :
    Mirrors Never R Eq
      (do
        match (← get).cache.get? (cacheKey w spot) with
        | some t => return t
        | none =>
          let type ← Check.reporting spot.place x
          modify fun s ↦ { s with cache := s.cache.insert (cacheKey w spot) type }
          return type)
      (do
        match (← get).cache.get? (cacheKey w' spot) with
        | some t => return t
        | none =>
          let type ← Check.reporting spot.place y
          modify fun s ↦ { s with cache := s.cache.insert (cacheKey w' spot) type }
          return type) := by
  have hkey : cacheKey w' spot = cacheKey w spot := by rw [cacheKey, cacheKey, h.revision hspot]
  rw [hkey]
  refine mirrors_get fun s t hst ↦ ?_
  rw [show t.cache.get? (cacheKey w spot) = s.cache.get? (cacheKey w spot) from h.cached hspot hst]
  cases s.cache.get? (cacheKey w spot) with
  | some T => exact .pure rfl
  | none =>
    refine (hxy.reporting fun d s t ↦ h.report hspot).next fun T ↦ ?_
    exact (mirrors_modify fun s t ↦ h.record T hspot).next fun _ ↦ .pure rfl

theorem Twin.child (he : Twin w w' area R C e) (hc : C c c') (harea : area (spot.place.child k) e) :
    Mirrors F R Eq (synth w c (spot.child k) expected e) (synth w' c' (spot.child k) expected e) :=
  (he c c' (spot.child k) expected hc harea).mayFail

theorem InStep.demand (h : InStep w w' area V R C) (hspot : area spot.place e) (found wanted : Ty) :
    Mirrors F R Eq (demand spot e found wanted) (demand spot e found wanted) := by
  rw [Check.demand]
  split
  · exact .pure rfl
  · exact mirrors_report fun s t ↦ h.report hspot (sayable rfl)

theorem InStep.name (h : InStep w w' area V R C) (hc : C c c') {m : Mention} {name : String}
    (hm : m.expr.name? = some name) (hname : V name ∨ (c.types.get? name).isSome) :
    Mirrors (Sayable w) R Eq
      (do
        match ← typeOfName w c name with
        | some t => pure t
        | none => throw (.diagnosed (.unboundVariable m)))
      (do
        match ← typeOfName w' c' name with
        | some t => pure t
        | none => throw (.diagnosed (.unboundVariable m))) := by
  rw [typeOfName, typeOfName, h.types hc]
  cases hget : c.types.get? name with
  | some T => exact .pure rfl
  | none =>
    rw [hget] at hname
    intro s t hst
    obtain ⟨o, s', _, t', hrun, hrun', rfl, hst'⟩ :=
      (h.typeOf (hname.resolve_right nofun)).exists_run hst
    rw [run_bind_ok hrun, run_bind_ok hrun']
    cases o with
    | some T => exact ⟨rfl, hst'⟩
    | none =>
      refine ⟨⟨_, rfl, rfl, fun n hn ↦ ⟨s, ?_⟩⟩, hst'⟩
      rwa [← Option.some.inj (hm.symm.trans hn)]

/-- The diagnostics of `plan` are not about unbound names. -/
theorem plan_spec (call : Mention) (count : Nat) (T : Ty) :
    (∀ t d, plan call count T = .refuse t d → d.unbound? = none) ∧
      ∀ d, plan call count T = .fail d → d.unbound? = none := by
  fun_cases plan call count T <;> simp [Diagnostic.unbound?]

/-! ## Slots of names -/

/-- `Γ` has a type for the name of the slot, if there is one. -/
def BoundIn (Γ : Env) (slot : Expr) : Prop := ∀ name ∈ slot.name?, (Γ.get? name).isSome

theorem boundIn_hole (Γ : Env) : BoundIn Γ .hole := by
  intro name hname
  cases hname

theorem boundIn_insert_self {slot : Expr} {id : String} (h : slot.identifier? = some id) (T : Ty) :
    BoundIn (Γ.insert id T) slot := by
  intro n hn
  cases slot with
  | binding name declared =>
    cases h
    cases hn
    simp
  | hole => cases hn
  | _ => cases h

theorem InStep.slot (h : InStep w w' area V R C) (hc : C c c') {slot : Expr}
    (hspot : area spot.place slot) (hslot : slot.identifier?.isSome)
    (hbound : BoundIn c.types slot) :
    Mirrors F R Eq (synth w c spot expected slot) (synth w' c' spot expected slot) := by
  refine Mirrors.mayFail ?_
  cases slot with
  | hole =>
    rw [synth, synth]
    exact h.cachedOr hspot (.pure rfl)
  | binding name declared =>
    rw [synth, synth]
    exact h.cachedOr hspot (h.name hc rfl (.inr (hbound name rfl)))
  | _ => cases hslot

/-! ## Lists of children -/

/-- `synthRow` mirrors itself if `synth` does for every child. -/
theorem mirrors_synthRow (hrow : Row area spot.place k es)
    (hes : ∀ e ∈ es, ∀ i, area (spot.place.child i) e →
      Mirrors F R Eq (synth w c (spot.child i) none e) (synth w' c' (spot.child i) none e)) :
    Mirrors F R Eq (synthRow w c spot 1 k es) (synthRow w' c' spot 1 k es) := by
  induction es generalizing k with
  | nil => exact .pure rfl
  | cons e es ih =>
    rw [List.forall_mem_cons] at hes
    exact (hes.1 k hrow.1).next fun _ ↦ (ih hrow.2 hes.2).next fun _ ↦ .pure rfl

theorem InStep.synthNames (h : InStep w w' area V R C) (hc : C c c')
    (hrow : PairRow area spot.place k bindings)
    (hslots : ∀ b ∈ bindings, b.1.identifier?.isSome ∧ BoundIn c.types b.1) :
    Mirrors F R Eq (synthNames w c spot k bindings) (synthNames w' c' spot k bindings) := by
  induction bindings generalizing k with
  | nil =>
    rw [Check.synthNames, Check.synthNames]
    exact .pure rfl
  | cons b bindings ih =>
    rw [List.forall_mem_cons] at hslots
    rw [Check.synthNames, Check.synthNames]
    exact (h.slot hc hrow.1 hslots.1.1 hslots.1.2).next fun _ ↦ ih hrow.2.2 hslots.2

theorem mirrors_joinCases (hc : C c c') (hrow : PairRow area spot.place k bindings)
    (hcases : ∀ b ∈ bindings, Twin w w' area R C b.1 ∧ Twin w w' area R C b.2) (T : Ty) :
    Mirrors F R Eq (joinCases w c spot k T bindings) (joinCases w' c' spot k T bindings) := by
  induction bindings generalizing k T with
  | nil =>
    rw [Check.joinCases, Check.joinCases]
    exact .pure rfl
  | cons b bindings ih =>
    rw [List.forall_mem_cons] at hcases
    rw [Check.joinCases, Check.joinCases]
    exact (hcases.1.1.child hc hrow.1).next fun _ ↦ (hcases.1.2.child hc hrow.2.1).next
      fun found ↦ ih hrow.2.2 hcases.2 (T.join found)

theorem mirrors_synthArgs (hc : C c c') (hrow : Row area spot.place k es)
    (hes : ∀ e ∈ es, Twin w w' area R C e) (vars : List String) (params : List Ty) :
    Mirrors F R Eq (synthArgs w c spot vars k es params)
      (synthArgs w' c' spot vars k es params) := by
  induction es generalizing k params with
  | nil =>
    rw [Check.synthArgs, Check.synthArgs]
    · exact .pure rfl
    · simp
    · simp
  | cons e es ih =>
    rw [List.forall_mem_cons] at hes
    cases params with
    | nil =>
      rw [Check.synthArgs, Check.synthArgs]
      · exact .pure rfl
      · simp
      · simp
    | cons p params =>
      rw [Check.synthArgs, Check.synthArgs]
      exact (hes.1.child hc hrow.1).next fun T ↦ (ih hrow.2 hes.2 params).next fun _ ↦ .pure rfl

/-! ## Bindings -/

/-- `Δ` has every name that `Γ` has. -/
def Extends (Γ Δ : Env) : Prop := ∀ name, (Γ.get? name).isSome → (Δ.get? name).isSome

theorem Extends.refl (Γ : Env) : Extends Γ Γ := fun _ ↦ id

theorem extends_insert (Γ : Env) (name : String) (T : Ty) : Extends Γ (Γ.insert name T) := by
  intro n hn
  rw [OrdMap.get?_insert]
  split
  · rfl
  · exact hn

theorem Extends.trans {Γ Δ Θ : Env} (h : Extends Γ Δ) (h' : Extends Δ Θ) : Extends Γ Θ :=
  fun name hname ↦ h' name (h name hname)

theorem BoundIn.mono {Γ Δ : Env} {slot : Expr} (h : BoundIn Γ slot) (hΔ : Extends Γ Δ) :
    BoundIn Δ slot :=
  fun name hname ↦ hΔ name (h name hname)

theorem extends_bindSlots (Γ : Env) (slots : List Expr) (ts : List Ty) :
    Extends Γ (bindSlots Γ slots ts) := by
  fun_induction bindSlots Γ slots ts with
  | case1 Γ name declared slots t ts ih => exact (extends_insert Γ name t).trans ih
  | case2 Γ slot slots t ts hslot ih => exact ih
  | case3 => exact .refl _

theorem boundIn_bindSlots (Γ : Env) {slots : List Expr} {ts : List Ty}
    (hlen : ts.length = slots.length) (hslots : ∀ p ∈ slots, p.identifier?.isSome) :
    ∀ p ∈ slots, BoundIn (bindSlots Γ slots ts) p := by
  induction slots generalizing Γ ts with
  | nil => nofun
  | cons slot slots ih =>
    rw [List.forall_mem_cons] at hslots ⊢
    obtain ⟨t, ts, rfl⟩ := List.exists_cons_of_length_eq_add_one hlen
    cases slot with
    | hole => exact ⟨boundIn_hole _, ih Γ (Nat.succ.inj hlen) hslots.2⟩
    | binding name declared =>
      exact ⟨(boundIn_insert_self rfl t).mono (extends_bindSlots _ slots ts),
        ih (Γ.insert name t) (Nat.succ.inj hlen) hslots.2⟩
    | _ => cases hslots.1

theorem InStep.synthLetValues (h : InStep w w' area V R C) (hc : C c c')
    (hrow : PairRow area spot.place k bindings) (hvalues : ∀ b ∈ bindings, Twin w w' area R C b.2)
    (hslots : ∀ b ∈ bindings, b.1.identifier?.isSome) (Γ : Env) :
    Mirrors F R (fun Δ Δ' ↦ Δ' = Δ ∧ Extends Γ Δ ∧ ∀ b ∈ bindings, BoundIn Δ b.1)
      (synthLetValues w c spot Γ k bindings) (synthLetValues w' c' spot Γ k bindings) := by
  induction bindings generalizing k Γ with
  | nil =>
    rw [Check.synthLetValues, Check.synthLetValues]
    exact .pure ⟨rfl, .refl Γ, nofun⟩
  | cons b bindings ih =>
    obtain ⟨slot, value⟩ := b
    rw [List.forall_mem_cons] at hvalues hslots
    rw [Check.synthLetValues, Check.synthLetValues]
    refine (hvalues.1.child hc hrow.2.1).next fun found ↦ ?_
    have hrest {Θ : Env} (hΘ : Extends Γ Θ) (hslot : BoundIn Θ slot) : Mirrors F R
        (fun Δ Δ' ↦ Δ' = Δ ∧ Extends Γ Δ ∧ ∀ b ∈ (slot, value) :: bindings, BoundIn Δ b.1)
        (Check.synthLetValues w c spot Θ (k + 2) bindings)
        (Check.synthLetValues w' c' spot Θ (k + 2) bindings) := by
      refine (ih hrow.2.2 hvalues.2 hslots.2 Θ).mono (fun _ _ ↦ id) fun Δ Δ' ⟨hΔ, hext, hbound⟩ ↦ ?_
      exact ⟨hΔ, hΘ.trans hext, List.forall_mem_cons.2 ⟨hslot.mono hext, hbound⟩⟩
    match slot, hslots.1 with
    | .hole, _ => exact hrest (.refl Γ) (boundIn_hole Γ)
    | .binding _ none, _ => exact hrest (extends_insert Γ _ _) (boundIn_insert_self rfl found)
    | .binding _ (some d), _ =>
      exact (h.demand hrow.2.1 found d).next fun _ ↦
        hrest (extends_insert Γ _ _) (boundIn_insert_self rfl d)

theorem InStep.settled (h : InStep w w' area V R C) {g g' : Nat} (hc : C ⟨Γ, some g⟩ ⟨Γ, some g'⟩)
    (name : String) (T : Ty) :
    Mirrors F R (fun c c' ↦ c = ⟨Γ.insert name T, some g⟩ ∧ c' = ⟨Γ.insert name T, some g'⟩)
      (Check.settle ⟨Γ, some g⟩ name T) (Check.settle ⟨Γ, some g'⟩ name T) := by
  rw [Check.settle, Check.settle]
  exact (mirrors_modify fun s t ↦ h.settle name T hc).next fun _ ↦ .pure ⟨rfl, rfl⟩

theorem InStep.synthRecursiveValues (h : InStep w w' area V R C) {g g' : Nat}
    (hc : C ⟨Γ, some g⟩ ⟨Γ, some g'⟩) (hrow : PairRow area spot.place k bindings)
    (hvalues : ∀ b ∈ bindings, Twin w w' area R C b.2)
    (hslots : ∀ b ∈ bindings, b.1.identifier?.isSome) :
    Mirrors F R (fun c c' ↦ C c c' ∧ Extends Γ c.types)
      (synthRecursiveValues w spot ⟨Γ, some g⟩ k bindings)
      (synthRecursiveValues w' spot ⟨Γ, some g'⟩ k bindings) := by
  induction bindings generalizing k Γ with
  | nil =>
    rw [Check.synthRecursiveValues, Check.synthRecursiveValues]
    exact .pure ⟨hc, .refl Γ⟩
  | cons b bindings ih =>
    obtain ⟨slot, value⟩ := b
    rw [List.forall_mem_cons] at hvalues hslots
    rw [Check.synthRecursiveValues, Check.synthRecursiveValues]
    refine (hvalues.1.child hc hrow.2.1).next fun found ↦ ?_
    cases slot with
    | hole => exact ih hc hrow.2.2 hvalues.2 hslots.2
    | binding name declared =>
      cases declared with
      | some d =>
        exact (h.demand hrow.2.1 found d).next fun _ ↦ ih hc hrow.2.2 hvalues.2 hslots.2
      | none =>
        -- The found type goes into this context and those of the definitions waiting in the group.
        change Mirrors F R _
          (Check.settle ⟨Γ, some g⟩ name found >>=
            (Check.synthRecursiveValues w spot · (k + 2) bindings))
          (Check.settle ⟨Γ, some g'⟩ name found >>=
            (Check.synthRecursiveValues w' spot · (k + 2) bindings))
        refine (h.settled hc name found).bind ?_
        rintro _ _ ⟨rfl, rfl⟩
        refine (ih (h.insert name found hc) hrow.2.2 hvalues.2 hslots.2).mono (fun _ _ ↦ id)
          fun c c' ⟨hc, hext⟩ ↦ ?_
        exact ⟨hc, (extends_insert Γ name found).trans hext⟩
    | _ => cases hslots.1

/-- The slots of bindings, and last the body. -/
theorem InStep.body (h : InStep w w' area V R C) (hc : C c c')
    (hrow : PairRow area spot.place 0 bindings) (hslots : ∀ b ∈ bindings, b.1.identifier?.isSome)
    (hbound : ∀ b ∈ bindings, BoundIn c.types b.1) {body : Expr} (hbody : Twin w w' area R C body)
    (harea : area (spot.place.child (2 * bindings.length)) body) :
    Mirrors F R Eq
      (do
        Check.synthNames w c spot 0 bindings
        synth w c (spot.child (2 * bindings.length)) none body)
      (do
        Check.synthNames w' c' spot 0 bindings
        synth w' c' (spot.child (2 * bindings.length)) none body) :=
  (h.synthNames hc hrow fun b hb ↦ ⟨hslots b hb, hbound b hb⟩).next fun _ ↦ hbody.child hc harea

/-! ## One lemma for every kind of expression with children -/

theorem InStep.list (h : InStep w w' area V R C) (hes : ∀ e ∈ es, Twin w w' area R C e) :
    Twin w w' area R C (.list es) := by
  intro c c' spot expected hc hspot
  rw [synth, synth, joinAll_eq, joinAll_eq]
  refine h.cachedOr hspot (Mirrors.next ?_ fun _ ↦ .pure rfl)
  exact (mirrors_synthRow (h.children hspot) fun e he _ ↦ (hes e he).child hc).next
    fun _ ↦ .pure rfl

theorem InStep.lambda (h : InStep w w' area V R C) {params : List Expr} {body : Expr}
    (hbody : Twin w w' area R C body) : Twin w w' area R C (.lambda params body) := by
  intro c c' spot expected hc hspot
  have hparams := h.slotted hspot
  obtain ⟨hrow, harea, -⟩ := row_append.1 (h.children hspot)
  rw [Nat.zero_add] at harea
  rw [synth, synth]
  refine h.cachedOr hspot ?_
  dsimp only
  -- Whatever type is expected, there are as many types as parameters.
  have hlen := length_paramTypes (length_expected expected params.length)
  rw [h.types hc, bindParams_eq _ _ hparams, pure_bind, pure_bind, synthAll_eq, synthAll_eq]
  refine Mirrors.next ((mirrors_synthRow hrow fun p hp i hpi ↦ ?_).next fun _ ↦ .pure rfl)
    fun _ ↦ ?_
  · exact h.slot (h.fixed _) hpi (hparams p hp) (boundIn_bindSlots _ hlen hparams p hp)
  · exact (hbody.child (h.fixed _) harea).next fun _ ↦ .pure rfl

theorem InStep.call (h : InStep w w' area V R C) {called : Expr} {args : List Expr}
    (hcalled : Twin w w' area R C called) (hargs : ∀ e ∈ args, Twin w w' area R C e) :
    Twin w w' area R C (.call called args) := by
  intro c c' spot expected hc hspot
  obtain ⟨harea, hrow⟩ := h.children hspot
  rw [synth, synth]
  refine h.cachedOr hspot ((hcalled.child hc harea).next fun T ↦ ?_)
  dsimp only
  split
  · rw [synthAll_eq, synthAll_eq]
    refine Mirrors.next ?_ fun _ ↦ .pure rfl
    exact (mirrors_synthRow hrow fun e he _ ↦ (hargs e he).child hc).next fun _ ↦ .pure rfl
  · rename_i hplan
    have hd := (plan_spec ..).1 _ _ hplan
    exact (mirrors_report fun s t ↦ h.report hspot (sayable hd)).next fun _ ↦ .pure rfl
  · rename_i hplan
    exact mirrors_throw fun _ ↦ sayable ((plan_spec ..).2 _ hplan)
  · refine (mirrors_synthArgs hc hrow hargs _ _).next fun ts ↦ ?_
    split
    · exact .pure rfl
    · exact mirrors_throw fun _ ↦ sayable rfl
    · exact mirrors_throw fun _ ↦ sayable rfl

theorem InStep.letIn (h : InStep w w' area V R C) {body : Expr}
    (hvalues : ∀ b ∈ bindings, Twin w w' area R C b.2) (hbody : Twin w w' area R C body) :
    Twin w w' area R C (.letIn bindings body) := by
  intro c c' spot expected hc hspot
  obtain ⟨hrow, harea⟩ := row_bindings (h.children hspot)
  have hslots := h.slotted hspot
  rw [synth, synth, h.types hc]
  refine h.cachedOr hspot ((h.synthLetValues hc hrow hvalues hslots c.types).bind ?_)
  rintro _ Δ ⟨rfl, -, hbound⟩
  exact h.body (h.fixed Δ) hrow hslots hbound hbody harea

theorem InStep.letrec (h : InStep w w' area V R C) {body : Expr}
    (hvalues : ∀ b ∈ bindings, Twin w w' area R C b.2) (hbody : Twin w w' area R C body) :
    Twin w w' area R C (.letrec bindings body) := by
  intro c c' spot expected hc hspot
  obtain ⟨hrow, harea⟩ := row_bindings (h.children hspot)
  have hslots : ∀ b ∈ bindings, b.1.identifier?.isSome := h.slotted hspot
  have hlen : (List.replicate bindings.length untyped).length = (bindings.map (·.1)).length := by
    simp
  have hbound := boundIn_bindSlots c.types (length_paramTypes hlen) (List.forall_mem_map.2 hslots)
  rw [synth, synth, h.types hc, bindRecursive_eq _ hslots, pure_bind, pure_bind]
  generalize bindSlots c.types _ _ = Δ at hbound ⊢
  -- Both sides open a group of their own, under the number that their state has for it.
  refine h.cachedOr hspot (Mirrors.bind (S := fun a b ↦ ∃ g g', a = ⟨Δ, some g⟩ ∧ b = ⟨Δ, some g'⟩ ∧
    C ⟨Δ, some g⟩ ⟨Δ, some g'⟩) ?_ ?_)
  · exact fun s t hst ↦ ⟨⟨s.groups, t.groups, rfl, rfl, (h.newGroup Δ hst).2⟩, (h.newGroup Δ hst).1⟩
  · rintro _ _ ⟨g, g', rfl, rfl, hgroup⟩
    refine (h.synthRecursiveValues hgroup hrow hvalues hslots).bind fun c c' hinner ↦ ?_
    exact h.body hinner.1 hrow hslots
      (fun b hb ↦ (hbound _ (List.mem_map_of_mem hb)).mono hinner.2) hbody
      harea

theorem InStep.define (h : InStep w w' area V R C) {name value : Expr}
    (hvalue : Twin w w' area R C value) : Twin w w' area R C (.define name value) := by
  intro c c' spot expected hc hspot
  have hname : name.identifier?.isSome := h.slotted hspot
  obtain ⟨hslot, harea, -⟩ := h.children hspot
  rw [synth, synth]
  refine h.cachedOr hspot ?_
  cases name with
  | hole =>
    refine (hvalue.child hc harea).next fun _ ↦ ?_
    exact (h.slot hc hslot rfl (boundIn_hole _)).next fun _ ↦ .pure rfl
  | binding id declared =>
    exact (mirrors_modify fun s t ↦ h.postpone hspot hc).next fun _ ↦ .pure rfl
  | _ => cases hname

theorem InStep.branch (h : InStep w w' area V R C) {p a b : Expr} (hp : Twin w w' area R C p)
    (ha : Twin w w' area R C a) (hb : Twin w w' area R C b) :
    Twin w w' area R C (.branch p a b) := by
  intro c c' spot expected hc hspot
  obtain ⟨hareap, hareaa, hareab, -⟩ := h.children hspot
  rw [synth, synth]
  refine h.cachedOr hspot ((hp.child hc hareap).next fun _ ↦ ?_)
  exact (ha.child hc hareaa).next fun _ ↦ (hb.child hc hareab).next fun _ ↦ .pure rfl

/-- **Checks mirror each other** in surroundings that are `InStep`. -/
theorem InStep.synth (h : InStep w w' area V R C) {e : Expr} (he : AsksOnly V e) :
    Twin w w' area R C e := by
  induction e with
  | number | bool | string | null | hole =>
    intro c c' spot expected hc hspot
    rw [Check.synth, Check.synth]
    exact h.cachedOr hspot (.pure rfl)
  | list es ih => exact h.list fun e hmem ↦ ih e hmem (he.operand hmem)
  | binding name declared =>
    intro c c' spot expected hc hspot
    rw [Check.synth, Check.synth]
    exact h.cachedOr hspot (h.name hc rfl (.inl (he name .binding)))
  | var name =>
    intro c c' spot expected hc hspot
    rw [Check.synth, Check.synth]
    exact h.cachedOr hspot (h.name hc rfl (.inl (he name .var)))
  | call called args ihcalled ih =>
    exact h.call (ihcalled (he.operand List.mem_cons_self)) fun e hmem ↦
      ih e hmem (he.operand (List.mem_cons_of_mem _ hmem))
  | define name value _ ih => exact h.define (ih (he.operand List.mem_cons_self))
  | letIn bindings body ih ihbody =>
    exact h.letIn
      (fun b hb ↦ (ih b hb).2 (he.operand (List.mem_append_left _ (List.mem_map_of_mem hb))))
      (ihbody (he.operand (List.mem_append_right _ List.mem_cons_self)))
  | letrec bindings body ih ihbody =>
    exact h.letrec
      (fun b hb ↦ (ih b hb).2 (he.operand (List.mem_append_left _ (List.mem_map_of_mem hb))))
      (ihbody (he.operand (List.mem_append_right _ List.mem_cons_self)))
  | lambda params body _ ihbody => exact h.lambda (ihbody (he.operand List.mem_cons_self))
  | sequence es ih =>
    intro c c' spot expected hc hspot
    rw [Check.synth, Check.synth, synthSequence_eq, synthSequence_eq]
    exact h.cachedOr hspot ((mirrors_synthRow (h.children hspot) fun e hmem _ ↦
      (ih e hmem (he.operand hmem)).child hc).next fun _ ↦ .pure rfl)
  | branch p a b ihp iha ihb =>
    exact h.branch (ihp (he.operand (by simp [Expr.operands])))
      (iha (he.operand (by simp [Expr.operands]))) (ihb (he.operand (by simp [Expr.operands])))
  | cond cases ih =>
    intro c c' spot expected hc hspot
    have hcases : ∀ b ∈ cases, AsksOnly V b.1 ∧ AsksOnly V b.2 :=
      Expr.forall_mem_pairs.1 fun q hq ↦ he.operand hq
    rw [Check.synth, Check.synth]
    exact h.cachedOr hspot (mirrors_joinCases hc (h.children hspot)
      (fun b hb ↦ (ih b hb).imp (· (hcases b hb).1) (· (hcases b hb).2)) never)

/-- The rest of `compute` after the type of the value is found. -/
def conclude (w : Surroundings) (d : Pending) (name value : Expr) (found : Ty) : Check Ty := do
  let spot : Spot := ⟨d.place, d.node.place.isSome⟩
  if let some declared := d.declared then demand (spot.child 1) value found declared
  let type := d.declared.getD found
  let context ←
    if name.isHole then pure d.context
    else do pure (.fixed (d.context.types.insert (← identifier name) type))
  let _ ← synth w context (spot.child 0) none name
  return type

theorem compute_eq (w : Surroundings) {d : Pending} {name value : Expr}
    (h : d.node.expr = .define name value) :
    compute w d = synth w d.context ⟨d.place.child 1, d.node.place.isSome⟩ d.declared value >>=
      conclude w d name value := by
  rw [compute, h]
  rfl

/-- `conclude` mirrors itself: the slot is checked in a context that has its name. -/
theorem InStep.conclude (h : InStep w w' area V R C) {d : Pending} (hc : C d.context d.context)
    {name value : Expr} (hname : name.identifier?.isSome) (hrow : Row area d.place 0 [name, value])
    (found : Ty) :
    Mirrors Never R Eq (conclude w d name value found) (conclude w' d name value found) := by
  obtain ⟨hslot, harea, -⟩ := hrow
  have hrest (T : Ty) : Mirrors Never R Eq
      (do
        let context ←
          if name.isHole then pure d.context
          else do pure (.fixed (d.context.types.insert (← identifier name) T))
        let _ ← Check.synth w context ⟨d.place.child 0, d.node.place.isSome⟩ none name
        return T)
      (do
        let context ←
          if name.isHole then pure d.context
          else do pure (.fixed (d.context.types.insert (← identifier name) T))
        let _ ← Check.synth w' context ⟨d.place.child 0, d.node.place.isSome⟩ none name
        return T) := by
    cases name with
    | hole => exact (h.slot hc hslot rfl (boundIn_hole _)).next fun _ ↦ .pure rfl
    | binding id declared =>
      exact (h.slot (h.fixed _) hslot rfl (boundIn_insert_self rfl T)).next fun _ ↦ .pure rfl
    | _ => cases hname
  rw [Check.conclude, Check.conclude]
  cases d.declared with
  | none => exact hrest found
  | some T => exact (h.demand harea found T).next fun _ ↦ hrest T

/-- `compute` mirrors itself. -/
theorem InStep.compute (h : InStep w w' area V R C) {d : Pending} (hc : C d.context d.context)
    (hd : ∀ name value, d.node.expr = .define name value → name.identifier?.isSome ∧
      AsksOnly V value ∧
      Row area d.place 0 [name, value]) :
    Mirrors Never R Eq (compute w d) (compute w' d) := by
  cases hexpr : d.node.expr with
  | define name value =>
    obtain ⟨hname, hvalue, hrow⟩ := hd name value hexpr
    rw [compute_eq w hexpr, compute_eq w' hexpr]
    exact (h.synth hvalue _ _ _ _ hc hrow.2.1).next fun found ↦ h.conclude hc hname hrow found
  | _ =>
    rw [Check.compute, Check.compute, hexpr]
    exact .pure rfl

end

end Check

end SchemeTyping
