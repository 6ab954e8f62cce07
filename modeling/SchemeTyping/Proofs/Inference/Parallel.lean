import Mathlib.Data.Option.Basic
import Mathlib.Order.Basic
import SchemeTyping.Proofs.Expr.Renaming
import SchemeTyping.Proofs.Inference.Finished
import SchemeTyping.Proofs.Ty.Relabel

/-!
# Two inferences in parallel

Two expressions that differ in the names they bind lead to two runs of the rules that do the same
steps on different unknowns.  `Matches` says of two steps that both return, with related results and
states, or both fail for the same kind of reason.  The relations grow as unknowns are made, so they
depend on a *world*, and steps lead to a later world.

## What is here

* `Comparison` — a way to relate two runs.
* `Comparison.Parallel` — what the rules need of it: that the steps on unknowns match, and that
  generalisation does.
* `Anchored` — generalisation looks at the whole environment and not only at the names that an
  expression uses.  Two environments that agree on the names in scope may differ in others.  This
  does not matter for a type if those of its unknowns that occur in the environment occur in the
  type of a name in scope.
-/

set_option autoImplicit false

namespace SchemeTyping

/-- Two failures of the same kind. -/
def Failure.SameKind (f g : Failure) : Prop := f.ctorIdx = g.ctorIdx

namespace Infer

open Ty

/-! ## Steps that match -/

section steps

variable {ω σ α β α' β' : Type} [Preorder ω] {R : ω → σ → σ → Prop} {S : ω → α → β → Prop}
  {S' : ω → α' → β' → Prop} {w : ω} {x : ExceptT Failure (StateM σ) α}
  {y : ExceptT Failure (StateM σ) β}
  {s t : σ}

/-- In a later world, both steps return related results and leave related states, or both fail with
failures of the same kind. -/
def Matches (R : ω → σ → σ → Prop) (S : ω → α → β → Prop) (w : ω) (x : ExceptT Failure (StateM σ) α)
    (y : ExceptT Failure (StateM σ) β) (s t : σ) : Prop :=
  match x.run s, y.run t with
  | (.ok a, s'), (.ok b, t') => ∃ w', w ≤ w' ∧ R w' s' t' ∧ S w' a b
  | (.error f, _), (.error g, _) => f.SameKind g
  | _, _ => False

theorem matches_pure {a : α} {b : β} (hR : R w s t) (h : S w a b) :
    Matches R S w (pure a) (pure b) s t :=
  ⟨w, le_rfl, hR, h⟩

theorem matches_throw {f g : Failure} (h : f.SameKind g) :
    Matches R S w (throw f) (throw g) s t := h

theorem run_fail (f : Failure) (s : InferenceState) :
    ∃ s', (fail f : Infer α).run s = (.error f, s') := by
  rw [fail]
  cases f.diagnostic? with
  | none => exact ⟨s, rfl⟩
  | some d => exact ⟨_, rfl⟩

theorem matches_fail {R : ω → InferenceState → InferenceState → Prop} {s t : InferenceState}
    {f g : Failure} (h : f.SameKind g) :
    Matches R S w (fail f : Infer α) (fail g : Infer β) s t := by
  obtain ⟨s', hs'⟩ := run_fail (α := α) f s
  obtain ⟨t', ht'⟩ := run_fail (α := β) g t
  rw [Matches, hs', ht']
  exact h

/-- Steps that follow matching ones may match in other worlds. -/
theorem Matches.andThen {υ : Type} [Preorder υ] {R' : υ → σ → σ → Prop}
    {S' : υ → α' → β' → Prop} {v : υ} {f : α → ExceptT Failure (StateM σ) α'}
    {g : β → ExceptT Failure (StateM σ) β'} (hxy : Matches R S w x y s t)
    (hfg : ∀ w' s' t' a b, w ≤ w' → R w' s' t' → S w' a b → Matches R' S' v (f a) (g b) s' t') :
    Matches R' S' v (x >>= f) (y >>= g) s t := by
  rw [Matches] at hxy ⊢
  rw [run_bind, run_bind]
  revert hxy
  rcases x.run s with ⟨e | a, s'⟩ <;> rcases y.run t with ⟨e' | b, t'⟩
  · exact id
  · exact False.elim
  · exact False.elim
  · rintro ⟨w', hle, hR, hS⟩
    exact hfg w' s' t' a b hle hR hS

theorem Matches.of_le {w' : ω} (h : Matches R S w' x y s t) (hle : w ≤ w') :
    Matches R S w x y s t := by
  rw [Matches] at h ⊢
  revert h
  rcases x.run s with ⟨e | a, s'⟩ <;> rcases y.run t with ⟨e' | b, t'⟩
  · exact id
  · exact id
  · exact id
  · exact fun ⟨w'', hle', h⟩ ↦ ⟨w'', hle.trans hle', h⟩

theorem Matches.bind {f : α → ExceptT Failure (StateM σ) α'} {g : β → ExceptT Failure (StateM σ) β'}
    (hxy : Matches R S w x y s t)
    (hfg : ∀ w' s' t' a b, w ≤ w' → R w' s' t' → S w' a b → Matches R S' w' (f a) (g b) s' t') :
    Matches R S' w (x >>= f) (y >>= g) s t :=
  hxy.andThen fun w' s' t' a b hle hR hS ↦ (hfg w' s' t' a b hle hR hS).of_le hle

/-- Matching steps also match by relations that follow from what the two runs ensure. -/
theorem Matches.transfer {υ : Type} [Preorder υ] {R' : υ → σ → σ → Prop}
    {S' : υ → α → β → Prop} {v : υ} {Q : α → σ → Prop} {Q' : β → σ → Prop}
    {E E' : Failure → σ → Prop} (h : Matches R S w x y s t) (hx : Ensures x s Q E)
    (hy : Ensures y t Q' E')
    (hS : ∀ w' s' t' a b, w ≤ w' → R w' s' t' → S w' a b → Q a s' → Q' b t' →
      ∃ v', v ≤ v' ∧ R' v' s' t' ∧ S' v' a b) : Matches R' S' v x y s t := by
  rw [Matches] at h ⊢
  rw [Ensures] at hx hy
  revert h hx hy
  rcases x.run s with ⟨e | a, s'⟩ <;> rcases y.run t with ⟨e' | b, t'⟩
  · exact fun h _ _ ↦ h
  · exact fun h _ _ ↦ h
  · exact fun h _ _ ↦ h
  · rintro ⟨w', hle, hR, hab⟩ ha hb
    exact hS w' s' t' a b hle hR hab ha hb

theorem Matches.and {S' : ω → α → β → Prop} {Q : α → σ → Prop} {Q' : β → σ → Prop}
    {E E' : Failure → σ → Prop}
    (h : Matches R S w x y s t) (hx : Ensures x s Q E) (hy : Ensures y t Q' E')
    (hS : ∀ w' s' t' a b, R w' s' t' → S w' a b → Q a s' → Q' b t' → S' w' a b) :
    Matches R S' w x y s t :=
  h.transfer hx hy fun w' s' t' a b hle hR hab ha hb ↦ ⟨w', hle, hR, hS w' s' t' a b hR hab ha hb⟩

theorem Matches.mono {S' : ω → α → β → Prop} (h : Matches R S w x y s t)
    (hS : ∀ w' a b, S w' a b → S' w' a b) : Matches R S' w x y s t := by
  rw [Matches] at h ⊢
  revert h
  rcases x.run s with ⟨e | a, s'⟩ <;> rcases y.run t with ⟨e' | b, t'⟩
  · exact id
  · exact id
  · exact id
  · exact fun ⟨w', hle, hR, hab⟩ ↦ ⟨w', hle, hR, hS w' a b hab⟩

theorem matches_ite {c c' : Prop} [Decidable c] [Decidable c']
    {x' : ExceptT Failure (StateM σ) α} {y' : ExceptT Failure (StateM σ) β}
    (hc : c ↔ c') (hx : c → Matches R S w x y s t) (hy : ¬ c → Matches R S w x' y' s t) :
    Matches R S w (if c then x else x') (if c' then y else y') s t := by
  by_cases h : c
  · rw [if_pos h, if_pos (hc.1 h)]
    exact hx h
  · rw [if_neg h, if_neg fun h' ↦ h (hc.2 h')]
    exact hy h

/-- Steps that do not fail match by what they ensure. -/
theorem matches_of_ensures {Q : α → σ → Prop} {Q' : β → σ → Prop}
    (hx : Ensures x s Q fun _ _ ↦ False) (hy : Ensures y t Q' fun _ _ ↦ False)
    (h : ∀ a s' b t', Q a s' → Q' b t' → ∃ w', w ≤ w' ∧ R w' s' t' ∧ S w' a b) :
    Matches R S w x y s t := by
  rw [Ensures] at hx hy
  rw [Matches]
  revert hx hy
  rcases x.run s with ⟨e | a, s'⟩ <;> rcases y.run t with ⟨e' | b, t'⟩
  · exact fun h _ ↦ h.elim
  · exact fun h _ ↦ h.elim
  · exact fun _ h ↦ h.elim
  · exact fun ha hb ↦ h a s' b t' ha hb

/-- What a step that matches itself ensures. -/
theorem Matches.ensures {S : ω → α → α → Prop} (h : Matches R S w x x s s) :
    Ensures x s (fun a s' ↦ ∃ w', w ≤ w' ∧ R w' s' s' ∧ S w' a a) (fun _ _ ↦ True) := by
  rw [Matches] at h
  rw [Ensures]
  revert h
  rcases x.run s with ⟨e | a, s'⟩
  · exact fun _ ↦ trivial
  · exact id

end steps

/-! ## Comparisons -/

/-- A way to relate two runs of an inference. -/
structure Comparison (ω : Type) where
  left : ω → Store
  right : ω → Store
  states : ω → InferenceState → InferenceState → Prop
  /-- The relation between live types. -/
  types : ω → Ty → Ty → Prop
  /-- The relation between types in environments. -/
  entries : ω → Ty → Ty → Prop
  /-- The weaker relation that types in environments satisfy also for names out of scope. -/
  partners : ω → Ty → Ty → Prop

/-- Unknowns have numbers that were given out, each once. -/
structure Numbered (s : InferenceState) : Prop where
  given : ∀ k, s.store.contains k = true → ∃ stem n, n ≤ s.counter ∧ k = stem ++ "#" ++ toString n
  nodup : s.store.index.keys.Nodup

/-- Two types with the same constructor and related parameters. -/
inductive Alike (r : Ty → Ty → Prop) : Ty → Ty → Prop
  | unknown (x y : String) : Alike r (.unknown x) (.unknown y)
  | con (tag : String) {ps qs : List Ty} (h : List.Forall₂ r ps qs) :
    Alike r (.con tag ps) (.con tag qs)
  | variadic (min max : Option Int) {ps qs : List Ty} (h : List.Forall₂ r ps qs) :
    Alike r (.variadic min max ps) (.variadic min max qs)

/-- Every type with unknowns is the one that `get?` gives for its name. -/
def Apparent (env : Env) : Prop := env.entries.Pairwise fun e d ↦ d.2.unknowns ≠ [] → d.1 ≠ e.1

/-- The unknowns of `t` that are `openIn` the environment occur in the type of a name with `N`. -/
def Anchored (N : String → Prop) (env : Env) (store : Store) (t : Ty) : Prop :=
  ∀ u ∈ (store.apply t).unknowns, u ∈ openIn store env →
    ∃ z S, N z ∧ env.get? z = some S ∧ u ∈ (store.apply S).unknowns

namespace Comparison

variable {ω : Type}

/-- The names of a scope have related types.  If `keep`, then a type with unknowns on one side has a
partner on the other, and both are of local names. -/
structure Looks (C : Comparison ω) (keep : Prop) (w : ω) (Γ : Scope)
    (f g : String → Option Ty) : Prop where
  names : ∀ x y, Γ.names x y → Option.Rel (C.entries w) (f x) (g y)
  left : keep → ∀ x S, f x = some S → S.unknowns ≠ [] →
    ∃ y S', Γ.locals x y ∧ g y = some S' ∧ C.partners w S S'
  right : keep → ∀ y S', g y = some S' → S'.unknowns ≠ [] →
    ∃ x S, Γ.locals x y ∧ f x = some S ∧ C.partners w S S'

/-- The environments agree on the names of the scope. -/
structure Environments (C : Comparison ω) (D keep : Prop) (w : ω) (Γ : Scope)
    (env env' : Env) : Prop where
  looks : C.Looks keep w Γ env.get? env'.get?
  known_left : KnownEnv D (C.left w) env
  known_right : KnownEnv D (C.right w) env'
  apparent_left : Apparent env
  apparent_right : Apparent env'

/-- A comparison under which the steps of an inference match.  If `P`, generalisation needs that
types are `Anchored`. -/
structure Parallel [Preorder ω] (C : Comparison ω) (D keep P : Prop) : Prop where
  orderly : ∀ {w s t}, C.states w s t → (Orderly D s ∧ Numbered s) ∧ Orderly D t ∧ Numbered t
  stores : ∀ {w s t}, C.states w s t → s.store = C.left w ∧ t.store = C.right w
  keeps_left : ∀ {w w'}, w ≤ w' → ∀ id, (C.left w).contains id = true →
    (C.left w').contains id = true
  keeps_right : ∀ {w w'}, w ≤ w' → ∀ id, (C.right w).contains id = true →
    (C.right w').contains id = true
  types_mono : ∀ {w w' a b}, w ≤ w' → C.types w a b → C.types w' a b
  entries_mono : ∀ {w w' a b}, w ≤ w' → C.entries w a b → C.entries w' a b
  partners_mono : ∀ {w w' a b}, w ≤ w' → C.partners w a b → C.partners w' a b
  entry : ∀ {w a b}, C.types w a b → C.entries w a b
  partner : ∀ {w a b}, C.entries w a b → C.partners w a b
  known : ∀ {w a b}, C.entries w a b → Known D (C.left w) a ∧ Known D (C.right w) b
  alike : ∀ {w a b}, C.types w a b → Alike (C.types w) a b
  con : ∀ {w tag ps qs}, (D → (Node.con tag ps.length).Definite) → List.Forall₂ (C.types w) ps qs →
    C.types w (.con tag ps) (.con tag qs)
  variadic : ∀ {w min max ps qs}, (D → 0 < ps.length) → List.Forall₂ (C.types w) ps qs →
    C.types w (.variadic min max ps) (.variadic min max qs)
  /-- Related types in environments differ in the names of their variables and in their unknowns. -/
  scheme : ∀ {w a b}, C.entries w a b → ∃ V ρ : String → String, V.Injective ∧ b = a.relabel V ρ ∧
    ∀ k ∈ a.unknowns, C.types w (.unknown k) (.unknown (ρ k))
  declared : ∀ {w a}, a.unknowns = [] → Known D (C.left w) a → C.entries w a a
  newUnknown : ∀ {w s t} (stem stem' : String), C.states w s t →
    Matches C.states C.types w (newUnknown stem) (newUnknown stem') s t
  unify : ∀ {w s t a b a' b'} (e₁ e₂ e₁' e₂' : Option Mention), C.states w s t → C.types w a a' →
    C.types w b b' → Matches C.states C.types w (unify a b e₁ e₂) (unify a' b' e₁' e₂') s t
  applied : ∀ {w s t a b}, C.states w s t → C.types w a b →
    Matches C.states C.types w (applied a) (applied b) s t
  record : ∀ {w s t a b} (site site' : Site), C.states w s t → C.types w a b →
    C.states w { s with types := s.types.insert site.key a }
      { t with types := t.types.insert site'.key b }
  generalize : ∀ {w s t Γ env env' a b}, C.states w s t → C.Environments D keep w Γ env env' →
    C.types w a b → (P → Anchored (fun x ↦ ∃ y, Γ.names x y) env (C.left w) a ∧
      Anchored (fun y ↦ ∃ x, Γ.names x y) env' (C.right w) b) →
    Matches C.states (fun w' r r' ↦ w' = w ∧ C.entries w r.1 r'.1) w (generalize env a)
      (generalize env' b) s t

end Comparison

/-! ## Related types -/

section types

variable {ω : Type} [Preorder ω] {C : Comparison ω} {D keep P : Prop} {w w' : ω} {a b : Ty}
  {ps qs : List Ty} {tag : String} {α β : Type} {r : α → β → Prop}

theorem forall₂_getElem? {as : List α} {bs : List β} (h : List.Forall₂ r as bs) (i : Nat) :
    Option.Rel r as[i]? bs[i]? := by
  induction h generalizing i with
  | nil => exact .none
  | cons h _ ih =>
    cases i with
    | zero => exact .some h
    | succ i => exact ih i

theorem forall₂_getLast? {as : List α} {bs : List β} (h : List.Forall₂ r as bs) :
    Option.Rel r as.getLast? bs.getLast? := by
  rw [List.getLast?_eq_getElem?, List.getLast?_eq_getElem?, h.length_eq]
  exact forall₂_getElem? h _

theorem rel_getD {x : Option α} {y : Option β} {a : α} {b : β} (h : Option.Rel r x y)
    (hab : r a b) : r (x.getD a) (y.getD b) := by
  cases h with
  | some h => exact h
  | none => exact hab

theorem rel_imp {r' : α → β → Prop} {x : Option α} {y : Option β} (h : Option.Rel r x y)
    (himp : ∀ a b, r a b → r' a b) : Option.Rel r' x y := by
  cases h with
  | some h => exact .some (himp _ _ h)
  | none => exact .none

theorem exists_of_rel_left {x : Option α} {y : Option β} {a : α} (h : Option.Rel r x y)
    (hx : x = some a) : ∃ b, y = some b ∧ r a b := by
  subst hx
  cases h with
  | some h => exact ⟨_, rfl, h⟩

theorem exists_of_rel_right {x : Option α} {y : Option β} {b : β} (h : Option.Rel r x y)
    (hy : y = some b) : ∃ a, x = some a ∧ r a b := by
  subst hy
  cases h with
  | some h => exact ⟨_, rfl, h⟩

/-- `List.Forall₂` is monotone in the relation, on members. -/
theorem forall₂_imp_mem {r' : α → β → Prop} {as : List α} {bs : List β} (h : List.Forall₂ r as bs)
    (himp : ∀ a ∈ as, ∀ b ∈ bs, r a b → r' a b) : List.Forall₂ r' as bs := by
  induction h with
  | nil => exact .nil
  | cons h _ ih =>
    exact .cons (himp _ List.mem_cons_self _ List.mem_cons_self h)
      (ih fun a ha b hb ↦ himp a (List.mem_cons_of_mem _ ha) b (List.mem_cons_of_mem _ hb))

theorem Alike.hasTag_eq {r : Ty → Ty → Prop} (h : Alike r a b) (tag : String) :
    b.hasTag tag = a.hasTag tag := by
  cases h <;> rfl

theorem Alike.tag?_eq {r : Ty → Ty → Prop} (h : Alike r a b) : b.tag? = a.tag? := by
  cases h <;> rfl

theorem forall₂_spread {r : Ty → Ty → Prop} (hps : List.Forall₂ r ps qs) (count : Nat) :
    List.Forall₂ r (Ty.spread ps count) (Ty.spread qs count) := by
  have hargs : List.Forall₂ r (arguments ps) (arguments qs) := by
    rw [arguments, arguments, List.dropLast_eq_take, List.dropLast_eq_take, hps.length_eq]
    exact List.forall₂_take _ hps
  rw [Ty.spread, Ty.spread]
  revert hargs
  generalize arguments ps = as, arguments qs = bs
  intro hargs
  cases hargs with
  | nil => exact .nil
  | cons harg hargs =>
    have hargs := List.Forall₂.cons harg hargs
    have hlast := forall₂_getLast? hargs
    rw [List.getLast?_eq_some_getLast (by simp), List.getLast?_eq_some_getLast (by simp)] at hlast
    rw [List.forall₂_map_left_iff, List.forall₂_map_right_iff, List.forall₂_same]
    intro i _
    refine rel_getD (forall₂_getElem? hargs i) ?_
    cases hlast with
    | some hlast => exact hlast

namespace Comparison.Parallel

variable (h : C.Parallel D keep P)

include h

theorem atom (htag : tag ≠ "Any" ∧ tag ≠ "?" ∧ tag ≠ "Function") :
    C.types w (.con tag []) (.con tag []) :=
  h.con (fun _ ↦ ⟨htag.1, htag.2.1, fun h ↦ absurd h htag.2.2⟩) .nil

theorem list (hab : C.types w a b) : C.types w (Ty.list a) (Ty.list b) :=
  h.con (fun _ ↦ by simp [Node.Definite]) (.cons hab .nil)

theorem procedure (hab : C.types w a b) : C.types w (Ty.procedure a) (Ty.procedure b) :=
  h.con (fun _ ↦ by simp [Node.Definite]) (.cons hab .nil)

theorem function {a' b' : Ty} (hab : C.types w a b) (hab' : C.types w a' b') :
    C.types w (Ty.function [a, a']) (Ty.function [b, b']) :=
  h.con (fun _ ↦ by simp [Node.Definite]) (.cons hab (.cons hab' .nil))

theorem chain {as bs : List Ty} (hargs : List.Forall₂ (C.types w) as bs) (hab : C.types w a b) :
    C.types w (Ty.chain as a) (Ty.chain bs b) := by
  induction hargs with
  | nil => exact hab
  | cons harg _ ih => exact h.function harg ih

/-- `any` is related to itself, if types need not be definite. -/
theorem any (hD : ¬ D) : C.types w Ty.any Ty.any := h.con (fun h ↦ absurd h hD) .nil

theorem result (hps : List.Forall₂ (C.types w) ps qs) (hne : D → 0 < ps.length) :
    C.types w (Ty.result ps) (Ty.result qs) := by
  rw [Ty.result, Ty.result, List.getLastD_eq_getLast?, List.getLastD_eq_getLast?]
  cases hps with
  | nil => exact h.any fun hD ↦ absurd (hne hD) (by simp)
  | cons hp hps =>
    have hlast := forall₂_getLast? (List.Forall₂.cons hp hps)
    rw [List.getLast?_eq_some_getLast (by simp), List.getLast?_eq_some_getLast (by simp)] at hlast ⊢
    cases hlast with
    | some hlast => exact hlast

theorem types_mono_row (hw : w ≤ w') (hps : List.Forall₂ (C.types w) ps qs) :
    List.Forall₂ (C.types w') ps qs :=
  hps.imp fun _ _ ↦ h.types_mono hw

theorem definite (hab : C.types w (.con tag ps) b) (hD : D) : (Node.con tag ps.length).Definite :=
  (held_con.1 (h.known (h.entry hab)).1).1 hD

theorem curried (hn : D → (Node.con tag ps.length).Definite)
    (hps : List.Forall₂ (C.types w) ps qs) :
    C.types w (Ty.con tag ps).curried (Ty.con tag qs).curried := by
  rw [Ty.curried, Ty.curried]
  split
  · rename_i htag
    have hargs : List.Forall₂ (C.types w) (arguments ps) (arguments qs) := by
      rw [arguments, arguments, List.dropLast_eq_take, List.dropLast_eq_take, hps.length_eq]
      exact List.forall₂_take _ hps
    have hresult := h.result hps fun hD ↦ (hn hD).2.2 htag
    revert hargs
    generalize arguments ps = as, arguments qs = bs
    rintro (_ | ⟨harg, _ | ⟨harg', hargs⟩⟩)
    · exact h.procedure hresult
    · exact h.con hn hps
    · exact h.chain (.cons harg (.cons harg' hargs)) hresult
  · exact h.con hn hps

end Comparison.Parallel

end types

/-! ## Instantiation -/

section instantiation

variable {ω : Type} [Preorder ω] {C : Comparison ω} {D keep P : Prop} {V ρ : String → String}

/-- The instances chosen for the variables and for their other names are related. -/
def Comparison.Instances (C : Comparison ω) (V : String → String) (w : ω) (i i' : Env) : Prop :=
  ∀ x, Option.Rel (C.types w) (i.get? x) (i'.get? (V x))

theorem Comparison.Parallel.instances_mono (h : C.Parallel D keep P) {w w' : ω} {i i' : Env}
    (hw : w ≤ w') (hi : C.Instances V w i i') : C.Instances V w' i i' :=
  fun x ↦ rel_imp (hi x) fun _ _ ↦ h.types_mono hw

omit [Preorder ω] in
theorem Comparison.Instances.insert {w : ω} {i i' : Env} (hi : C.Instances V w i i')
    (hV : V.Injective) (name : String) {a b : Ty} (hab : C.types w a b) :
    C.Instances V w (i.insert name a) (i'.insert (V name) b) := by
  intro x
  rw [OrdMap.get?_insert, OrdMap.get?_insert]
  by_cases hx : name = x
  · rw [if_pos hx, if_pos (congrArg V hx)]
    exact .some hab
  · rw [if_neg hx, if_neg fun h ↦ hx (hV h)]
    exact hi x

/-- Instantiation of `a` and of `a.relabel V ρ` matches. -/
def InstancesMatch (C : Comparison ω) (D : Prop) (V ρ : String → String) (a : Ty) : Prop :=
  ∀ {w : ω} {s t : InferenceState} {i i' : Env}, C.states w s t → C.Instances V w i i' →
    a.Built (fun n ↦ D → n.Definite) → (∀ k ∈ a.unknowns, C.types w (.unknown k) (.unknown (ρ k))) →
    Matches C.states (fun w r r' ↦ C.types w r.1 r'.1 ∧ C.Instances V w r.2 r'.2) w
      (instantiateWith i a)
      (instantiateWith i' (a.relabel V ρ)) s t

theorem matches_instantiateList (h : C.Parallel D keep P) {ps : List Ty} {w : ω}
    {s t : InferenceState} {i i' : Env} (ih : ∀ p ∈ ps, InstancesMatch C D V ρ p)
    (hst : C.states w s t) (hi : C.Instances V w i i')
    (hps : ∀ p ∈ ps, p.Built fun n ↦ D → n.Definite)
    (hunknown : ∀ k ∈ ps.flatMap unknowns, C.types w (.unknown k) (.unknown (ρ k))) :
    Matches C.states (fun w r r' ↦ (r.1.length = ps.length ∧ List.Forall₂ (C.types w) r.1 r'.1) ∧
      C.Instances V w r.2 r'.2) w (instantiateList i ps) (instantiateList i' (ps.map (relabel V ρ)))
        s t := by
  induction ps generalizing w s t i i' with
  | nil => exact matches_pure hst ⟨⟨rfl, .nil⟩, hi⟩
  | cons p ps ih' =>
    rw [List.forall_mem_cons] at ih hps
    rw [List.flatMap_cons, List.forall_mem_append] at hunknown
    rw [instantiateList, List.map_cons, instantiateList]
    refine (ih.1 hst hi hps.1 hunknown.1).bind fun w₁ s₁ t₁ r r' hw₁ hst₁ h₁ ↦ ?_
    obtain ⟨hr, hi₁⟩ := h₁
    refine (ih' ih.2 hst₁ hi₁ hps.2 fun k hk ↦ h.types_mono hw₁ (hunknown.2 k hk)).bind
      fun w₂ s₂ t₂ rs rs' hw₂ hst₂ h₂ ↦ ?_
    obtain ⟨⟨hlen, hrs⟩, hi₂⟩ := h₂
    exact matches_pure hst₂ ⟨⟨congrArg Nat.succ hlen, .cons (h.types_mono hw₂ hr) hrs⟩, hi₂⟩

theorem instancesMatch (h : C.Parallel D keep P) (hV : V.Injective) (ρ : String → String) (a : Ty) :
    InstancesMatch C D V ρ a := by
  induction a with
  | unknown k => exact fun hst hi _ hunknown ↦ matches_pure hst ⟨hunknown k (by simp), hi⟩
  | var name =>
    intro w s t i i' hst hi _ _
    rw [relabel, instantiateWith, instantiateWith]
    have hname := hi name
    revert hname
    generalize i.get? name = S, i'.get? (V name) = S'
    rintro (hS | -)
    · exact matches_pure hst ⟨hS, hi⟩
    · exact (h.newUnknown _ _ hst).bind fun w₁ s₁ t₁ a b hw₁ hst₁ hab ↦
        matches_pure hst₁ ⟨hab, (h.instances_mono hw₁ hi).insert hV name hab⟩
  | all bound body ih => exact fun hst hi ha hunknown ↦ ih hst hi (built_all.1 ha).2 hunknown
  | con tag ps ih =>
    intro w s t i i' hst hi ha hunknown
    obtain ⟨hn, hps⟩ := built_con.1 ha
    rw [unknowns_con] at hunknown
    rw [relabel_con, instantiateWith, instantiateWith]
    refine (matches_instantiateList h ih hst hi hps hunknown).bind
      fun w₁ s₁ t₁ r r' _ hst₁ h₁ ↦ ?_
    obtain ⟨⟨hlen, hr⟩, hi₁⟩ := h₁
    exact matches_pure hst₁ ⟨h.curried (hlen ▸ hn) hr, hi₁⟩
  | variadic min max ps ih =>
    intro w s t i i' hst hi ha hunknown
    obtain ⟨hn, hps⟩ := built_variadic.1 ha
    rw [unknowns_variadic] at hunknown
    rw [relabel_variadic, instantiateWith, instantiateWith]
    refine (matches_instantiateList h ih hst hi hps hunknown).bind
      fun w₁ s₁ t₁ r r' _ hst₁ h₁ ↦ ?_
    obtain ⟨⟨hlen, hr⟩, hi₁⟩ := h₁
    exact matches_pure hst₁ ⟨h.variadic (hlen ▸ hn) hr, hi₁⟩

theorem matches_instantiate (h : C.Parallel D keep P) {w : ω} {s t : InferenceState} {a b : Ty}
    (hst : C.states w s t) (hab : C.entries w a b) :
    Matches C.states C.types w (instantiate a) (instantiate b) s t := by
  have hbuilt := (h.known hab).1.built
  obtain ⟨V, ρ, hV, rfl, hunknown⟩ := h.scheme hab
  have hempty : C.Instances V w ∅ ∅ := fun _ ↦ .none
  rw [instantiate, instantiate]
  exact (instancesMatch h hV ρ a hst hempty hbuilt hunknown).bind
    fun _ _ _ _ _ _ hst₁ hr ↦ matches_pure hst₁ hr.1

end instantiation

/-! ## Related environments -/

section environments

variable {ω : Type} [Preorder ω] {C : Comparison ω} {D keep P : Prop} {w w' : ω} {Γ : Scope}
  {f g : String → Option Ty} {env env' : Env} {a b : String} {t t' : Ty}

theorem Apparent.insert (henv : Apparent env) (a : String) (t : Ty) :
    Apparent (env.insert a t) := by
  obtain ⟨es⟩ := env
  rw [Apparent] at henv
  rw [Apparent, OrdMap.insert]
  dsimp only at henv ⊢
  induction es with
  | nil => exact List.pairwise_singleton ..
  | cons e es ih =>
    rw [List.pairwise_cons] at henv
    rw [OrdMap.put]
    split
    · rename_i ha
      exact List.pairwise_cons.2 ⟨fun d hd hne ↦ ha ▸ henv.1 d hd hne, henv.2⟩
    · rename_i ha
      refine List.pairwise_cons.2 ⟨fun d hd hne ↦ ?_, ih henv.2⟩
      rcases OrdMap.mem_put hd with rfl | hd
      · exact Ne.symm ha
      · exact henv.1 d hd hne

theorem Apparent.insertAll (henv : Apparent env) (bs : List (String × Ty)) :
    Apparent (env.insertAll bs) := by
  induction bs generalizing env with
  | nil => exact henv
  | cons d bs ih => exact ih (henv.insert d.1 d.2)

theorem apparent_of_unknowns (henv : ∀ S ∈ env.values, S.unknowns = []) : Apparent env :=
  List.Pairwise.imp_of_mem (fun _ hd _ hne ↦ absurd (henv _ (List.mem_map_of_mem hd)) hne)
    (List.pairwise_of_forall fun _ _ ↦ trivial)

/-- A type with unknowns is that of a name. -/
theorem Apparent.exists_get? (henv : Apparent env) {S : Ty} (hS : S ∈ env.values)
    (hne : S.unknowns ≠ []) : ∃ x, env.get? x = some S := by
  obtain ⟨e, he, rfl⟩ := List.mem_map.1 hS
  clear hS
  refine ⟨e.1, ?_⟩
  obtain ⟨es⟩ := env
  rw [Apparent] at henv
  rw [OrdMap.get?]
  dsimp only at henv he ⊢
  induction es with
  | nil => cases he
  | cons d es ih =>
    rw [List.pairwise_cons] at henv
    rw [OrdMap.lookup]
    rcases List.mem_cons.1 he with rfl | he
    · exact if_pos rfl
    · rw [if_neg (Ne.symm (henv.1 e he hne))]
      exact ih henv.2 he

namespace Comparison

/-- Two lists of bindings for pairs of names, with related types. -/
inductive Bindings (r : Ty → Ty → Prop) :
    List (String × String) → List (String × Ty) → List (String × Ty) → Prop
  | nil : Bindings r [] [] []
  | cons {a b : String} {t t' : Ty} {ps : List (String × String)} {bs bs' : List (String × Ty)}
    (h : r t t') (hs : Bindings r ps bs bs') :
    Bindings r ((a, b) :: ps) ((a, t) :: bs) ((b, t') :: bs')

theorem Bindings.imp {r r' : Ty → Ty → Prop} {ps : List (String × String)}
    {bs bs' : List (String × Ty)} (h : Bindings r ps bs bs') (himp : ∀ t t', r t t' → r' t t') :
    Bindings r' ps bs bs' := by
  induction h with
  | nil => exact .nil
  | cons h _ ih => exact .cons (himp _ _ h) ih

theorem Bindings.forall_mem {r : Ty → Ty → Prop} {p q : Ty → Prop} {ps : List (String × String)}
    {bs bs' : List (String × Ty)} (h : Bindings r ps bs bs') (hr : ∀ t t', r t t' → p t ∧ q t') :
    (∀ b ∈ bs, p b.2) ∧ ∀ b ∈ bs', q b.2 := by
  induction h with
  | nil => exact ⟨nofun, nofun⟩
  | cons h _ ih =>
    exact ⟨List.forall_mem_cons.2 ⟨(hr _ _ h).1, ih.1⟩, List.forall_mem_cons.2 ⟨(hr _ _ h).2, ih.2⟩⟩

/-- `OrdMap.put` at a pair of names that is there, or at a new one. -/
theorem Bindings.put {r : Ty → Ty → Prop} {ps : List (String × String)}
    {bs bs' : List (String × Ty)} (h : Bindings r ps bs bs') (hpair : ∀ p ∈ ps, (p.1 = a ↔ p.2 = b))
    (ht : r t t') :
    (a, b) ∈ ps ∧ Bindings r ps (OrdMap.put a t bs) (OrdMap.put b t' bs') ∨
      Bindings r (ps ++ [(a, b)]) (OrdMap.put a t bs) (OrdMap.put b t' bs') := by
  induction h with
  | nil => exact .inr (.cons ht .nil)
  | @cons x y u u' ps bs bs' hu hs ih =>
    rw [List.forall_mem_cons] at hpair
    rw [OrdMap.put, OrdMap.put]
    by_cases hx : x = a
    · have hy := hpair.1.1 hx
      rw [if_pos hx, if_pos hy]
      dsimp only at hy
      subst hx hy
      exact .inl ⟨List.mem_cons_self, .cons ht hs⟩
    · rw [if_neg hx, if_neg fun hy ↦ hx (hpair.1.2 hy)]
      exact (ih hpair.2).imp (fun h ↦ ⟨List.mem_cons_of_mem _ h.1, .cons hu h.2⟩) (.cons hu)

theorem Bindings.lookup {r : Ty → Ty → Prop} {ps : List (String × String)}
    {bs bs' : List (String × Ty)} (h : Bindings r ps bs bs')
    (hpair : ∀ p ∈ ps, (p.1 = a ↔ p.2 = b)) :
    Option.Rel r (OrdMap.lookup a bs) (OrdMap.lookup b bs') := by
  induction h with
  | nil => exact .none
  | @cons x y u u' ps bs bs' hu hs ih =>
    rw [List.forall_mem_cons] at hpair
    rw [OrdMap.lookup, OrdMap.lookup]
    by_cases hx : x = a
    · rw [if_pos hx, if_pos (hpair.1.1 hx)]
      exact .some hu
    · rw [if_neg hx, if_neg fun hy ↦ hx (hpair.1.2 hy)]
      exact ih hpair.2

theorem Parallel.looks_bind (h : C.Parallel D keep P) (hfg : C.Looks keep w Γ f g)
    (p : String × String) (heven : keep → Γ.Even p) (ht : C.entries w t t') :
    C.Looks keep w (Γ.bind p) (fun x ↦ if p.1 = x then some t else f x)
      (fun y ↦ if p.2 = y then some t' else g y) := by
  refine ⟨?_, fun hkeep x S hx hne ↦ ?_, fun hkeep y S' hy hne ↦ ?_⟩
  · rintro x y (⟨rfl, rfl⟩ | ⟨hx, hy, hxy⟩)
    · rw [if_pos rfl, if_pos rfl]
      exact .some ht
    · rw [if_neg (Ne.symm hx), if_neg (Ne.symm hy)]
      exact hfg.names x y hxy
  · split at hx
    · rename_i hpx
      cases hx
      exact ⟨p.2, t', .inl ⟨hpx.symm, rfl⟩, if_pos rfl, h.partner ht⟩
    · rename_i hpx
      -- The partner is not shadowed either.
      obtain ⟨y, S', hxy, hy, hS⟩ := hfg.left hkeep x S hx hne
      have hpy : y ≠ p.2 := fun h ↦ hpx ((heven hkeep x y hxy).2 h).symm
      exact ⟨y, S', .inr ⟨Ne.symm hpx, hpy, hxy⟩, (if_neg (Ne.symm hpy)).trans hy, hS⟩
  · split at hy
    · rename_i hpy
      cases hy
      exact ⟨p.1, t, .inl ⟨rfl, hpy.symm⟩, if_pos rfl, h.partner ht⟩
    · rename_i hpy
      obtain ⟨x, S, hxy, hx, hS⟩ := hfg.right hkeep y S' hy hne
      have hpx : x ≠ p.1 := fun h ↦ hpy ((heven hkeep x y hxy).1 h).symm
      exact ⟨x, S, .inr ⟨hpx, Ne.symm hpy, hxy⟩, (if_neg (Ne.symm hpx)).trans hx, hS⟩

theorem Parallel.looks_insertAll (h : C.Parallel D keep P) {ps : List (String × String)}
    {bs bs' : List (String × Ty)} (hbs : Bindings (C.entries w) ps bs bs')
    (henv : C.Looks keep w Γ env.get? env'.get?) (heven : keep → Γ.EvenAll ps) :
    C.Looks keep w (Γ.bindAll ps) (env.insertAll bs).get? (env'.insertAll bs').get? := by
  induction hbs generalizing Γ env env' with
  | nil => exact henv
  | @cons a b t t' ps bs bs' ht hs ih =>
    have hbind := h.looks_bind henv (a, b) (fun hkeep ↦ (heven hkeep).1) ht
    rw [← funext (OrdMap.get?_insert env a · t), ← funext (OrdMap.get?_insert env' b · t')] at hbind
    exact ih hbind fun hkeep ↦ (heven hkeep).2

variable (h : C.Parallel D keep P)

include h

theorem Parallel.looks_mono (hw : w ≤ w') (hfg : C.Looks keep w Γ f g) : C.Looks keep w' Γ f g := by
  refine ⟨fun x y hxy ↦ rel_imp (hfg.names x y hxy) fun _ _ ↦ h.entries_mono hw,
    fun hkeep x S hx hne ↦ ?_, fun hkeep y S' hy hne ↦ ?_⟩
  · obtain ⟨y, S', hxy, hy, hS⟩ := hfg.left hkeep x S hx hne
    exact ⟨y, S', hxy, hy, h.partners_mono hw hS⟩
  · obtain ⟨x, S, hxy, hx, hS⟩ := hfg.right hkeep y S' hy hne
    exact ⟨x, S, hxy, hx, h.partners_mono hw hS⟩

theorem Parallel.environments_mono (hw : w ≤ w') (henv : C.Environments D keep w Γ env env') :
    C.Environments D keep w' Γ env env' :=
  ⟨h.looks_mono hw henv.looks, fun S hS ↦ (henv.known_left S hS).mono (h.keeps_left hw),
    fun S hS ↦ (henv.known_right S hS).mono (h.keeps_right hw), henv.apparent_left,
      henv.apparent_right⟩

theorem Parallel.environments_insertAll {ps : List (String × String)} {bs bs' : List (String × Ty)}
    (hbs : Bindings (C.entries w) ps bs bs') (henv : C.Environments D keep w Γ env env')
    (heven : keep → Γ.EvenAll ps) :
    C.Environments D keep w (Γ.bindAll ps) (env.insertAll bs) (env'.insertAll bs') := by
  have hknown := hbs.forall_mem fun t t' ↦ h.known
  exact ⟨h.looks_insertAll hbs henv.looks heven, henv.known_left.insertAll hknown.1,
    henv.known_right.insertAll hknown.2, henv.apparent_left.insertAll bs,
      henv.apparent_right.insertAll bs'⟩

end Comparison

end environments

end Infer

end SchemeTyping
