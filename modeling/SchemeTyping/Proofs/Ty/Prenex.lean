import SchemeTyping.Proofs.Ty.Bounds
import SchemeTyping.Proofs.Ty.Subst

/-!
# Quantifiers in front

A type is declared with quantifiers in front of a type without quantifiers.  The types that the
checker finds need not be so: a function that returns a polymorphic value has a quantifier inside
its type.

Names are told apart once for a whole program: `Q` are the names that quantifiers bind, and no free
variable is among them.

## What is here

* `Prenex Q`, `Shallow Q` — quantifiers in front, and types in which every quantified part is
  prenex.
* `Declarable Q`, `Tame Q` — what is asked of a declared type, and what holds of a found one;
  `Declarable.tame` leads from one to the other.
* `Tame.bound` — meets and joins of tame types are tame.
* `Shallow.subst` — shallow types may be put into a type without quantifiers.
-/

set_option autoImplicit false

namespace SchemeTyping.Ty

variable {Q : List String} {s t : Ty} {tag : String} {ps : List Ty}

/-! ## Where quantifiers stand -/

/-- Quantifiers over names of `Q`, in front of a type without quantifiers. -/
def Prenex (Q : List String) : Ty → Prop
  | .all bound body => (∀ x ∈ bound, x ∈ Q) ∧ body.Prenex Q
  | t => t.QuantifierFree

/-- `t.Prenex Q` is decidable. -/
def decidablePrenex (Q : List String) : (t : Ty) → Decidable (t.Prenex Q)
  | .all bound body =>
    @instDecidableAnd _ _ (inferInstanceAs (Decidable (∀ x ∈ bound, x ∈ Q)))
      (decidablePrenex Q body)
  | .var name => inferInstanceAs (Decidable (Ty.var name).QuantifierFree)
  | .unknown id => inferInstanceAs (Decidable (Ty.unknown id).QuantifierFree)
  | .con tag ps => inferInstanceAs (Decidable (Ty.con tag ps).QuantifierFree)
  | .variadic min max ps => inferInstanceAs (Decidable (Ty.variadic min max ps).QuantifierFree)

instance : DecidablePred (Prenex Q) := decidablePrenex Q

/-- A type in which every quantified part is `Prenex Q`. -/
inductive Shallow (Q : List String) : Ty → Prop
  | prenex {t : Ty} (h : t.Prenex Q) : Shallow Q t
  | con {tag : String} {ps : List Ty} (h : ∀ p ∈ ps, Shallow Q p) : Shallow Q (.con tag ps)
  | variadic {min max : Option Int} {ps : List Ty} (h : ∀ p ∈ ps, Shallow Q p) :
    Shallow Q (.variadic min max ps)

theorem QuantifierFree.prenex (h : t.QuantifierFree) : t.Prenex Q := by
  cases t with
  | all bound body => exact absurd rfl (built_all.1 h).1
  | _ => exact h

theorem QuantifierFree.shallow (h : t.QuantifierFree) : t.Shallow Q := .prenex h.prenex

theorem Shallow.of_mem_params (h : t.Shallow Q) {p : Ty} (hp : p ∈ t.params) : p.Shallow Q := by
  cases h with
  | prenex h =>
    cases t with
    | all bound body => exact absurd hp List.not_mem_nil
    | _ => exact QuantifierFree.shallow (Built.of_mem_params h hp)
  | con h => exact h p hp
  | variadic h => exact h p hp

theorem Shallow.of_all {bound : List String} {body : Ty} (h : (Ty.all bound body).Shallow Q) :
    (Ty.all bound body).Prenex Q := by
  cases h with
  | prenex h => exact h

/-- `bound b s t` is shallow if `s` and `t` are. -/
theorem Shallow.bound (b : Bound) (hs : s.Shallow Q) (ht : t.Shallow Q) :
    (bound b s t).Shallow Q := by
  -- The bodies of two quantified types are prenex, and the parameters of a prenex constructor have
  -- no quantifiers: the three fragments go through the induction together.
  refine (bound_induction (P := fun s t r ↦
    (s.QuantifierFree → t.QuantifierFree → r.QuantifierFree) ∧
      (s.Prenex Q → t.Prenex Q → r.Prenex Q) ∧ (s.Shallow Q → t.Shallow Q → r.Shallow Q))
    (fun _ _ ↦ ⟨fun h _ ↦ h, fun h _ ↦ h, fun h _ ↦ h⟩)
    (fun _ _ ↦ ⟨fun _ h ↦ h, fun _ h ↦ h, fun _ h ↦ h⟩) (fun b _ _ ↦ ?_) (fun names s t r ih ↦ ?_)
    (fun tag ps qs rs hlen ih ↦ ?_) b s t).2.2 hs ht
  · have h : b.extreme.QuantifierFree := by cases b <;> decide
    exact ⟨fun _ _ ↦ h, fun _ _ ↦ h.prenex, fun _ _ ↦ h.shallow⟩
  · have hprenex : (Ty.all names s).Prenex Q → (Ty.all names t).Prenex Q →
        (Ty.all names r).Prenex Q :=
      fun hs ht ↦ ⟨hs.1, ih.2.1 hs.2 ht.2⟩
    exact ⟨fun h ↦ absurd rfl (built_all.1 h).1, hprenex,
      fun hs ht ↦ .prenex (hprenex hs.of_all ht.of_all)⟩
  · have hfree : (Ty.con tag ps).QuantifierFree → (Ty.con tag qs).QuantifierFree →
        (Ty.con tag rs).QuantifierFree := fun hs ht ↦ by
      refine built_con.2 ⟨nofun, fun r hr ↦ ?_⟩
      obtain ⟨p, hp, q, hq, h⟩ := ih r hr
      exact h.1 ((built_con.1 hs).2 p hp) ((built_con.1 ht).2 q hq)
    refine ⟨hfree, hfree, fun hs ht ↦ .con fun r hr ↦ ?_⟩
    obtain ⟨p, hp, q, hq, h⟩ := ih r hr
    exact h.2.2 (hs.of_mem_params hp) (ht.of_mem_params hq)

/-- `t.subst σ` is shallow if `t` has no quantifiers and every type of `σ` is shallow. -/
theorem Shallow.subst {σ : Subst} (ht : t.QuantifierFree)
    (hσ : ∀ x u, σ.get? x = some u → u.Shallow Q) : (t.subst σ).Shallow Q := by
  induction t with
  | var name =>
    rw [subst_var]
    cases h : σ.get? name with
    | none => exact ht.shallow
    | some u => exact hσ name u h
  | unknown id => exact ht.shallow
  | con tag ps ih =>
    rw [subst_con]
    refine .con ?_
    rw [List.forall_mem_map]
    exact fun p hp ↦ ih p hp ((built_con.1 ht).2 p hp)
  | variadic min max ps ih =>
    rw [subst_variadic]
    refine .variadic ?_
    rw [List.forall_mem_map]
    exact fun p hp ↦ ih p hp ((built_variadic.1 ht).2 p hp)
  | all bound body ih => exact absurd rfl (built_all.1 ht).1

/-! ## Declared and found types -/

/-- A node of a plain type in which a `Procedure` has one parameter, a `Function` at least one and a
variadic function at least two. -/
def Node.Formed : Node → Prop
  | .con tag n => (Node.con tag n).Plain ∧ (tag = "Procedure" → n = 1) ∧ (tag = "Function" → 1 ≤ n)
  | .variadic n => 2 ≤ n
  | _ => True

instance : DecidablePred Node.Formed
  | .con _ _ => inferInstanceAs (Decidable (_ ∧ _))
  | .variadic n => inferInstanceAs (Decidable (2 ≤ n))
  | .var | .unknown | .all => inferInstanceAs (Decidable True)

theorem Node.Formed.plain {n : Node} (h : n.Formed) : n.Plain := by
  cases n with
  | con tag k => exact h.1
  | _ => trivial

/-- A type that may be declared, where quantifiers bind names of `Q` only. -/
structure Declarable (Q : List String) (t : Ty) : Prop where
  formed : t.Built Node.Formed
  prenex : t.Prenex Q
  notMem : ∀ x ∈ t.freeVars, x ∉ Q

instance : DecidablePred (Declarable Q) := fun t ↦
  decidable_of_iff (t.Built Node.Formed ∧ t.Prenex Q ∧ ∀ x ∈ t.freeVars, x ∉ Q)
    ⟨fun ⟨hf, hp, hm⟩ ↦ ⟨hf, hp, hm⟩, fun ⟨hf, hp, hm⟩ ↦ ⟨hf, hp, hm⟩⟩

/-- A type that the checker may find, where quantifiers bind names of `Q` only. -/
structure Tame (Q : List String) (t : Ty) : Prop where
  formed : t.Built Node.Formed
  shallow : t.Shallow Q
  notMem : ∀ x ∈ t.freeVars, x ∉ Q

theorem Declarable.tame (h : t.Declarable Q) : t.Tame Q := ⟨h.formed, .prenex h.prenex, h.notMem⟩

theorem Tame.plain (h : t.Tame Q) : t.Plain := Built.mono h.formed fun _ ↦ Node.Formed.plain

theorem Tame.static (h : t.Tame Q) : t.Static := h.plain.static

theorem tame_con (h : (Node.con tag ps.length).Formed) (hps : ∀ p ∈ ps, p.Tame Q) :
    (Ty.con tag ps).Tame Q := by
  refine ⟨built_con.2 ⟨h, fun p hp ↦ (hps p hp).formed⟩, .con fun p hp ↦ (hps p hp).shallow,
    fun x hx ↦ ?_⟩
  rw [freeVars_con, List.mem_flatMap] at hx
  obtain ⟨p, hp, hx⟩ := hx
  exact (hps p hp).notMem x hx

theorem tame_atom (h : (Node.con tag 0).Formed) : (Ty.con tag []).Tame Q := tame_con h nofun

theorem Tame.of_mem_params (h : t.Tame Q) {p : Ty} (hp : p ∈ t.params) : p.Tame Q :=
  ⟨h.formed.of_mem_params hp, h.shallow.of_mem_params hp,
    fun x hx ↦ h.notMem x (mem_freeVars_of_mem_params hp hx)⟩

theorem Tame.bound (b : Bound) (hs : s.Tame Q) (ht : t.Tame Q) : (bound b s t).Tame Q where
  formed := Built.bound (by decide) (by decide) b hs.formed ht.formed
  shallow := hs.shallow.bound b ht.shallow
  notMem x hx := (mem_freeVars_bound hx).elim (hs.notMem x) (ht.notMem x)

end SchemeTyping.Ty
