import Mathlib.Data.List.Forall2
import SchemeTyping.Environment
import SchemeTyping.Proofs.Ty.Subtype

/-!
# The rules of static typing

`Derivable Γ e t` says that the expression `e` has the type `t` when names have the types of `Γ`.
The rules do not compute anything: they choose the type arguments of a call, the types of undeclared
names and where to pass to a larger type.

## What is here

* `Derivable` — the rules.  The gradual type is both below and above every type, so that passing
  through it would give every type to every expression: `Derivable.sub` only passes to static types.
* `Derivable.of_literal` — a literal has the types above its own and no others.
* `Derivable.any`, `Derivable.call_any` — an expression that has a type has the type `any`, and by
  `Applies.any` so has every call of expressions that have types.  The type `any` says nothing of a
  call; it is what the rules ask of an expression whose value is discarded.
* `Derivable.of_call` — a call with another type than `any` has it from what is called, by the rules
  of `Applies` for functions, procedures, variadic functions and `never`.
-/

set_option autoImplicit false

namespace SchemeTyping.Check

open Ty

/-- The slot declares the name `b.1` with the type `b.2`. -/
def Declares (slot : Expr) (b : String × Ty) : Prop := slot = .binding b.1 (some b.2)

/-- The slot of the name `b.1`, which may have the type `b.2`: any type, if none is declared. -/
def Admits (slot : Expr) (b : String × Ty) : Prop := slot = .binding b.1 none ∨ Declares slot b

/-- The type of a literal. -/
def literalType? : Expr → Option Ty
  | .number n => some (if n.isInteger then integer else number)
  | .bool _ => some boolean
  | .string _ => some string
  | .null => some null
  | _ => none

/-- `Applies t ps r`: a value of type `t` takes arguments of the types `ps` and returns one of type
`r`. -/
inductive Applies : Ty → List Ty → Ty → Prop
  | function {ps : List Ty} {r : Ty} : Applies (function (ps ++ [r])) ps r
  | procedure {r : Ty} : Applies (procedure r) [] r
  /-- The last argument type counts for all further arguments.  Without a bound of its own the
  function takes at least the arguments before that one. -/
  | variadic {min max : Option Int} {ps : List Ty} {p r : Ty} {n : Nat}
    (hmin : min.getD ps.length ≤ n) (hmax : ∀ m ∈ max, n ≤ m) :
    Applies (.variadic min max (ps ++ [p, r])) ((ps ++ List.replicate n p).take n) r
  | any {ps : List Ty} : Applies any ps any
  | never {ps : List Ty} : Applies never ps never

/-- The rules of static typing. -/
inductive Derivable : Env → Expr → Ty → Prop
  | sub {Γ : Env} {e : Expr} {s t : Ty} (h : Derivable Γ e s) (hst : s.isSubtype t = true)
    (ht : t.Static) : Derivable Γ e t
  | literal {Γ : Env} {e : Expr} {t : Ty} (h : literalType? e = some t) : Derivable Γ e t
  | var {Γ : Env} {name : String} {t : Ty} (h : Γ.get? name = some t) : Derivable Γ (.var name) t
  | binding {Γ : Env} {name : String} {declared : Option Ty} {t : Ty} (h : Γ.get? name = some t) :
    Derivable Γ (.binding name declared) t
  | list {Γ : Env} {es : List Expr} {t : Ty} (ht : t.Static) (hes : ∀ e ∈ es, Derivable Γ e t) :
    Derivable Γ (.list es) (list t)
  | lambda {Γ : Env} {params : List Expr} {names : List (String × Ty)} {body : Expr} {r : Ty}
    (hparams : List.Forall₂ Declares params names) (hbody : Derivable (Γ.insertAll names) body r) :
    Derivable Γ (.lambda params body) (function (names.map (·.2) ++ [r]))
  /-- The quantified names in the type of what is called are replaced by static types. -/
  | call {Γ : Env} {f : Expr} {args : List Expr} {xss : List (List String)} {F : Ty} {ps : List Ty}
    {r : Ty} {σ : Subst} (hf : Derivable Γ f (xss.foldr .all F)) (hF : Applies F ps r)
    (hσ : ∀ x u, σ.get? x = some u → x ∈ xss.flatten ∧ u.Static) (hlen : args.length = ps.length)
    (hargs : ∀ q ∈ args.zip ps, Derivable Γ q.1 (q.2.subst σ)) :
    Derivable Γ (.call f args) (r.subst σ)
  /-- The values are outside of the scope of the names. -/
  | letIn {Γ : Env} {bindings : List (Expr × Expr)} {names : List (String × Ty)}
    {body : Expr} {t : Ty} (hnames : List.Forall₂ Admits (bindings.map (·.1)) names)
    (hvalues : ∀ q ∈ bindings.zip names, Derivable Γ q.1.2 q.2.2)
    (hbody : Derivable (Γ.insertAll names) body t) : Derivable Γ (.letIn bindings body) t
  /-- The values are in the scope of all names. -/
  | letrec {Γ : Env} {bindings : List (Expr × Expr)} {names : List (String × Ty)}
    {body : Expr} {t : Ty} (hnames : List.Forall₂ Declares (bindings.map (·.1)) names)
    (hvalues : ∀ q ∈ bindings.zip names, Derivable (Γ.insertAll names) q.1.2 q.2.2)
    (hbody : Derivable (Γ.insertAll names) body t) : Derivable Γ (.letrec bindings body) t
  | sequence {Γ : Env} {es : List Expr} {e : Expr} {t : Ty} (hes : ∀ e ∈ es, Derivable Γ e any)
    (he : Derivable Γ e t) : Derivable Γ (.sequence (es ++ [e])) t
  | branch {Γ : Env} {c a b : Expr} {t : Ty} (hc : Derivable Γ c any) (ha : Derivable Γ a t)
    (hb : Derivable Γ b t) : Derivable Γ (.branch c a b) t
  | cond {Γ : Env} {cases : List (Expr × Expr)} {t : Ty} (ht : t.Static)
    (hconds : ∀ c ∈ cases, Derivable Γ c.1 any) (hvalues : ∀ c ∈ cases, Derivable Γ c.2 t) :
    Derivable Γ (.cond cases) t

theorem Derivable.any {Γ : Env} {e : Expr} {t : Ty} (h : Derivable Γ e t) : Derivable Γ e Ty.any :=
  h.sub (isSubtype_any t) (by decide)

/-- The types of a literal are those above its own. -/
theorem Derivable.of_literal {Γ : Env} {e : Expr} {s t : Ty} (h : Derivable Γ e t)
    (he : literalType? e = some s) : t.Static ∧ s.isSubtype t = true := by
  induction h with
  | sub h hst ht ih => exact ⟨ht, isSubtype_trans (ih he).1 (ih he).2 hst⟩
  | literal h =>
    obtain rfl := Option.some.inj (he.symm.trans h)
    refine ⟨?_, isSubtype_refl s⟩
    revert he
    fun_cases literalType? <;> rintro ⟨⟩
    · split <;> decide
    all_goals decide
  | _ => cases he

/-- If what is called and the arguments have types, the call has the type `any`. -/
theorem Derivable.call_any {Γ : Env} {f : Expr} {args : List Expr} {t : Ty} (hf : Derivable Γ f t)
    (hargs : ∀ a ∈ args, ∃ s, Derivable Γ a s) : Derivable Γ (.call f args) Ty.any := by
  have hf : Derivable Γ f (([] : List (List String)).foldr .all Ty.any) := hf.any
  have hF : Applies Ty.any (args.map fun _ ↦ Ty.any) Ty.any := .any
  change Derivable Γ (.call f args) (Ty.any.subst ∅)
  refine .call hf hF nofun (List.length_map _).symm fun q hq ↦ ?_
  rw [List.zip_map_right, List.mem_map] at hq
  obtain ⟨⟨a, b⟩, hab, rfl⟩ := hq
  obtain ⟨s, hs⟩ := hargs a (List.of_mem_zip hab).1
  exact hs.any

/-- Only types with tag `Any` are above one among the static types. -/
theorem hasTag_any_of_isSubtype {s t : Ty} (hs : s.hasTag "Any" = true) (ht : t.Static)
    (hst : s.isSubtype t = true) : t.hasTag "Any" = true := by
  cases isSubtype_iff_below.1 hst with
  | untypedLeft h => simp_all [isUntyped, hasTag]
  | untypedRight h => exact absurd h ht.not_isUntyped
  | refl => exact hs
  | never h => simp_all [hasTag]
  | any h => exact h
  | all h => cases hs
  | nominal h => simp_all [hasTag, tag?, Ty.nominal]
  | con hlen h => exact hs
  | variadic hne haccepts hresult hargs => cases hs

theorem Applies.eq_any {F r : Ty} {ps : List Ty} (h : Applies F ps r) (hF : F = Ty.any) :
    r = Ty.any := by
  cases h with
  | function | procedure | never => exact absurd (Ty.con.inj hF).1 (by decide)
  | variadic => cases hF
  | any => rfl

/-- A call with another type than `any` has it from what is called: from the result type of a type
that `Applies` other than `any`, or a subtype of it. -/
theorem Derivable.of_call {Γ : Env} {f : Expr} {args : List Expr} {t : Ty}
    (h : Derivable Γ (.call f args) t) (hany : ¬ t.hasTag "Any" = true) :
    ∃ (xss : List (List String)) (F : Ty) (ps : List Ty) (r : Ty) (σ : Subst),
      Derivable Γ f (xss.foldr .all F) ∧ Applies F ps r ∧ F ≠ Ty.any ∧
      (∀ x u, σ.get? x = some u → x ∈ xss.flatten ∧ u.Static) ∧ args.length = ps.length ∧
      (∀ q ∈ args.zip ps, Derivable Γ q.1 (q.2.subst σ)) ∧
      (t = r.subst σ ∨ (r.subst σ).isSubtype t = true ∧ t.Static) := by
  generalize he : Expr.call f args = e at h
  induction h with
  | sub h hst ht ih =>
    obtain ⟨xss, F, ps, r, σ, hf, hF, hne, hσ, hlen, hargs, hr⟩ :=
      ih (fun hs ↦ hany (hasTag_any_of_isSubtype hs ht hst)) he
    refine ⟨xss, F, ps, r, σ, hf, hF, hne, hσ, hlen, hargs, .inr ⟨?_, ht⟩⟩
    rcases hr with rfl | ⟨hr, hs⟩
    · exact hst
    · exact isSubtype_trans hs hr hst
  | call hf hF hσ hlen hargs =>
    cases he
    refine ⟨_, _, _, _, _, hf, hF, ?_, hσ, hlen, hargs, .inl rfl⟩
    intro hF'
    exact hany (hF.eq_any hF' ▸ rfl)
  | literal h =>
    rw [← he] at h
    cases h
  | _ => cases he

end SchemeTyping.Check
