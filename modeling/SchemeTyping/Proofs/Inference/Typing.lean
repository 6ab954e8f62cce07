import Mathlib.Data.List.Forall2
import SchemeTyping.Environment
import SchemeTyping.Proofs.Ty.Scheme

/-!
# The typing rules

`HasType Γ e t` says that the expression `e` has the monotype `t`.  The rules do not solve anything:
they choose types where inference makes unknowns.

An environment gives schemes to names, and the type variables of a scheme stand for any monotypes.
Unknowns are used as type parameters: a type derived with parameters that do not occur in the
environment is generalised by making variables of them (`Generalizes`).

Function types have one argument.  A function of several arguments returns a function of the others,
and a function without arguments is a procedure.
-/

set_option autoImplicit false

namespace SchemeTyping

/-- The unknowns in the types of an environment. -/
def Env.unknowns (Γ : Env) : List String := Γ.values.flatMap Ty.unknowns

namespace Typing

open Ty

/-- `t` is the scheme `S` with monotypes for its variables. -/
def Instance (S t : Ty) : Prop := ∃ f : String → Ty, (∀ name, (f name).Mono) ∧ t = S.assign f

/-- `S` is `t` with different variables for the parameters that do not occur in the environment. -/
def Generalizes (Γ : Env) (t S : Ty) : Prop :=
  ∃ name : String → String,
    (∀ p ∈ t.unknowns, ∀ q ∈ t.unknowns, p ∉ Γ.unknowns → q ∉ Γ.unknowns → name p = name q →
      p = q) ∧
    S = t.fill fun p ↦ if p ∈ Γ.unknowns then .unknown p else .var (name p)

/-- The name that a slot binds.  A hole binds none. -/
def boundName? : Expr → Option String
  | .binding name _ => some name
  | _ => none

/-- The bindings of the slots, with the types `ts`. -/
def bound (slots : List Expr) (ts : List Ty) : List (String × Ty) :=
  (slots.zip ts).filterMap fun q ↦ (boundName? q.1).map (·, q.2)

/-- The monotypes that a slot can have: any, or an instance of the declared type. -/
inductive SlotType : Expr → Ty → Prop
  | hole {t : Ty} (ht : t.Mono) : SlotType .hole t
  | undeclared {name : String} {t : Ty} (ht : t.Mono) : SlotType (.binding name none) t
  | declared {name : String} {d t : Ty} (ht : t.Mono) (h : Instance d.scheme t) :
    SlotType (.binding name (some d)) t

/-- The typing rules. -/
inductive HasType : Env → Expr → Ty → Prop
  | hole {Γ : Env} {t : Ty} (ht : t.Mono) : HasType Γ .hole t
  | integer {Γ : Env} {n : Number} (hn : n.isInteger = true) : HasType Γ (.number n) Ty.integer
  | bool {Γ : Env} {b : Bool} : HasType Γ (.bool b) boolean
  | string {Γ : Env} {s : String} : HasType Γ (.string s) Ty.string
  | null {Γ : Env} : HasType Γ .null Ty.null
  | list {Γ : Env} {es : List Expr} {t : Ty} (ht : t.Mono) (hes : ∀ e ∈ es, HasType Γ e t) :
    HasType Γ (.list es) (Ty.list t)
  | var {Γ : Env} {name : String} {S t : Ty} (hname : Γ.get? name = some S) (ht : Instance S t) :
    HasType Γ (.var name) t
  | binding {Γ : Env} {name : String} {d : Option Ty} {S t : Ty} (hname : Γ.get? name = some S)
    (ht : Instance S t) : HasType Γ (.binding name d) t
  /-- Every argument takes one argument type off the type of what is called. -/
  | call {Γ : Env} {f : Expr} {args : List Expr} {ts : List Ty} {t : Ty} (hne : args ≠ [])
    (hf : HasType Γ f (chain ts t)) (hlen : args.length = ts.length)
    (hargs : ∀ q ∈ args.zip ts, HasType Γ q.1 q.2) : HasType Γ (.call f args) t
  | force {Γ : Env} {f : Expr} {t : Ty} (hf : HasType Γ f (procedure t)) : HasType Γ (.call f []) t
  /-- The value of a definition is in the scope of its name. -/
  | define {Γ : Env} {name value : Expr} {t : Ty} (hname : SlotType name t)
    (hvalue : HasType (Γ.insertAll (bound [name] [t])) value t) : HasType Γ (.define name value) t
  /-- The values are outside of the scope of the names; each is generalised. -/
  | letIn {Γ : Env} {bindings : List (Expr × Expr)} {body : Expr} {ts Ss : List Ty} {t : Ty}
    (hslots : List.Forall₂ SlotType (bindings.map (·.1)) ts)
    (hvalues : ∀ q ∈ bindings.zip ts, HasType Γ q.1.2 q.2)
    (hgen : List.Forall₂ (Generalizes Γ) ts Ss)
    (hbody : HasType (Γ.insertAll (bound (bindings.map (·.1)) Ss)) body t) :
    HasType Γ (.letIn bindings body) t
  /-- The values are in the scope of all names, with the monotypes `known`.  Of two slots for one
  name the later one counts.  Afterwards each type is generalised. -/
  | letrec {Γ : Env} {bindings : List (Expr × Expr)} {body : Expr} {ts us : List Ty} {known : Env}
    {poly : List (String × Ty)} {t : Ty} (hslots : List.Forall₂ SlotType (bindings.map (·.1)) ts)
    (hknown : known = .ofList (bound (bindings.map (·.1)) ts)) (hlen : bindings.length = us.length)
    (hvalues : ∀ q ∈ bindings.zip us, HasType (Γ.insertAll known.entries) q.1.2 q.2)
    (hnames : ∀ q ∈ bindings.zip us, ∀ name ∈ boundName? q.1.1, known.get? name = some q.2)
    (hgen : List.Forall₂ (fun b b' ↦ b.1 = b'.1 ∧ Generalizes Γ b.2 b'.2) known.entries poly)
    (hbody : HasType (Γ.insertAll poly) body t) : HasType Γ (.letrec bindings body) t
  | lambda {Γ : Env} {params : List Expr} {body : Expr} {ts : List Ty} {r : Ty} (hne : params ≠ [])
    (hslots : List.Forall₂ SlotType params ts)
    (hbody : HasType (Γ.insertAll (bound params ts)) body r) :
    HasType Γ (.lambda params body) (chain ts r)
  | thunk {Γ : Env} {body : Expr} {r : Ty} (hbody : HasType Γ body r) :
    HasType Γ (.lambda [] body) (procedure r)
  | emptySequence {Γ : Env} {t : Ty} (ht : t.Mono) : HasType Γ (.sequence []) t
  | sequence {Γ : Env} {es : List Expr} {ts : List Ty} {t : Ty} (hlen : es.length = ts.length)
    (hes : ∀ q ∈ es.zip ts, HasType Γ q.1 q.2) (hlast : ts.getLast? = some t) :
    HasType Γ (.sequence es) t
  | branch {Γ : Env} {c a b : Expr} {u t : Ty} (hc : HasType Γ c u) (ha : HasType Γ a t)
    (hb : HasType Γ b t) : HasType Γ (.branch c a b) t
  /-- The conditions may have different types, the values have one type. -/
  | cond {Γ : Env} {cases : List (Expr × Expr)} {us : List Ty} {t : Ty} (ht : t.Mono)
    (hlen : cases.length = us.length) (hconds : ∀ q ∈ cases.zip us, HasType Γ q.1.1 q.2)
    (hvalues : ∀ c ∈ cases, HasType Γ c.2 t) : HasType Γ (.cond cases) t

end Typing

end SchemeTyping
