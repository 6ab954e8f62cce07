import SchemeTyping.Number.Basic
import SchemeTyping.Ty.Basic

/-!
# Expressions

An expression under edit may have holes, and an edit may put any expression where a name is bound.
So the slots of names hold expressions like any other slot, and `Expr.identifier?` says which of
them bind a name.

The children of an expression are numbered in source order.
-/

set_option autoImplicit false

namespace SchemeTyping

/-- An expression. -/
inductive Expr
  | number (value : Number)
  | bool (value : Bool)
  | string (value : String)
  /-- The empty list literal. -/
  | null
  | list (elements : List Expr)
  /-- An empty slot. -/
  | hole
  /-- A name where it is bound, with the type it is declared to have. -/
  | binding (name : String) (declared : Option Ty)
  | var (name : String)
  | call (called : Expr) (args : List Expr)
  | define (name value : Expr)
  | letIn (bindings : List (Expr × Expr)) (body : Expr)
  | letrec (bindings : List (Expr × Expr)) (body : Expr)
  | lambda (params : List Expr) (body : Expr)
  | sequence (exprs : List Expr)
  | branch (condition consequent alternative : Expr)
  | cond (cases : List (Expr × Expr))
  deriving Repr, Inhabited

namespace Expr

mutual

/-- Equality of expressions is decidable. -/
def decEq (d e : Expr) : Decidable (d = e) :=
  if h : d.ctorIdx = e.ctorIdx then
    match d, e, h with
    | .number m, .number n, _ => decidable_of_iff (m = n) (by simp)
    | .bool m, .bool n, _ => decidable_of_iff (m = n) (by simp)
    | .string m, .string n, _ => decidable_of_iff (m = n) (by simp)
    | .null, .null, _ => isTrue rfl
    | .hole, .hole, _ => isTrue rfl
    | .list as, .list bs, _ => @decidable_of_iff _ (as = bs) (by simp) (decEqList as bs)
    | .binding m s, .binding n t, _ => decidable_of_iff (m = n ∧ s = t) (by simp)
    | .var m, .var n, _ => decidable_of_iff (m = n) (by simp)
    | .call a as, .call b bs, _ =>
      @decidable_of_iff _ (a = b ∧ as = bs) (by simp)
        (@instDecidableAnd _ _ (decEq a b) (decEqList as bs))
    | .define a a', .define b b', _ =>
      @decidable_of_iff _ (a = b ∧ a' = b') (by simp)
        (@instDecidableAnd _ _ (decEq a b) (decEq a' b'))
    | .letIn as a, .letIn bs b, _ =>
      @decidable_of_iff _ (as = bs ∧ a = b) (by simp)
        (@instDecidableAnd _ _ (decEqPairs as bs) (decEq a b))
    | .letrec as a, .letrec bs b, _ =>
      @decidable_of_iff _ (as = bs ∧ a = b) (by simp)
        (@instDecidableAnd _ _ (decEqPairs as bs) (decEq a b))
    | .lambda as a, .lambda bs b, _ =>
      @decidable_of_iff _ (as = bs ∧ a = b) (by simp)
        (@instDecidableAnd _ _ (decEqList as bs) (decEq a b))
    | .sequence as, .sequence bs, _ => @decidable_of_iff _ (as = bs) (by simp) (decEqList as bs)
    | .branch a a' a'', .branch b b' b'', _ =>
      @decidable_of_iff _ (a = b ∧ a' = b' ∧ a'' = b'') (by simp)
        (@instDecidableAnd _ _ (decEq a b) (@instDecidableAnd _ _ (decEq a' b') (decEq a'' b'')))
    | .cond as, .cond bs, _ => @decidable_of_iff _ (as = bs) (by simp) (decEqPairs as bs)
  else isFalse fun he ↦ h (by rw [he])

/-- Equality of rows of expressions is decidable. -/
def decEqList (ds es : List Expr) : Decidable (ds = es) :=
  match ds, es with
  | [], [] => isTrue rfl
  | [], _ :: _ => isFalse (by simp)
  | _ :: _, [] => isFalse (by simp)
  | d :: ds, e :: es =>
    @decidable_of_iff _ (d = e ∧ ds = es) (by simp)
      (@instDecidableAnd _ _ (decEq d e) (decEqList ds es))

/-- Equality of rows of pairs of expressions is decidable. -/
def decEqPairs (ds es : List (Expr × Expr)) : Decidable (ds = es) :=
  match ds, es with
  | [], [] => isTrue rfl
  | [], _ :: _ => isFalse (by simp)
  | _ :: _, [] => isFalse (by simp)
  | (d, d') :: ds, (e, e') :: es =>
    @decidable_of_iff _ ((d = e ∧ d' = e') ∧ ds = es) (by simp)
      (@instDecidableAnd _ _ (@instDecidableAnd _ _ (decEq d e) (decEq d' e')) (decEqPairs ds es))

end

instance : DecidableEq Expr := decEq

/-- The name of the kind of an expression, for messages. -/
def kind : Expr → String
  | .number _ => "NumberLiteral"
  | .bool _ => "BoolLiteral"
  | .string _ => "StringLiteral"
  | .null => "NullLiteral"
  | .list _ => "ListLiteral"
  | .hole => "Hole"
  | .binding .. => "NameBinding"
  | .var _ => "Var"
  | .call .. => "Call"
  | .define .. => "Define"
  | .letIn .. => "Let"
  | .letrec .. => "Letrec"
  | .lambda .. => "Lambda"
  | .sequence _ => "Sequence"
  | .branch .. => "If"
  | .cond _ => "Cond"

/-! ## Names -/

/-- The name that a hole goes by. -/
def holeName : String := "·"

/-- Whether the expression is an empty slot. -/
def isHole : Expr → Bool
  | .hole => true
  | _ => false

/-- Whether the expression is a definition. -/
def isDefine : Expr → Bool
  | .define .. => true
  | _ => false

/-- The name that the expression binds, if it can bind one. -/
def identifier? : Expr → Option String
  | .binding name _ => some name
  | .hole => some holeName
  | _ => none

/-- The type that a bound name is declared to have. -/
def declared? : Expr → Option Ty
  | .binding _ declared => declared
  | _ => none

/-- The name of a variable or of a bound name. -/
def name? : Expr → Option String
  | .var name => some name
  | .binding name _ => some name
  | _ => none

/-! ## Children -/

/-- The children of an expression in source order. -/
def children : Expr → List Expr
  | .list es => es
  | .call called args => called :: args
  | .define name value => [name, value]
  | .letIn bindings body => (bindings.flatMap fun b ↦ [b.1, b.2]) ++ [body]
  | .letrec bindings body => (bindings.flatMap fun b ↦ [b.1, b.2]) ++ [body]
  | .lambda params body => params ++ [body]
  | .sequence es => es
  | .branch c t e => [c, t, e]
  | .cond cases => cases.flatMap fun b ↦ [b.1, b.2]
  | _ => []

/-- The child at an index; there is none at a negative one. -/
def child? (e : Expr) (index : Int) : Option Expr :=
  if index < 0 then none else e.children[index.toNat]?

/-- Replaces an expression in a row of pairs, counted through the pairs. -/
def setPair : List (Expr × Expr) → Nat → Expr → List (Expr × Expr)
  | [], _, _ => []
  | p :: ps, 0, c => (c, p.2) :: ps
  | p :: ps, 1, c => (p.1, c) :: ps
  | p :: ps, n + 2, c => p :: setPair ps n c

/-- Replaces the child at an index. -/
def setChild (e : Expr) (index : Nat) (c : Expr) : Expr :=
  match e with
  | .list es => .list (es.set index c)
  | .call called args =>
    match index with
    | 0 => .call c args
    | n + 1 => .call called (args.set n c)
  | .define name value =>
    match index with
    | 0 => .define c value
    | 1 => .define name c
    | _ => .define name value
  | .letIn bindings body =>
    if index = 2 * bindings.length then .letIn bindings c
    else .letIn (setPair bindings index c) body
  | .letrec bindings body =>
    if index = 2 * bindings.length then .letrec bindings c
    else .letrec (setPair bindings index c) body
  | .lambda params body =>
    if index = params.length then .lambda params c else .lambda (params.set index c) body
  | .sequence es => .sequence (es.set index c)
  | .branch p t e =>
    match index with
    | 0 => .branch c t e
    | 1 => .branch p c e
    | 2 => .branch p t c
    | _ => .branch p t e
  | .cond cases => .cond (setPair cases index c)
  | e => e

mutual

/-- How many definitions an expression holds, itself included. -/
def defineCount : Expr → Nat
  | .define name value => name.defineCount + value.defineCount + 1
  | .list es => defineCountList es
  | .call called args => called.defineCount + defineCountList args
  | .letIn bindings body => defineCountPairs bindings + body.defineCount
  | .letrec bindings body => defineCountPairs bindings + body.defineCount
  | .lambda params body => defineCountList params + body.defineCount
  | .sequence es => defineCountList es
  | .branch c t e => c.defineCount + t.defineCount + e.defineCount
  | .cond cases => defineCountPairs cases
  | _ => 0

/-- How many definitions a row of expressions holds. -/
def defineCountList : List Expr → Nat
  | [] => 0
  | e :: es => e.defineCount + defineCountList es

/-- How many definitions a row of pairs of expressions holds. -/
def defineCountPairs : List (Expr × Expr) → Nat
  | [] => 0
  | (d, e) :: es => d.defineCount + e.defineCount + defineCountPairs es

end

end Expr

end SchemeTyping
