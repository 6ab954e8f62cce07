import SchemeTyping.Expr.Basic
import SchemeTyping.Ty.Reader

/-!
# Reading expressions

A datum as an expression.  A list is a call unless its first entry is the name of a special form.
The names of special forms cannot be bound, but a variable may be called like one.
-/

set_option autoImplicit false

namespace SchemeTyping.Expr

/-- The special forms. -/
inductive Form
  | define
  | letIn
  | letrec
  | lambda
  | sequence
  | branch
  | cond
  deriving DecidableEq, Repr, Inhabited

namespace Form

/-- The special form of a name. -/
def ofName? : String → Option Form
  | "define" => some .define
  | "let" => some .letIn
  | "letrec" => some .letrec
  | "lambda" => some .lambda
  | "sequence" => some .sequence
  | "begin" => some .sequence
  | "if" => some .branch
  | "cond" => some .cond
  | _ => none

/-- The special form that a datum names at the head of a list, with the name used for it. -/
def ofHead? : Datum → Option (String × Form)
  | .symbol name => (ofName? name).map (name, ·)
  | _ => none

end Form

/-- Whether a symbol stands for an empty slot. -/
def isHoleName (name : String) : Bool := name == "_" || name == holeName

/-- A datum where a name is bound: an empty slot, a name, or a name with its type. -/
def binderOfDatum (d : Datum) : Except SyntaxError Expr :=
  match d with
  | .symbol name =>
    if isHoleName name then .ok .hole
    else if (Form.ofName? name).isNone then .ok (.binding name none)
    else .error (.invalidBinder d)
  | .list [.symbol name, .symbol ":", declared] =>
    if (Form.ofName? name).isNone then do return .binding name (some (← Ty.ofDatum declared))
    else .error (.invalidBinder d)
  | _ => .error (.invalidBinder d)

mutual

/-- A datum as an expression. -/
def ofDatum (d : Datum) : Except SyntaxError Expr :=
  match d with
  | .bool b => .ok (.bool b)
  | .number n => .ok (.number n)
  | .string s => .ok (.string s)
  | .symbol name => .ok (if isHoleName name then .hole else .var name)
  | .quote (.list []) => .ok .null
  | .quote (.list (e :: es)) => do
    let first ← ofDatum e
    return .list (first :: (← ofData es))
  | .quote _ => .error (.notQuotable d)
  | .list [] => .error .emptyApplication
  | .list (head :: rest) =>
    match Form.ofHead? head with
    | none => do
      let called ← ofDatum head
      return .call called (← ofData rest)
    | some (word, form) =>
      match form, rest with
      | .define, [name, value] => do
        let name ← binderOfDatum name
        return .define name (← ofDatum value)
      | .letIn, [bindings, body] => do
        let bindings ← bindingsOfDatum bindings
        return .letIn bindings (← ofDatum body)
      | .letrec, [bindings, body] => do
        let bindings ← bindingsOfDatum bindings
        return .letrec bindings (← ofDatum body)
      | .lambda, [.list params, body] => do
        let params ← params.mapM binderOfDatum
        return .lambda params (← ofDatum body)
      | .sequence, es => do return .sequence (← ofData es)
      | .branch, [c, t, e] => do
        let c ← ofDatum c
        let t ← ofDatum t
        return .branch c t (← ofDatum e)
      | .cond, cases => do return .cond (← casesOfData cases)
      | _, _ => .error (.malformed word d)

/-- A row of data as expressions. -/
def ofData (ds : List Datum) : Except SyntaxError (List Expr) :=
  match ds with
  | [] => .ok []
  | d :: ds => do
    let e ← ofDatum d
    return e :: (← ofData ds)

/-- The bindings of a `let`. -/
def bindingsOfDatum (d : Datum) : Except SyntaxError (List (Expr × Expr)) :=
  match d with
  | .list ds => bindingsOfData ds
  | _ => .error (.invalidBindings d)

/-- A row of data as bindings. -/
def bindingsOfData (ds : List Datum) : Except SyntaxError (List (Expr × Expr)) :=
  match ds with
  | [] => .ok []
  | .list [name, value] :: ds => do
    let name ← binderOfDatum name
    let value ← ofDatum value
    return (name, value) :: (← bindingsOfData ds)
  | d :: _ => .error (.invalidBinding d)

/-- A row of data as the cases of a `cond`. -/
def casesOfData (ds : List Datum) : Except SyntaxError (List (Expr × Expr)) :=
  match ds with
  | [] => .ok []
  | .list [condition, value] :: ds => do
    let condition ← ofDatum condition
    let value ← ofDatum value
    return (condition, value) :: (← casesOfData ds)
  | d :: _ => .error (.invalidCase d)

end

/-- The expressions of a row of data up to the first datum that makes no sense, and what is wrong
with that. -/
def readable : List Datum → List Expr × Option SyntaxError
  | [] => ([], none)
  | d :: ds =>
    match ofDatum d with
    | .error e => ([], some e)
    | .ok e => (e :: (readable ds).1, (readable ds).2)

/-- Reads a single expression from source text. -/
def read (source : String) : Except SyntaxError Expr := do ofDatum (← Datum.read source)

/-- Reads all the expressions of a source text. -/
def readAll (source : String) : Except SyntaxError (List Expr) := do
  (← Datum.readAll source).mapM ofDatum

end SchemeTyping.Expr
