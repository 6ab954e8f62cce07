import SchemeTyping.Datum.Reader
import SchemeTyping.Ty.Basic

/-!
# Reading types

A datum as a type.  A symbol with the variable mark is a variable, any other symbol a constructor
without parameters; a list whose first entry is a symbol applies a constructor.  The truth values
are type variables here, because the words `#t` and `#f` are theirs.
-/

set_option autoImplicit false

namespace SchemeTyping.Ty

/-- The name in a symbol that carries the variable mark. -/
def markedName? (name : String) : Option (List Char) :=
  match name.toList with
  | '#' :: rest => some rest
  | _ => none

/-- The name of the type variable that a truth value spells. -/
def truthName (b : Bool) : String := if b then "t" else "f"

/-- A datum as the name of a type variable. -/
def varName (d : Datum) : Except SyntaxError String :=
  match d with
  | .bool b => .ok (truthName b)
  | .symbol name =>
    match markedName? name with
    | some (c :: cs) => .ok (String.ofList (c :: cs))
    | _ => .error (.notTypeVariable d)
  | _ => .error (.notTypeVariable d)

/-- The options in front of the parameters of a variadic function, the last of each kind counting.
-/
def options (min max : Option Int) :
    List Datum → Except SyntaxError (Option Int × Option Int × List Datum)
  | .symbol ":min" :: .number (.exact n) :: rest => options (some n) max rest
  | .symbol ":max" :: .number (.exact n) :: rest => options min (some n) rest
  | .symbol ":min" :: _ => .error (.integerExpected ":min")
  | .symbol ":max" :: _ => .error (.integerExpected ":max")
  | rest => .ok (min, max, rest)

theorem sizeOf_options_le {min max min' max' : Option Int} {ds rest : List Datum}
    (h : options min max ds = .ok (min', max', rest)) : sizeOf rest ≤ sizeOf ds := by
  fun_induction options min max ds with
  | case1 min max n ds ih =>
    have := ih h
    simp only [List.cons.sizeOf_spec]
    omega
  | case2 min max n ds ih =>
    have := ih h
    simp only [List.cons.sizeOf_spec]
    omega
  | case3 => simp at h
  | case4 => simp at h
  | case5 =>
    simp only [Except.ok.injEq, Prod.mk.injEq] at h
    exact Nat.le_of_eq (by rw [h.2.2])

mutual

/-- A datum as a type. -/
def ofDatum (d : Datum) : Except SyntaxError Ty :=
  match d with
  | .bool b => .ok (.var (truthName b))
  | .symbol name =>
    if (markedName? name).isSome then (varName d).map .var else .ok (.con name [])
  | .list [.symbol "All", .list bound, body] => do
    let bound ← bound.mapM varName
    return .all bound (← ofDatum body)
  | .list (.symbol "Function*" :: args) =>
    match _h : options none none args with
    | .error e => .error e
    | .ok (min, max, rest) => do return .variadic min max (← ofData rest)
  | .list (.symbol tag :: args) => do return .con tag (← ofData args)
  | _ => .error (.invalidType d)
termination_by sizeOf d
decreasing_by
  · simp; omega
  · have := sizeOf_options_le _h
    simp; omega
  · simp; omega

/-- A row of data as types. -/
def ofData (ds : List Datum) : Except SyntaxError (List Ty) :=
  match ds with
  | [] => .ok []
  | d :: ds => do
    let t ← ofDatum d
    return t :: (← ofData ds)
termination_by sizeOf ds

end

/-- Reads a type from source text. -/
def read (source : String) : Except SyntaxError Ty := do ofDatum (← Datum.read source)

end SchemeTyping.Ty
