import SchemeTyping.Inference.Rules

/-!
# Programs

A program is a row of forms, each of which sees the definitions before it.  The type variables of a
definition are quantified, so that every use of its name takes new ones.
-/

set_option autoImplicit false

namespace SchemeTyping.Infer

/-- A type with its free variables quantified, so that every use takes new ones. -/
def quantified (t : Ty) : Ty :=
  match sortedNames t.freeVars with
  | [] => t
  | names => .all names t

/-- The environment after a form: a definition makes its name known. -/
def afterForm (env : Env) (root : Expr) (type : Ty) : Infer Env :=
  match root with
  | .define name _ =>
    if name.isHole then pure env
    else do return env.insert (← identifier name) (quantified type)
  | _ => pure env

/-- The types of the forms of a program, each definition visible to the forms after it. -/
def inferProgram (env : Env) (trees : List Tree) : Infer (List Ty) :=
  match trees with
  | [] => return []
  | tree :: trees => do
    let type ← inferTree env tree
    let env ← afterForm env tree.root type
    return type :: (← inferProgram env trees)

/-- Runs an inference from the beginning. -/
def runNew {α : Type} (m : Infer α) : Except Failure α × InferenceState := m.run .initial

/-- Why the forms of a source text have no types. -/
inductive ProgramError
  | source (error : SyntaxError)
  | typing (failure : Failure)
  deriving Inhabited

/-- The message for an error. -/
def ProgramError.message : ProgramError → String
  | .source e => e.message
  | .typing f => f.message

/-- Infers the types of the forms of a source text. -/
def inferSource (env : Env) (source : String) : Except ProgramError (List (Tree × Ty)) := do
  let trees ← (Tree.readAll 1 source).mapError .source
  let types ← (runNew (inferProgram env trees)).1.mapError .typing
  return trees.zip types

/-- A report on a program: a line for every form, or the reason why it fails. -/
def report (env : Env) (source : String) : String :=
  match inferSource env source with
  | .ok forms =>
    "Inferred types:\n" ++ String.join (forms.map fun (tree, t) ↦
      "  " ++ tree.root.text ++ " :: " ++ t.text ++ "\n")
  | .error e => "Type checking failed: " ++ e.message

end SchemeTyping.Infer
