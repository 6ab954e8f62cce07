import SchemeTyping.CommandLine.Arguments
import SchemeTyping.CommandLine.Console
import SchemeTyping.Inference.Program
import SchemeTyping.Prelude
import SchemeTyping.Text.Newline
import SchemeTyping.Workspace

/-!
# Running a command

What a command prints and the code it ends with: zero when all is well, one when a program has type
errors, two when the command or the source text cannot be understood.
-/

set_option autoImplicit false

namespace SchemeTyping.CommandLine

/-- The end of a command. -/
structure Outcome where
  exit : Nat
  lines : List String
  /-- A failure that the command was not made for. -/
  uncaught : Option Failure := none
  deriving DecidableEq, Repr, Inhabited

/-- An outcome with these texts printed. -/
def Outcome.printing (exit : Nat) (texts : List String) : Outcome :=
  { exit, lines := texts.flatMap Console.display }

/-- Source text that cannot be understood. -/
def syntaxFailure (e : SyntaxError) : Outcome := .printing 2 ["Syntax error: " ++ e.message]

/-- The types of names that a program starts from. -/
def startEnv (builtIns : Bool) : Env := if builtIns then Prelude.env else ∅

/-- A program for which no type was found. -/
def inferenceFailure (printed : List String) (failure : Failure) : Outcome :=
  if failure.isTyping then
    .printing 1 (printed ++ ["Type inference failed: " ++ failure.describe])
  else { Outcome.printing 1 printed with uncaught := some failure }

/-- Infers the type at a path of every tree, up to the first that fails. -/
def inferPaths (env : Env) (pathText : String) (path : Path) :
    List Tree → List String → Outcome
  | [], printed => .printing 0 printed
  | tree :: trees, printed =>
    match (Infer.runNew (Infer.inferAt env tree path)).1 with
    | .error failure => inferenceFailure printed failure
    | .ok t =>
      inferPaths env pathText path trees
        (printed ++ [tree.root.text ++ " @ " ++ pathText ++ " :: " ++ t.text])

/-- The command `infer`. -/
def runInfer (source pathText : String) (builtIns : Bool) : Outcome :=
  match Tree.readAll 1 source with
  | .error e => syntaxFailure e
  | .ok trees =>
    let env := startEnv builtIns
    if pathText.isEmpty then
      match (Infer.runNew (Infer.inferProgram env trees)).1 with
      | .error failure => inferenceFailure [] failure
      | .ok types =>
        .printing 0 ((trees.zip types).map fun (tree, t) ↦ tree.root.text ++ " :: " ++ t.text)
    else
      match path? pathText with
      | none => .printing 2 []
      | some path => inferPaths env pathText path trees []

/-- The type of every tree, and the workspace with the diagnostics. -/
def checkTrees : Workspace → List Tree → List (Tree × Ty) × Workspace
  | w, [] => ([], w)
  | w, tree :: trees =>
    let (result, w) := w.checkAt tree [] none
    let (rest, w) := checkTrees w trees
    ((tree, result.toOption.getD Ty.untyped) :: rest, w)

/-- Where a diagnostic stands. -/
def locationText (path : Path) : String :=
  if path.isEmpty then "root" else ".".intercalate (path.map toString)

/-- The command `check`. -/
def runCheck (source : String) (builtIns : Bool) : Outcome :=
  match (Workspace.new (startEnv builtIns) false).addSource source with
  | (.error e, _) => syntaxFailure e
  | (.ok trees, w) =>
    let (types, w) := checkTrees w.addDefines.2 trees
    let typeLines := types.map fun (tree, t) ↦ tree.root.text ++ " :: " ++ t.pretty
    let errorLines := w.checker.errors.entries.map fun (place, d) ↦
      treeName place.tree ++ " @ " ++ locationText place.path ++ ": " ++ d.describe
    if errorLines.isEmpty then .printing 0 (typeLines ++ ["Type checking succeeded"])
    else .printing 1 (typeLines ++ errorLines)

/-- The command `parse-type`. -/
def runParseType (text : String) : Outcome :=
  match Ty.read text with
  | .error e => syntaxFailure e
  | .ok t => .printing 0 [t.text, t.pretty]

/-- How the program is used. -/
def usage : List String :=
  ["Usage: infer [--path PATH] [--prelude | --no-prelude] [--verbose] SOURCE",
   "       check [--prelude | --no-prelude] [--verbose] SOURCE",
   "       parse-type TEXT"]

/-- The argument that may be the name of a file. -/
def Invocation.source? : Invocation → Option String
  | .infer source _ _ => some source
  | .check source _ => some source
  | _ => none

/-- Runs a command.  `file` is the contents of the file that its source names, if there is such a
file; otherwise the source is the program itself. -/
def Invocation.run (file : Option String) : Invocation → Outcome
  | .infer source path builtIns => runInfer ((file.map Text.ofFile).getD source) path builtIns
  | .check source builtIns => runCheck ((file.map Text.ofFile).getD source) builtIns
  | .parseType text => runParseType text
  | .help => { exit := 0, lines := usage }
  | .misuse => .printing 2 []

end SchemeTyping.CommandLine
