import SchemeTyping.Text.Blank
import SchemeTyping.Text.Digit

/-!
# Command-line arguments

The commands are `infer`, `check` and `parse-type`.  Options and other arguments may come in any
order; two dashes end the options.  A short option may share its word with others, and an option
with a value takes the rest of its word or the next word.

Whether the built-in procedures are available and whether steps are logged can also be set by
environment variables, which count when the command line says nothing.  Logging does not change
what a command prints, so an invocation does not say whether it is wanted.
-/

set_option autoImplicit false

namespace SchemeTyping.CommandLine

/-- What can be asked for. -/
inductive Command
  | infer
  | check
  | parseType
  deriving DecidableEq, Repr, Inhabited

namespace Command

/-- The command of a name. -/
def ofName? : String → Option Command
  | "infer" => some .infer
  | "check" => some .check
  | "parse-type" => some .parseType
  | _ => none

end Command

/-- The options. -/
inductive Switch
  | path
  | prelude
  | noPrelude
  | verbose
  | help
  deriving DecidableEq, Repr, Inhabited

namespace Switch

/-- Whether a command has an option. -/
def isOf (command : Command) : Switch → Bool
  | .help => true
  | .path => command = .infer
  | _ => command ≠ .parseType

/-- Whether an option is followed by a value. -/
def takesValue (o : Switch) : Bool := o = .path

/-- The long options of a command. -/
def ofLong? (command : Command) (word : String) : Option Switch :=
  let found : Option Switch :=
    match word with
    | "--path" => some .path
    | "--prelude" => some .prelude
    | "--no-prelude" => some .noPrelude
    | "--verbose" => some .verbose
    | "--help" => some .help
    | _ => none
  found.filter (isOf command)

/-- The short options of a command. -/
def ofShort? (command : Command) (c : Char) : Option Switch :=
  let found : Option Switch :=
    match c with
    | 'p' => some .path
    | 'v' => some .verbose
    | _ => none
  found.filter (isOf command)

end Switch

/-- Arguments taken apart: options with their values in order, and the other arguments. -/
structure Parsed where
  options : List (Switch × String)
  others : List String
  deriving Repr, Inhabited

/-- Puts an option in front. -/
def Parsed.withOption (o : Switch) (value : String) (p : Parsed) : Parsed :=
  { p with options := (o, value) :: p.options }

/-- Puts another argument in front. -/
def Parsed.withOther (word : String) (p : Parsed) : Parsed :=
  { p with others := word :: p.others }

/-- What a word that begins with a dash says. -/
inductive Word
  /-- Complete options. -/
  | done (options : List (Switch × String))
  /-- Complete options, then one whose value is the next word. -/
  | needsValue (options : List (Switch × String)) (last : Switch)
  | unknown
  deriving Repr, Inhabited

/-- A row of short options. -/
def shortOptions (command : Command) : List Char → Word
  | [] => .done []
  | c :: cs =>
    match Switch.ofShort? command c with
    | none => .unknown
    | some o =>
      if o.takesValue then
        if cs.isEmpty then .needsValue [] o else .done [(o, String.ofList cs)]
      else
        match shortOptions command cs with
        | .done os => .done ((o, "") :: os)
        | .needsValue os last => .needsValue ((o, "") :: os) last
        | .unknown => .unknown

/-- Understands a word that begins with a dash.  The part before an equals sign is first tried as a
long option. -/
def readWord (command : Command) (word : String) : Word :=
  let cs := word.toList
  let key := cs.takeWhile (· != '=')
  let attached := cs.drop (key.length + 1)
  let hasValue := key.length < cs.length
  match Switch.ofLong? command (String.ofList key) with
  | some o =>
    if o.takesValue then
      if hasValue then .done [(o, String.ofList attached)] else .needsValue [] o
    else if hasValue then .unknown
    else .done [(o, "")]
  | none => if cs.take 2 == ['-', '-'] then .unknown else shortOptions command (cs.drop 1)

/-- Takes the arguments of a command apart; `none` when they cannot be understood. -/
def parseWords (command : Command) : List String → Option Parsed
  | [] => some ⟨[], []⟩
  | "--" :: rest => some ⟨[], rest⟩
  | word :: rest =>
    if word.startsWith "-" && word.length > 1 then
      match readWord command word with
      | .unknown => none
      | .done os =>
        (parseWords command rest).map fun p ↦ os.foldr (fun o p ↦ p.withOption o.1 o.2) p
      | .needsValue os last =>
        match rest with
        | [] => none
        | value :: rest =>
          (parseWords command rest).map fun p ↦
            os.foldr (fun o p ↦ p.withOption o.1 o.2) (p.withOption last value)
    else (parseWords command rest).map (·.withOther word)

/-! ## Values -/

/-- A truth value in an environment variable.  Blanks around it do not matter, nor does case, and
nothing but blanks is false. -/
def truth? (text : String) : Option Bool :=
  let cs := (text.toList.dropWhile Text.isBlank).reverse.dropWhile Text.isBlank
  match String.ofList (cs.reverse.map Char.toLower) with
  | "1" | "true" | "t" | "yes" | "y" | "on" => some true
  | "0" | "false" | "f" | "no" | "n" | "off" | "" => some false
  | _ => none

/-- Digits of which neighbours may be divided by a single underscore. -/
def groupedDigits? : List Char → Option (List Char)
  | [] => none
  | [c] => if Text.isDigit c then some [c] else none
  | c :: '_' :: cs => if Text.isDigit c then (groupedDigits? cs).map (c :: ·) else none
  | c :: cs => if Text.isDigit c then (groupedDigits? cs).map (c :: ·) else none

/-- An index as it may be written in a path: with blanks around it, a sign and underscores between
digits, and no more than 4300 digits. -/
def index? (text : List Char) : Option Int :=
  let cs := ((text.dropWhile Text.isBlank).reverse.dropWhile Text.isBlank).reverse
  let negative := cs.head? == some '-'
  let digits := if negative || cs.head? == some '+' then cs.drop 1 else cs
  match groupedDigits? digits with
  | none => none
  | some ds =>
    if ds.length ≤ 4300 then
      let n : Int := Text.digitsValue ds
      some (if negative then -n else n)
    else none

/-- A path: indices divided by points, of which there may be too many. -/
def path? (text : String) : Option (List Int) :=
  ((text.splitOn ".").filter (· != "")).mapM fun part ↦ index? part.toList

/-! ## Invocations -/

/-- A command with everything it needs. -/
inductive Invocation
  | infer (source path : String) (builtIns : Bool)
  | check (source : String) (builtIns : Bool)
  | parseType (text : String)
  | help
  | misuse
  deriving DecidableEq, Repr, Inhabited

/-- The last value of an option. -/
def lastValue? (os : List (Switch × String)) (o : Switch) : Option String :=
  ((os.filter (·.1 = o)).getLast?).map (·.2)

/-- A flag: what the command line says last, else what the environment variable says if it is not
empty, else the default.  `none` when the variable cannot be understood. -/
def flag? (said : Option Bool) (setting : Option String) (default : Bool) : Option Bool :=
  match said, setting with
  | some b, _ => some b
  | none, some text => if text.isEmpty then some default else truth? text
  | none, none => some default

/-- Whether the command line says anything of the built-in procedures. -/
def saidPrelude (os : List (Switch × String)) : Option Bool :=
  ((os.filter fun o ↦ o.1 = .prelude || o.1 = .noPrelude).getLast?).map fun o ↦ o.1 = .prelude

/-- Understands the arguments of a command. -/
def invocation (command : Command) (env : String → Option String) (words : List String) :
    Invocation :=
  match parseWords command words with
  | none => .misuse
  | some p =>
    if p.options.any (·.1 = .help) then .help
    else
      match command, p.others with
      | .parseType, [text] => .parseType text
      | .infer, [source] =>
        match flag? (saidPrelude p.options) (env "BLOCKSCHEME_PRELUDE") true,
          flag? ((lastValue? p.options .verbose).map fun _ ↦ true) (env "BLOCKSCHEME_VERBOSE")
            false with
        | some builtIns, some _ =>
          .infer source ((lastValue? p.options .path).getD "") builtIns
        | _, _ => .misuse
      | .check, [source] =>
        match flag? (saidPrelude p.options) (env "BLOCKSCHEME_PRELUDE") true,
          flag? ((lastValue? p.options .verbose).map fun _ ↦ true) (env "BLOCKSCHEME_VERBOSE")
            false with
        | some builtIns, some _ => .check source builtIns
        | _, _ => .misuse
      | _, _ => .misuse

/-- Understands a whole command line: the name of a command and its arguments. -/
def parse (env : String → Option String) : List String → Invocation
  | "--help" :: _ => .help
  | "--" :: name :: words | name :: words =>
    match Command.ofName? name with
    | some command => invocation command env words
    | none => .misuse
  | [] => .misuse

end SchemeTyping.CommandLine
