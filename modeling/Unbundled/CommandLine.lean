import Unbundled.Config.Resolve
import Unbundled.Release

/-! # The command line

The program knows two commands: `version`, which it also runs without a command, and `dev`. Options
stand before or after the command. An option with a value takes it from the same argument (`--port=80`,
`-p80`, `-p=80`) or from the next one, unless that looks like an option itself.

* `Command.parse`: the command that arguments ask for.
* `Command.run`: what the command does, given the disk.
-/

namespace Unbundled

/-- The options of `dev`, as far as they are given. -/
structure DevOptions where
  port : Option UInt16
  host : Option Text
  root : Option Text
  config : Option Text
  rewriteComponentImports : Bool
  deriving DecidableEq, Repr

/-- What the program is asked to do. -/
inductive Command
  | showVersion
  | showHelp
  | dev (workingFolder : Option Text) (options : DevOptions)
  deriving DecidableEq, Repr

namespace Command

/-! ### Options -/

/-- The options. -/
inductive OptionName
  | verbose
  | json
  | cwd
  | help
  | version
  | port
  | host
  | root
  | config
  | rewriteComponentImports
  deriving DecidableEq, Repr

/-- Where an option stands. -/
inductive Scope
  /-- Before a command. -/
  | top
  | version
  | dev
  deriving DecidableEq, Repr

namespace OptionName

/-- The long names of options. -/
def longNames : List (Text × OptionName) :=
  [("verbose".toList, verbose), ("json".toList, json), ("cwd".toList, cwd), ("help".toList, help),
    ("version".toList, version), ("port".toList, port), ("host".toList, host),
    ("root".toList, root), ("config".toList, config),
    ("rewrite-component-imports".toList, rewriteComponentImports)]

/-- The short names of options. -/
def shortNames : List (Char × OptionName) :=
  [('v', verbose), ('h', help), ('V', version), ('p', port), ('c', config)]

/-- Whether an option takes a value. -/
def takesValue : OptionName → Bool
  | cwd | port | host | root | config => true
  | _ => false

/-- Whether an option may be given more than once. -/
def isRepeatable : OptionName → Bool
  | verbose => true
  | _ => false

/-- Whether an option is known in a scope. -/
def isKnown : Scope → OptionName → Bool
  | _, verbose | _, json | _, cwd | _, help => true
  | .top, version => true
  | .dev, port | .dev, host | .dev, root | .dev, config | .dev, rewriteComponentImports => true
  | _, _ => false

end OptionName

/-- An option as given, with its value if it takes one. -/
structure Given where
  name : OptionName
  value : Text
  deriving DecidableEq, Repr

/-- Why arguments are refused. -/
inductive UsageFault
  | unknownArgument (argument : Text)
  | missingValue (name : OptionName)
  | unexpectedValue (name : OptionName)
  | repeated (name : OptionName)
  | badValue (name : OptionName) (value : Text)
  deriving DecidableEq, Repr

/-- What an argument is, in a scope. -/
inductive Argument
  /-- Options with their values, the last one perhaps waiting for the next argument. -/
  | options (given : List Given) (pending : Option OptionName)
  /-- The mark that ends the options. -/
  | endOfOptions
  | word (t : Text)
  deriving DecidableEq, Repr

/-- A long option, from the text after its dashes. -/
def readLong (scope : Scope) (t : Text) : Except UsageFault Argument :=
  let name := t.takeWhile (· ≠ '=')
  let value := (t.dropWhile (· ≠ '=')).tail?
  match OptionName.longNames.lookup name with
  | none => .error (.unknownArgument t)
  | some option =>
    if !option.isKnown scope then .error (.unknownArgument t)
    else if option.takesValue then
      match value with
      | some value => .ok (.options [⟨option, value⟩] none)
      | none => .ok (.options [] (some option))
    else if value.isSome then .error (.unexpectedValue option)
    else .ok (.options [⟨option, []⟩] none)

/-- Short options, from the text after their dash. One that takes a value takes the rest of the text,
after an equals sign if there is one. -/
def readShort (scope : Scope) : Text → Except UsageFault Argument
  | [] => .ok (.options [] none)
  | c :: t =>
    match OptionName.shortNames.lookup c with
    | none => .error (.unknownArgument (c :: t))
    | some option =>
      if !option.isKnown scope then .error (.unknownArgument (c :: t))
      else if option.takesValue then
        match t with
        | [] => .ok (.options [] (some option))
        | '=' :: value => .ok (.options [⟨option, value⟩] none)
        | value => .ok (.options [⟨option, value⟩] none)
      else if option = .help || option = .version then .ok (.options [⟨option, []⟩] none)
      else do
        match ← readShort scope t with
        | .options given pending => return .options (⟨option, []⟩ :: given) pending
        | other => return other

/-- What an argument is. -/
def readArgument (scope : Scope) (t : Text) : Except UsageFault Argument :=
  match t with
  | ['-', '-'] => .ok .endOfOptions
  | '-' :: '-' :: name => readLong scope name
  | ['-'] => .ok (.word t)
  | '-' :: names => readShort scope names
  | _ => .ok (.word t)

/-! ### Values -/

/-- The number that a text stands for: a sign or none, and digits. -/
def integer? : Text → Option Int
  | '-' :: t => (Text.nat? t).map fun n => -(n : Int)
  | '+' :: t => (Text.nat? t).map Int.ofNat
  | t => (Text.nat? t).map Int.ofNat

/-- The port that a text stands for. -/
def port? (t : Text) : Option UInt16 :=
  match integer? t with
  | some n => if 0 ≤ n ∧ n < 65536 then some (UInt16.ofNat n.toNat) else none
  | none => none

/-- Whether an option admits a value. Paths are not empty. -/
def admits (g : Given) : Bool :=
  match g.name with
  | .port => (port? g.value).isSome
  | .cwd | .root | .config => !g.value.isEmpty
  | _ => true

/-! ### Arguments -/

/-- The options of one scope. -/
structure ScopeOptions where
  scope : Scope
  given : List Given
  deriving DecidableEq, Repr

namespace ScopeOptions

/-- The value of an option. -/
def value? (s : ScopeOptions) (name : OptionName) : Option Text :=
  (s.given.find? fun g => g.name == name).map Given.value

/-- The options with one more. -/
def add (s : ScopeOptions) (g : Given) : Except UsageFault ScopeOptions :=
  if !g.name.isRepeatable && (s.value? g.name).isSome then .error (.repeated g.name)
  else if !admits g then .error (.badValue g.name g.value)
  else .ok { s with given := s.given ++ [g] }

/-- The options with some more. -/
def addAll (s : ScopeOptions) : List Given → Except UsageFault ScopeOptions
  | [] => .ok s
  | g :: gs => do (← s.add g).addAll gs

end ScopeOptions

/-- What arguments say: the options before the command, and those after it. -/
structure Parsed where
  before : ScopeOptions
  after : Option ScopeOptions
  deriving DecidableEq, Repr

namespace Parsed

/-- The scope that the next argument stands in. -/
def scope (p : Parsed) : Scope := (p.after.map ScopeOptions.scope).getD .top

/-- What arguments say, with some options more in the present scope. -/
def addAll (p : Parsed) (given : List Given) : Except UsageFault Parsed :=
  match p.after with
  | none => do return { p with before := ← p.before.addAll given }
  | some after => do return { p with after := some (← after.addAll given) }

/-- What arguments say, with a word more: the command, if there is none yet. -/
def addWord (p : Parsed) (t : Text) : Except UsageFault Parsed :=
  if p.after.isSome then .error (.unknownArgument t)
  else if t = "version".toList then .ok { p with after := some ⟨.version, []⟩ }
  else if t = "dev".toList then .ok { p with after := some ⟨.dev, []⟩ }
  else .error (.unknownArgument t)

end Parsed

/-- How the reading of arguments ends. -/
inductive Reading
  | complete (p : Parsed)
  /-- The option was met that asks for this, whatever follows it. -/
  | stopped (c : Command)

/-- The command that an option asks for at once. -/
def immediate? (given : List Given) : Option Command :=
  given.findSome? fun g =>
    match g.name with
    | .version => some .showVersion
    | .help => some .showHelp
    | _ => none

/-- The words that `help` may be asked about. -/
def helpTopics : List Text := ["version", "dev", "help"].map String.toList

/-- The command that `help` and the arguments after it ask for. -/
def askHelp : List Text → Except UsageFault Command
  | [] => .ok .showHelp
  | [t] => if helpTopics.contains t then .ok .showHelp else .error (.unknownArgument t)
  | _ :: t :: _ => .error (.unknownArgument t)

/-- Reads arguments. `pending` is the option that waits for its value. -/
def read (p : Parsed) (pending : Option OptionName) : List Text → Except UsageFault Reading
  | [] =>
    match pending with
    | some name => .error (.missingValue name)
    | none => .ok (.complete p)
  | t :: ts => do
    match ← readArgument p.scope t, pending with
    | .word t, some name => read (← p.addAll [⟨name, t⟩]) none ts
    | _, some name => .error (.missingValue name)
    | .word t, none =>
      if p.after.isNone && t = "help".toList then return .stopped (← askHelp ts)
      else read (← p.addWord t) none ts
    | .endOfOptions, none =>
      match ts with
      | [] => return .complete p
      | t :: _ => .error (.unknownArgument t)
    | .options given pending, none =>
      match immediate? given with
      | some command => return .stopped command
      | none => read (← p.addAll given) pending ts

/-- The port of `dev`: the one given, or else the one of the environment. -/
def portOf (options : ScopeOptions) (environment : Option Text) :
    Except UsageFault (Option UInt16) :=
  match options.value? .port <|> environment with
  | none => .ok none
  | some value =>
    match port? value with
    | some port => .ok (some port)
    | none => .error (.badValue .port value)

/-- **The command that arguments ask for.** `portVariable` is the port that the environment names. -/
def parse (portVariable : Option Text) (arguments : List Text) : Except UsageFault Command := do
  match ← read ⟨⟨.top, []⟩, none⟩ none arguments with
  | .stopped command => return command
  | .complete p =>
    match p.after with
    | some options =>
      if options.scope = .dev then
        return .dev (options.value? .cwd <|> p.before.value? .cwd)
          ⟨← portOf options portVariable, options.value? .host, options.value? .root,
            options.value? .config, (options.value? .rewriteComponentImports).isSome⟩
      else return .showVersion
    | none => return .showVersion

/-! ### Running -/

/-- What the program does in the end. -/
inductive Result
  /-- Prints a text and ends with a code. -/
  | ended (code : Nat) (output : Text)
  /-- Ends because of a failure. -/
  | failed (fault : Fault)
  /-- Ends because of its arguments. -/
  | refused (fault : UsageFault)
  /-- Serves requests. -/
  | serving (settings : Settings)

/-- What the program prints about its arguments. -/
def usage : Text :=
  "Usage: minivite [-v] [--json] [--cwd PATH] [version | dev [--port PORT] [--host HOST] [--root DIR] [--config FILE] [--rewrite-component-imports]]\n".toList

/-- The settings choices that the options of `dev` make. Paths are taken from the working folder. -/
def choices (workingFolder : Path) (options : DevOptions) : Choices where
  workingFolder := workingFolder
  root := options.root.map workingFolder.join
  port := options.port
  host := options.host
  config := options.config.map workingFolder.join
  rewriteComponentImports := options.rewriteComponentImports

/-- What a command does. -/
def run (disk : Disk) : Command → Result
  | showVersion => .ended 0 (Release.description none ++ ['\n'])
  | showHelp => .ended 0 usage
  | dev workingFolder options =>
    let folder := (workingFolder.map Path.mk).getD (Disk.pathOf disk.workingFolder)
    match (choices folder options).resolve disk with
    | .ok settings => .serving settings
    | .error fault => .failed fault

/-- **What the program does**, given the disk, the port of the environment and the arguments. -/
def execute (disk : Disk) (portVariable : Option Text) (arguments : List Text) : Result :=
  match parse portVariable arguments with
  | .ok command => command.run disk
  | .error fault => .refused fault

/-- The code that the program ends with. -/
def Result.exitCode : Result → Nat
  | ended code _ => code
  | failed _ => 1
  | refused _ => 2
  | serving _ => 0

/-- What the program prints when it starts to serve. -/
def banner (s : Settings) : Text :=
  "\n  Dev server running at http://".toList ++ s.address ++ "\n  Serving ".toList ++
    s.root.text ++ "\n\n  Press Ctrl+C to stop\n\n".toList

/-- What the program prints to standard output. -/
def Result.output : Result → Text
  | ended _ output => output
  | serving settings => banner settings
  | _ => []

end Command

end Unbundled
