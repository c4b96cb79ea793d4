import StyleHoist.Conversion

/-!
The arguments of the command line.  They are read from left to right.  A request for the version or
the help is met as soon as it is reached, before the arguments behind it are looked at; what
concerns all arguments together is checked at the end.
-/

set_option autoImplicit false
set_option relaxedAutoImplicit false

namespace StyleHoist.CommandLine

inductive Flag where
  | strict
  | force
  | dryRun
  | verbose
  | quiet
  deriving DecidableEq

inductive Setting where
  | stylesheet
  | scope
  deriving DecidableEq

inductive Meaning where
  | flag (flag : Flag)
  | setting (setting : Setting)
  | version
  | help
  deriving DecidableEq

inductive UsageError where
  | unknownOption (option : Bytes)
  | repeated (option : Bytes)
  | unexpectedValue (option : Bytes)
  | missingValue (option : Bytes)
  | emptyPath
  | unexpectedArgument (argument : Bytes)
  | missingInput
  /-- Both more and less logging. -/
  | conflict
  deriving DecidableEq

structure Arguments where
  flags : List Flag
  stylesheet : Option Path
  scope : Option Bytes
  /-- The input and the output, in this order. -/
  paths : List Path
  deriving DecidableEq

inductive Request where
  | version
  | help
  | convert (input : Path) (options : Conversion.Options)
  deriving DecidableEq

inductive Stop where
  | request (request : Request)
  | error (error : UsageError)
  deriving DecidableEq

def longMeaning? (name : Bytes) : Option Meaning :=
  [(utf8 "strict", .flag .strict), (utf8 "force", .flag .force), (utf8 "dry-run", .flag .dryRun),
    (utf8 "verbose", .flag .verbose), (utf8 "quiet", .flag .quiet),
    (utf8 "css", .setting .stylesheet), (utf8 "prefix", .setting .scope),
    (utf8 "version", .version), (utf8 "help", .help)].lookup name

def shortMeaning? (name : UInt8) : Option Meaning :=
  [(0x76, .flag .verbose), (0x71, .flag .quiet), (0x56, .version), (0x68, .help)].lookup name

/-- Whether an argument is an option and not a value.  A hyphen alone is a value. -/
def isOption (argument : Bytes) : Bool :=
  argument.head? == some Ascii.hyphen && argument != [Ascii.hyphen]

namespace Arguments

def none : Arguments := ⟨[], .none, .none, []⟩

def addFlag (option : Bytes) (flag : Flag) (arguments : Arguments) : Except Stop Arguments :=
  if flag ∈ arguments.flags then .error (.error (.repeated option))
  else .ok { arguments with flags := arguments.flags ++ [flag] }

def addSetting (option : Bytes) (setting : Setting) (value : Bytes) (arguments : Arguments) :
    Except Stop Arguments :=
  match setting with
  | .stylesheet =>
    if arguments.stylesheet.isSome then .error (.error (.repeated option))
    else if value = [] then .error (.error .emptyPath)
    else .ok { arguments with stylesheet := value }
  | .scope =>
    if arguments.scope.isSome then .error (.error (.repeated option))
    else .ok { arguments with scope := value }

def addPath (path : Path) (arguments : Arguments) : Except Stop Arguments :=
  if arguments.paths.length = 2 then .error (.error (.unexpectedArgument path))
  else if path = [] then .error (.error .emptyPath)
  else .ok { arguments with paths := arguments.paths ++ [path] }

/-- Reads the letters behind a single hyphen. -/
def addLetters (arguments : Arguments) : Bytes → Except Stop Arguments
  | [] => .ok arguments
  | letter :: letters =>
    match shortMeaning? letter with
    | some (.flag flag) =>
      match arguments.addFlag [Ascii.hyphen, letter] flag with
      | .error stop => .error stop
      | .ok arguments => addLetters arguments letters
    | some .version => .error (.request .version)
    | some .help => .error (.request .help)
    | _ => .error (.error (.unknownOption [Ascii.hyphen, letter]))

/-- Reads arguments.  A value may be joined to its option by an equals sign, and only then may it
start with a hyphen.  After `--` every argument is a path. -/
def add (arguments : Arguments) : List Bytes → Except Stop Arguments
  | [] => .ok arguments
  | argument :: rest =>
    if argument = utf8 "--" then
      rest.foldlM (fun arguments path => arguments.addPath path) arguments
    else if (utf8 "--").isPrefixOf argument then
      let name := (argument.drop 2).takeWhile (· != Ascii.equals)
      let joined := ((argument.drop 2).dropWhile (· != Ascii.equals)).tail?
      match longMeaning? name, joined, rest with
      | .none, _, _ => .error (.error (.unknownOption argument))
      | some (.flag flag), .none, rest =>
        match arguments.addFlag argument flag with
        | .error stop => .error stop
        | .ok arguments => add arguments rest
      | some .version, .none, _ => .error (.request .version)
      | some .help, .none, _ => .error (.request .help)
      | some (.setting setting), some value, rest =>
        match arguments.addSetting argument setting value with
        | .error stop => .error stop
        | .ok arguments => add arguments rest
      | some (.setting setting), .none, value :: rest =>
        if isOption value then .error (.error (.missingValue argument))
        else
          match arguments.addSetting argument setting value with
          | .error stop => .error stop
          | .ok arguments => add arguments rest
      | some (.setting _), .none, [] => .error (.error (.missingValue argument))
      | _, some _, _ => .error (.error (.unexpectedValue argument))
    else if isOption argument then
      match arguments.addLetters (argument.drop 1) with
      | .error stop => .error stop
      | .ok arguments => add arguments rest
    else
      match arguments.addPath argument with
      | .error stop => .error stop
      | .ok arguments => add arguments rest

def request (arguments : Arguments) : Except UsageError Request :=
  if .verbose ∈ arguments.flags ∧ .quiet ∈ arguments.flags then .error .conflict
  else
    match arguments.paths with
    | [] => .error .missingInput
    | input :: output => .ok <| .convert input {
        output := output.head?
        stylesheet := arguments.stylesheet
        scope := arguments.scope.getD []
        mode := if .strict ∈ arguments.flags then .strict else .permissive
        force := .force ∈ arguments.flags
        dryRun := .dryRun ∈ arguments.flags }

end Arguments

/-- What a command line without the name of the program asks for. -/
def parse (arguments : List Bytes) : Except UsageError Request :=
  match Arguments.none.add arguments with
  | .error (.request request) => .ok request
  | .error (.error error) => .error error
  | .ok arguments => arguments.request

end StyleHoist.CommandLine
