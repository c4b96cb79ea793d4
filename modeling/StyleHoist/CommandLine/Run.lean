import StyleHoist.CommandLine.Arguments

/-!
Running a command line: what is printed and the code that the program ends with.  The code is zero
for a success, one for a conversion that fails and two for arguments that make no sense.
-/

set_option autoImplicit false
set_option relaxedAutoImplicit false

namespace StyleHoist.CommandLine

/-- What a run of the program leaves behind besides files. -/
structure Response where
  code : Nat
  output : Bytes
  errors : Bytes
  deriving DecidableEq

def versionText : Bytes := utf8 "inlinecss 0.1.0\n"

def helpLines : List String :=
  ["Move inline style attributes of an HTML document into a stylesheet.", "",
    "Usage: inlinecss [OPTIONS] <INPUT> [OUTPUT]", "",
    "Arguments:",
    "  <INPUT>   input file",
    "  [OUTPUT]  output file (default: overwrite the input)", "",
    "Options:",
    "      --css <CSS>        stylesheet (default: input name up to its first '.', plus .css)",
    "      --prefix <PREFIX>  start of generated class names",
    "      --strict           treat tags that never close as errors",
    "      --force            convert a file of any extension",
    "      --dry-run          print the stylesheet and write nothing",
    "  -v, --verbose          log more",
    "  -q, --quiet            log less",
    "  -h, --help             print this help",
    "  -V, --version          print the version"]

def helpText : Bytes := helpLines.flatMap fun line => utf8 line ++ [Ascii.lineFeed]

def UsageError.message : UsageError → Bytes
  | unknownOption option => utf8 "unexpected argument '" ++ option ++ utf8 "' found"
  | repeated option => utf8 "the argument '" ++ option ++ utf8 "' cannot be used multiple times"
  | unexpectedValue option => utf8 "unexpected value in '" ++ option ++ utf8 "'"
  | missingValue option => utf8 "a value is required for '" ++ option ++ utf8 "'"
  | emptyPath => utf8 "a path is empty"
  | unexpectedArgument argument => utf8 "unexpected argument '" ++ argument ++ utf8 "' found"
  | missingInput => utf8 "no input file is given"
  | conflict => utf8 "the argument '--verbose' cannot be used with '--quiet'"

/-- A text whose further lines are indented. -/
def indentLines (width : Nat) (s : Bytes) : Bytes :=
  s.flatMap fun b =>
    if b = Ascii.lineFeed then b :: List.replicate width Ascii.space else [b]

/-- The causes of an error.  Two causes are numbered and one is not. -/
def causes (error : Conversion.Error) : Bytes :=
  match error.fault? with
  | none => utf8 "    " ++ indentLines 4 error.message ++ utf8 "\n"
  | some fault =>
    utf8 "    0: " ++ indentLines 7 error.message ++ utf8 "\n" ++
      utf8 "    1: " ++ indentLines 7 fault.message ++ utf8 "\n"

def failure (input : Path) (error : Conversion.Error) : Bytes :=
  utf8 "Error: failed to convert " ++ input ++ utf8 "\n\nCaused by:\n" ++ causes error

def summary (product : Conversion.Product) : Bytes :=
  utf8 "Moved " ++ Numeral.decimal product.records.length ++ utf8 " inline style(s): " ++
    product.htmlPath ++ utf8 " -> " ++ product.stylesheetPath ++ utf8 "\n"

def respond (input : Path) (options : Conversion.Options) (result : Conversion.Result) :
    Response :=
  match result.outcome with
  | .error error => ⟨1, [], failure input error⟩
  | .ok .noInlineStyles => ⟨0, utf8 "Not found inline css.\n", []⟩
  | .ok (.converted product) =>
    ⟨0, if options.dryRun then product.rewrite.css else summary product, []⟩

variable {m : Type → Type} [Monad m] [FileAccess m]

/-- Runs a command line without the name of the program. -/
def run (stampFor : Bytes → Stamp) (arguments : List Bytes) : m Response := do
  match parse arguments with
  | .error error => return ⟨2, [], utf8 "error: " ++ error.message ++ utf8 "\n"⟩
  | .ok .version => return ⟨0, versionText, []⟩
  | .ok .help => return ⟨0, helpText, []⟩
  | .ok (.convert input options) =>
    return respond input options (← Conversion.convert stampFor options input)

end StyleHoist.CommandLine
