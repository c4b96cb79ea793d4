import StyleHoist.Extraction.Sweep
import StyleHoist.Stylesheet.Rewrite
import StyleHoist.Files.FileAccess

/-!
Converting a document file: its inline styles move into a stylesheet beside it.  All that is
decided about a document is decided by its text (`plan`); the files are read before and written
after, first the document and then the stylesheet.
-/

set_option autoImplicit false
set_option relaxedAutoImplicit false

namespace StyleHoist

namespace Conversion

structure Options where
  /-- Where the document is written, if not in its own place. -/
  output : Option Path
  /-- Where the stylesheet is written, if not beside the document. -/
  stylesheet : Option Path
  /-- What generated class names start with; nothing, if it is empty. -/
  scope : Bytes
  mode : Mode
  /-- Whether a file of any extension is taken for a document. -/
  force : Bool
  dryRun : Bool
  deriving DecidableEq

inductive Error where
  | read (path : Path) (fault : Fault)
  | write (path : Path) (fault : Fault)
  | notHtml (path : Path)
  | scan (error : ScanError)
  | rewrite (error : RewriteError)
  deriving DecidableEq

def Error.message : Error → Bytes
  | read path _ => utf8 "failed to read " ++ path
  | write path _ => utf8 "failed to write " ++ path
  | notHtml path => path ++ utf8 " is not an HTML document"
  | scan error => error.message
  | rewrite error => error.message

def Error.fault? : Error → Option Fault
  | read _ fault => some fault
  | write _ fault => some fault
  | _ => none

/-- A document rewritten, and where it and its stylesheet belong. -/
structure Product where
  records : List Record
  rewrite : Rewrite
  htmlPath : Path
  stylesheetPath : Path
  deriving DecidableEq

inductive Outcome where
  | noInlineStyles
  | converted (product : Product)
  deriving DecidableEq

structure Result where
  reports : List Report
  outcome : Except Error Outcome

/-- The conversion of a document with a text, as far as no file is written. -/
def plan (options : Options) (stamp : Stamp) (path : Path) (text : Bytes) : Result :=
  let scanned := scan options.mode stamp text
  let outcome : Except Error Outcome := do
    let marked ← scanned.marked.mapError .scan
    if scanned.records = [] then return .noInlineStyles
    let rewrite ← (rewrite options.scope marked scanned.records).mapError .rewrite
    return .converted {
      records := scanned.records
      rewrite
      htmlPath := options.output.getD path
      stylesheetPath := options.stylesheet.getD path.stylesheet }
  ⟨scanned.reports, outcome⟩

variable {m : Type → Type} [Monad m] [FileAccess m]

/-- The text of a file without its carriage returns. -/
def load (path : Path) : m (Except Error Bytes) := do
  match ← FileAccess.read path with
  | .error fault => return .error (.read path fault)
  | .ok content =>
    if (Utf8.decode? content).isNone then return .error (.read path .malformedText)
    return .ok (content.filter (· != Ascii.carriageReturn))

def store (path : Path) (content : Bytes) : m (Except Error Unit) := do
  match ← FileAccess.write path content with
  | .error fault => return .error (.write path fault)
  | .ok () => return .ok ()

/-- Writes the document and then the stylesheet. -/
def Product.store (product : Product) : m (Except Error Unit) := do
  match ← Conversion.store product.htmlPath product.rewrite.html with
  | .error error => return .error error
  | .ok () => Conversion.store product.stylesheetPath product.rewrite.css

def Result.carryOut (options : Options) (result : Result) : m Result := do
  match result.outcome with
  | .ok (.converted product) =>
    if options.dryRun then return result
    match ← product.store with
    | .error error => return { result with outcome := .error error }
    | .ok () => return result
  | _ => return result

/-- Converts the file at a path, with the stamp that is chosen for its text. -/
def convert (stampFor : Bytes → Stamp) (options : Options) (path : Path) : m Result := do
  if !options.force && !path.isHtml then return ⟨[], .error (.notHtml path)⟩
  match ← load path with
  | .error error => return ⟨[], .error error⟩
  | .ok text => (plan options (stampFor text) path text).carryOut options

end Conversion

end StyleHoist
