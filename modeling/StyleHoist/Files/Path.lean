import StyleHoist.Unicode.Utf8
import StyleHoist.Ascii

/-!
Paths of files as bytes.  A path is a chain of components with slashes between them.  Repeated and
trailing slashes and the component `.` add nothing, except that a leading `.` is a component.  The
component `..` is no file name.  Where a name is read as a text, it is repaired first.
-/

set_option autoImplicit false
set_option relaxedAutoImplicit false

namespace StyleHoist

open Ascii

abbrev Path := Bytes

namespace Path

/-- Whether the part between two slashes adds nothing to a path. -/
def isIdle (part : Bytes) : Bool := part == [] || part == [dot]

/-- The parts of a path without those at its end that add nothing, the last part first. -/
def significantParts (p : Path) : List Bytes := (p.splitOn slash).reverse.dropWhile isIdle

def fileName? (p : Path) : Option Bytes :=
  match significantParts p with
  | [] => none
  | part :: _ => if part = [dot, dot] then none else some part

/-- The text of a path whose parts are given, the last part first. -/
def ofParts (parts : List Bytes) : Path := Bytes.join [slash] parts.reverse

/-- What stands before the last component and the slashes in front of it.  A leading slash and a
leading `.` stay. -/
def parent (p : Path) : Path :=
  let before := (significantParts p).drop 1
  match before.dropWhile isIdle with
  | [] =>
    match before.getLast? with
    | none => []
    | some lead => if lead = [] then [slash] else lead
  | parts => ofParts parts

def child (p : Path) (name : Bytes) : Path :=
  if p = [] ∨ p.getLast? = some slash then p ++ name else p ++ slash :: name

/-- The path of a file beside the one that a path names, or of a file in the directory that it
names otherwise. -/
def withFileName (p : Path) (name : Bytes) : Path :=
  match fileName? p with
  | none => p.child name
  | some _ => p.parent.child name

/-- A file name cut at its last dot, unless that dot comes first. -/
def splitName (name : Bytes) : Bytes × Option Bytes :=
  let extension := (name.reverse.takeWhile (· != dot)).reverse
  let before := name.reverse.drop (extension.length + 1) |>.reverse
  if before = [] then (name, none) else (before, some extension)

def stem? (p : Path) : Option Bytes := p.fileName?.map fun name => (splitName name).1

def extension? (p : Path) : Option Bytes := p.fileName?.bind fun name => (splitName name).2

def htmlExtensions : List Bytes :=
  [utf8 "html", utf8 "htm", utf8 "xhtml", utf8 "shtml", utf8 "cshtml", utf8 "aspx"]

def isHtml (p : Path) : Bool :=
  match p.extension? with
  | none => false
  | some extension => htmlExtensions.any (sameIgnoringCase (Utf8.repaired extension) ·)

/-- The name that a stylesheet takes from a document: its file name up to the first dot, or what
follows the leading dots of its stem. -/
def stylesheetBase (p : Path) : Bytes :=
  let base := (Utf8.repaired (p.fileName?.getD [])).takeWhile (· != dot)
  let stem := (Utf8.repaired (p.stem?.getD [])).dropWhile (· == dot)
  if base ≠ [] then base else if stem ≠ [] then stem else utf8 "styles"

/-- Where the stylesheet of a document is written: beside the document. -/
def stylesheet (p : Path) : Path := p.withFileName (p.stylesheetBase ++ utf8 ".css")

end Path

end StyleHoist
