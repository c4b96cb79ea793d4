import StyleHoist.Ascii
import StyleHoist.Numeral
import StyleHoist.Unicode.Alphanumeric
import StyleHoist.Unicode.Utf8
import StyleHoist.Extraction.Record

/-!
Generated class names.  A key is made of the scope of a document, the name and line of a tag and
the number of its record, and keeps of them only what a class name may hold.
-/

set_option autoImplicit false
set_option relaxedAutoImplicit false

namespace StyleHoist

/-- The characters that a key keeps. -/
def isKeyCharacter (c : Char) : Bool := c == '-' || c == '_' || isAlphanumeric c

/-- A text in which an underscore stands for each character that no key holds. -/
def keyOf (s : Bytes) : Bytes :=
  Utf8.encode ((Utf8.characters s).map fun c => if isKeyCharacter c then c else '_')

/-- The key of a record with a number.  An empty scope adds nothing. -/
def Record.key (scope : Bytes) (number : Nat) (r : Record) : Bytes :=
  let start := if scope = [] then [] else scope ++ utf8 "_"
  keyOf (start ++ r.name ++ utf8 "_line_" ++ Numeral.decimal r.line ++ utf8 "_" ++
    Numeral.decimal number)

end StyleHoist
