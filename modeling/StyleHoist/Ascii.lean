import StyleHoist.Bytes

/-!
The ASCII bytes that markup, stylesheets and paths give a meaning, and the classes of bytes they
are told apart by.  A byte outside ASCII is in none of the classes, and it is its own lower case.
-/

set_option autoImplicit false
set_option relaxedAutoImplicit false

namespace StyleHoist.Ascii

abbrev tab : UInt8 := 0x09
abbrev lineFeed : UInt8 := 0x0A
abbrev formFeed : UInt8 := 0x0C
abbrev carriageReturn : UInt8 := 0x0D
abbrev space : UInt8 := 0x20
abbrev exclamation : UInt8 := 0x21
abbrev doubleQuote : UInt8 := 0x22
abbrev singleQuote : UInt8 := 0x27
abbrev hyphen : UInt8 := 0x2D
abbrev dot : UInt8 := 0x2E
abbrev slash : UInt8 := 0x2F
abbrev colon : UInt8 := 0x3A
abbrev semicolon : UInt8 := 0x3B
abbrev lessThan : UInt8 := 0x3C
abbrev equals : UInt8 := 0x3D
abbrev greaterThan : UInt8 := 0x3E
abbrev question : UInt8 := 0x3F
abbrev underscore : UInt8 := 0x5F
abbrev openBrace : UInt8 := 0x7B
abbrev closeBrace : UInt8 := 0x7D

def isDigit (b : UInt8) : Bool := 0x30 ≤ b && b ≤ 0x39

def isUpper (b : UInt8) : Bool := 0x41 ≤ b && b ≤ 0x5A

def isLower (b : UInt8) : Bool := 0x61 ≤ b && b ≤ 0x7A

def isLetter (b : UInt8) : Bool := isUpper b || isLower b

/-- The bytes that separate words and attributes: space, tab, line feed, carriage return and form
feed. -/
def isBlank (b : UInt8) : Bool :=
  b == space || b == tab || b == lineFeed || b == carriageReturn || b == formFeed

theorem isBlank_iff {b : UInt8} : isBlank b = true ↔
    b = space ∨ b = tab ∨ b = lineFeed ∨ b = carriageReturn ∨ b = formFeed := by
  simp [isBlank, or_assoc]

def isQuote (b : UInt8) : Bool := b == doubleQuote || b == singleQuote

/-- The bytes of the name in an end tag: letters, digits, hyphen, underscore and colon. -/
def isNameByte (b : UInt8) : Bool :=
  isLetter b || isDigit b || b == hyphen || b == underscore || b == colon

def toLower (b : UInt8) : UInt8 := if isUpper b then b + 0x20 else b

def sameIgnoringCase (s t : Bytes) : Bool := s.map toLower == t.map toLower

def words (s : Bytes) : List Bytes := (s.splitOnP isBlank).filter (· ≠ [])

end StyleHoist.Ascii
