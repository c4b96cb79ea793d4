import StyleHoist.Markup.StartTag
import StyleHoist.Markup.Boundary

/-!
The parts of a start tag as ranges of the text that the tag stands in, and the ends of constructs
as offsets.  What is read off a layout is cut out of the text again.
-/

set_option autoImplicit false
set_option relaxedAutoImplicit false

namespace StyleHoist

/-- The bytes from one offset up to another. -/
structure Span where
  start : Nat
  stop : Nat
  deriving DecidableEq

namespace Span

def covering (start : Nat) (s : Bytes) : Span := ⟨start, start + s.length⟩

def bytes (text : Bytes) (span : Span) : Bytes :=
  (text.drop span.start).take (span.stop - span.start)

end Span

/-- Where an attribute stands: its name, its value without delimiters, and all of it. -/
structure AttributeLayout where
  name : Span
  value : Option Span
  whole : Span
  deriving DecidableEq

structure TagLayout where
  name : Span
  attributes : List AttributeLayout
  /-- Where the attributes end and the closing part of the tag begins. -/
  contentStop : Nat
  deriving DecidableEq

namespace TagLayout

/-- The layout of the first attribute of a name, in either case of its letters. -/
def find? (text : Bytes) (layout : TagLayout) (name : Bytes) : Option AttributeLayout :=
  layout.attributes.find? fun a => Ascii.sameIgnoringCase (a.name.bytes text) name

def valueOf? (text : Bytes) (layout : TagLayout) (name : Bytes) : Option Bytes :=
  (layout.find? text name).bind fun a => a.value.map (Span.bytes text)

end TagLayout

def Attribute.layout (start : Nat) (a : Attribute) : AttributeLayout where
  name := .covering start a.name
  value := a.value.map fun v => .covering (start + a.name.length + v.lead.length) v.text
  whole := .covering start a.written

namespace StartTag

/-- The layouts of attributes, the first of whose gaps starts at an offset. -/
def layouts (start : Nat) : List Attribute → List AttributeLayout
  | [] => []
  | a :: attributes =>
    a.layout (start + a.gap.length) ::
      layouts (start + a.gap.length + a.written.length) attributes

def layout (start : Nat) (t : StartTag) : TagLayout where
  name := .covering start t.name
  attributes := layouts (start + t.name.length) t.attributes
  contentStop := start + t.name.length + t.content.length

end StartTag

namespace Boundary

/-- The offset of the `>` that ends the tag at an offset. -/
def tagStop? (text : Bytes) (start : Nat) : Option Nat :=
  (splitTag? none (text.drop (start + 1))).map fun (body, _) => start + 1 + body.length

/-- The offset behind the comment at an offset. -/
def commentStop? (text : Bytes) (start : Nat) : Option Nat :=
  (splitComment? (text.drop (start + 4))).map fun (body, _) => start + 4 + body.length

/-- The offset of the first end tag of a name from an offset on. -/
def rawTextStop? (name text : Bytes) (start : Nat) : Option Nat :=
  (splitRawText? name (text.drop start)).map fun (content, _) => start + content.length

end Boundary

end StyleHoist
