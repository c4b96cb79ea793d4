import StyleHoist.Markup.StartTag
import StyleHoist.Extraction.Stamp

/-!
Styled tags and the records that are kept of them.
-/

set_option autoImplicit false
set_option relaxedAutoImplicit false

namespace StyleHoist

/-- What is kept of a start tag with an inline style while its token stands in for it. -/
structure Record where
  name : Bytes
  id : Bytes
  classes : Bytes
  style : Bytes
  /-- The attributes besides id, class and style as they are written, with a space between them. -/
  others : Bytes
  /-- The line of the tag, counted from one. -/
  line : Nat
  token : Bytes
  deriving DecidableEq

/-- A position in a document: the bytes before it, and its line, counted from one. -/
structure Place where
  offset : Nat
  line : Nat
  deriving DecidableEq

namespace Place

def first : Place := ⟨0, 1⟩

def after (p : Place) (s : Bytes) : Place := ⟨p.offset + s.length, p.line + s.count Ascii.lineFeed⟩

theorem after_append (p : Place) (s t : Bytes) : (p.after s).after t = p.after (s ++ t) := by
  simp [Place.after, List.count_append, Nat.add_assoc]

end Place

/-- A start tag with an inline style. -/
structure StyledTag where
  tag : StartTag
  style : Bytes
  /-- Where the tag starts. -/
  place : Place
  /-- The number among the styled tags of its document, counted from one. -/
  number : Nat
  deriving DecidableEq

/-- The attributes that a rewritten tag gets anew or loses. -/
def isReplacedName (name : Bytes) : Bool :=
  Ascii.sameIgnoringCase name (utf8 "style") || Ascii.sameIgnoringCase name (utf8 "id") ||
    Ascii.sameIgnoringCase name (utf8 "class")

/-- The inline style of a start tag.  An attribute without a value is none. -/
def StartTag.style? (t : StartTag) : Option Bytes := t.valueOf? (utf8 "style")

def StartTag.kept (t : StartTag) : List Attribute :=
  t.attributes.filter fun a => !isReplacedName a.name

/-- What is kept of a tag whose style, line and token are given. -/
def StartTag.record (t : StartTag) (style : Bytes) (line : Nat) (token : Bytes) : Record where
  name := t.name
  id := (t.valueOf? (utf8 "id")).getD []
  classes := (t.valueOf? (utf8 "class")).getD []
  style
  others := Bytes.join [Ascii.space] (t.kept.map Attribute.written)
  line
  token

/-- The tag with other bytes between its name and what stays in place at its end. -/
def StartTag.withContent (t : StartTag) (bytes : Bytes) : Bytes :=
  Ascii.lessThan :: t.name ++ bytes ++ t.closing ++ [Ascii.greaterThan]

theorem StartTag.written_eq_withContent (t : StartTag) : t.written = t.withContent t.content := by
  simp [written_eq_append, withContent]

namespace StyledTag

def stop (t : StyledTag) : Place := t.place.after t.tag.written

def record (stamp : Stamp) (t : StyledTag) : Record :=
  t.tag.record t.style t.place.line (stamp.token t.number)

/-- The tag with other bytes in place of its attributes. -/
def fill (t : StyledTag) (replacement : Bytes) : Bytes := t.tag.withContent replacement

end StyledTag

end StyleHoist
