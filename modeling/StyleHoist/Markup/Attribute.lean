import StyleHoist.Ascii

/-!
Attributes of a start tag, with every byte that spells them.  A name is followed by nothing or by
an equals sign, blanks around it, and a value, which a quote delimits or the next blank ends.  A
slash before a name separates as a blank does, and one inside an unquoted value belongs to it.
Main statement: reading an attribute off a text loses nothing (`written_of_split?`).
-/

set_option autoImplicit false
set_option relaxedAutoImplicit false

namespace StyleHoist

open Ascii

/-- How a value is delimited.  The opening quote of an unclosed value has no partner in the tag. -/
inductive Quoting where
  | unquoted
  | closed (quote : UInt8)
  | unclosed (quote : UInt8)
  deriving DecidableEq

namespace Quoting

def opening : Quoting → Bytes
  | unquoted => []
  | closed quote => [quote]
  | unclosed quote => [quote]

def closing : Quoting → Bytes
  | unquoted => []
  | closed quote => [quote]
  | unclosed _ => []

end Quoting

/-- A value with its equals sign and the blanks before and after that sign. -/
structure Value where
  before : Bytes
  after : Bytes
  quoting : Quoting
  text : Bytes
  deriving DecidableEq

/-- An attribute and the bytes that separate it from what stands before it. -/
structure Attribute where
  gap : Bytes
  name : Bytes
  value : Option Value
  deriving DecidableEq

def isGap (b : UInt8) : Bool := isBlank b || b == slash

theorem isGap_iff {b : UInt8} : isGap b = true ↔
    b = space ∨ b = tab ∨ b = lineFeed ∨ b = carriageReturn ∨ b = formFeed ∨ b = slash := by
  simp [isGap, isBlank_iff, or_assoc]

/-- The bytes that may follow the first one in the name of an attribute. -/
def isNameTail (b : UInt8) : Bool := !isGap b && b != equals

namespace Value

/-- What follows the equals sign and its blanks: delimiters, value and the text behind them. -/
def content : Bytes → Quoting × Bytes × Bytes
  | [] => (.unquoted, [], [])
  | b :: s =>
    if isQuote b then
      match s.dropWhile (· != b) with
      | [] => (.unclosed b, s, [])
      | _ :: rest => (.closed b, s.takeWhile (· != b), rest)
    else (.unquoted, (b :: s).takeWhile (!isBlank ·), (b :: s).dropWhile (!isBlank ·))

/-- A value off the start of a text, if an equals sign introduces one. -/
def split? (s : Bytes) : Option (Value × Bytes) :=
  match s.dropWhile isBlank with
  | [] => none
  | b :: t =>
    if b = equals then
      let (quoting, text, rest) := content (t.dropWhile isBlank)
      some (⟨s.takeWhile isBlank, t.takeWhile isBlank, quoting, text⟩, rest)
    else none

def lead (v : Value) : Bytes := v.before ++ equals :: v.after ++ v.quoting.opening

def written (v : Value) : Bytes := v.lead ++ v.text ++ v.quoting.closing

end Value

namespace Attribute

def written (a : Attribute) : Bytes := a.name ++ (a.value.map Value.written).getD []

/-- An attribute off the start of a text.  Any byte but a separator starts a name. -/
def split? (s : Bytes) : Option (Attribute × Bytes) :=
  match s.dropWhile isGap with
  | [] => none
  | first :: t =>
    let gap := s.takeWhile isGap
    let name := first :: t.takeWhile isNameTail
    let rest := t.dropWhile isNameTail
    match Value.split? rest with
    | none => some (⟨gap, name, none⟩, rest)
    | some (value, rest) => some (⟨gap, name, some value⟩, rest)

end Attribute

private theorem content_append (s : Bytes) :
    (Value.content s).1.opening ++ (Value.content s).2.1 ++ (Value.content s).1.closing ++
      (Value.content s).2.2 = s := by
  cases s with
  | nil => rfl
  | cons b s =>
    have whole := List.takeWhile_append_dropWhile (p := (· != b)) (l := s)
    simp only [Value.content]
    split
    · split
      · simp [Quoting.opening, Quoting.closing]
      next q rest hrest =>
        have hq : q = b := by simpa using Bytes.stop_of_dropWhile_cons hrest
        rw [hrest] at whole
        simp only [Quoting.opening, Quoting.closing]
        rw [hq] at whole
        simpa using whole
    · simp [Quoting.opening, Quoting.closing, List.takeWhile_append_dropWhile]

theorem Value.written_of_split? {s rest : Bytes} {v : Value} (h : Value.split? s = some (v, rest)) :
    v.written ++ rest = s := by
  simp only [Value.split?] at h
  split at h
  · simp at h
  next b t ht =>
    split at h
    next hb =>
      simp only [Option.some.injEq, Prod.mk.injEq] at h
      obtain ⟨rfl, rfl⟩ := h
      have outer := List.takeWhile_append_dropWhile (p := isBlank) (l := s)
      have inner := List.takeWhile_append_dropWhile (p := isBlank) (l := t)
      have tail := content_append (t.dropWhile isBlank)
      rw [ht, hb] at outer
      simp only [List.append_assoc] at tail
      simp only [Value.written, Value.lead, List.append_assoc, List.cons_append]
      rw [tail, inner, outer]
    · simp at h

theorem Attribute.written_of_split? {s rest : Bytes} {a : Attribute}
    (h : Attribute.split? s = some (a, rest)) : a.gap ++ a.written ++ rest = s := by
  simp only [Attribute.split?] at h
  split at h
  · simp at h
  next first t ht =>
    have outer := List.takeWhile_append_dropWhile (p := isGap) (l := s)
    have inner := List.takeWhile_append_dropWhile (p := isNameTail) (l := t)
    rw [ht] at outer
    split at h <;> simp only [Option.some.injEq, Prod.mk.injEq] at h <;> obtain ⟨rfl, rfl⟩ := h
    · simp [Attribute.written, inner, outer]
    next hv =>
      simp [Attribute.written, Value.written_of_split? hv, inner, outer]

theorem Attribute.length_lt_of_split? {s rest : Bytes} {a : Attribute}
    (h : Attribute.split? s = some (a, rest)) : rest.length < s.length := by
  have whole := congrArg List.length (Attribute.written_of_split? h)
  have hname : 0 < a.name.length := by
    simp only [Attribute.split?] at h
    split at h
    · simp at h
    · split at h <;> simp only [Option.some.injEq, Prod.mk.injEq] at h <;> simp [← h.1]
  simp only [Attribute.written, List.length_append] at whole
  omega

end StyleHoist
