import StyleHoist.Markup.Attribute

/-!
Start tags.  The body of a tag, the bytes between its angle brackets, is a name, attributes and a
trail of blanks and slashes.  The tag closes itself when its trail ends in a slash; a slash at the
end of an unquoted value does not.  Main statements: reading a body loses nothing (`body_ofBody`),
and what gives way and what stays make up the region of a tag (`content_append_closing`).
-/

set_option autoImplicit false
set_option relaxedAutoImplicit false

namespace StyleHoist

open Ascii

structure StartTag where
  name : Bytes
  attributes : List Attribute
  trail : Bytes
  deriving DecidableEq

namespace StartTag

/-- The attributes of a text and what is left behind the last one. -/
def readAttributes (s : Bytes) : List Attribute × Bytes :=
  match _h : Attribute.split? s with
  | none => ([], s)
  | some (a, rest) =>
    let (attributes, trail) := readAttributes rest
    (a :: attributes, trail)
termination_by s.length
decreasing_by exact Attribute.length_lt_of_split? _h

/-- The tag with a body.  The name runs to the first blank or slash. -/
def ofBody (body : Bytes) : StartTag :=
  let (attributes, trail) := readAttributes (body.dropWhile (!isGap ·))
  ⟨body.takeWhile (!isGap ·), attributes, trail⟩

/-- The bytes between the name and the closing bracket. -/
def region (t : StartTag) : Bytes :=
  t.attributes.flatMap (fun a => a.gap ++ a.written) ++ t.trail

def body (t : StartTag) : Bytes := t.name ++ t.region

def written (t : StartTag) : Bytes := lessThan :: t.body ++ [greaterThan]

theorem length_written (t : StartTag) : t.written.length = t.body.length + 2 := by
  simp [written]

def isSelfClosing (t : StartTag) : Bool := t.trail.getLast? == some slash

/-- The region without the slash of a tag that closes itself. -/
def openRegion (t : StartTag) : Bytes := if t.isSelfClosing then t.region.dropLast else t.region

/-- The part of the region that gives way when the attributes are replaced. -/
def content (t : StartTag) : Bytes := Bytes.dropTrailing isBlank t.openRegion

/-- The part of the region that is left in place when the attributes are replaced: the blanks
before the end, and the slash of a tag that closes itself. -/
def closing (t : StartTag) : Bytes :=
  Bytes.trailing isBlank t.openRegion ++ if t.isSelfClosing then [slash] else []

/-- The first attribute of a name, in either case of its letters. -/
def find? (t : StartTag) (name : Bytes) : Option Attribute :=
  t.attributes.find? fun a => sameIgnoringCase a.name name

/-- The value of the first attribute of a name.  A later attribute of that name does not stand in
for a first one without a value. -/
def valueOf? (t : StartTag) (name : Bytes) : Option Bytes :=
  (t.find? name).bind fun a => a.value.map Value.text

def rawTextNames : List Bytes :=
  [utf8 "script", utf8 "style", utf8 "textarea", utf8 "title", utf8 "xmp"]

def isRawTextName (name : Bytes) : Bool := rawTextNames.any (sameIgnoringCase name ·)

/-- Whether the text behind the tag is not markup until the matching end tag. -/
def opensRawText (t : StartTag) : Bool := isRawTextName t.name && !t.isSelfClosing

private theorem written_readAttributes (s : Bytes) :
    (readAttributes s).1.flatMap (fun a => a.gap ++ a.written) ++ (readAttributes s).2 = s := by
  fun_induction readAttributes s with
  | case1 => rfl
  | case2 s a rest h attributes trail hrest ih =>
    rw [hrest] at ih
    simp only [List.flatMap_cons, List.append_assoc]
    simp only at ih
    rw [ih, ← List.append_assoc, Attribute.written_of_split? h]

theorem content_append_closing (t : StartTag) : t.content ++ t.closing = t.region := by
  rw [content, closing, ← List.append_assoc, Bytes.dropTrailing_append_trailing, openRegion]
  split
  next h =>
    have hlast : t.trail.getLast? = some slash := by simpa [isSelfClosing] using h
    have hregion : t.region.getLast? = some slash := by
      simp [region, List.getLast?_append, hlast]
    obtain ⟨s, hs⟩ := List.getLast?_eq_some_iff.1 hregion
    simp [hs]
  · simp

theorem written_eq_append (t : StartTag) :
    t.written = (lessThan :: t.name) ++ (t.content ++ (t.closing ++ [greaterThan])) := by
  simp [written, StartTag.body, ← content_append_closing]

theorem isBlank_closing {t : StartTag} (h : t.isSelfClosing = false) :
    ∀ b ∈ t.closing, isBlank b = true := by
  rw [closing, h, if_neg Bool.false_ne_true, List.append_nil]
  exact Bytes.all_trailing isBlank t.openRegion

theorem isGap_closing (t : StartTag) : ∀ b ∈ t.closing, isGap b = true := by
  intro b hb
  rw [closing, List.mem_append] at hb
  rcases hb with hb | hb
  · rw [isGap, Bytes.all_trailing isBlank t.openRegion b hb, Bool.true_or]
  · split at hb
    · rw [List.mem_singleton.1 hb]
      rfl
    · cases hb

theorem exists_closing_cons (t : StartTag) (rest : Bytes) :
    ∃ b s, t.closing ++ greaterThan :: rest = b :: s ∧ (isGap b = true ∨ b = greaterThan) := by
  cases hclosing : t.closing with
  | nil => exact ⟨greaterThan, rest, rfl, .inr rfl⟩
  | cons b s =>
    have hb : b ∈ t.closing := by
      rw [hclosing]
      exact List.mem_cons_self
    exact ⟨b, s ++ greaterThan :: rest, rfl, .inl (t.isGap_closing b hb)⟩

theorem body_ofBody (body : Bytes) : (ofBody body).body = body := by
  simp only [StartTag.body, region, ofBody, written_readAttributes]
  exact List.takeWhile_append_dropWhile

end StartTag

end StyleHoist
