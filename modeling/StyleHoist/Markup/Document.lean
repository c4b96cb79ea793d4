import StyleHoist.Markup.StartTag
import StyleHoist.Markup.Boundary

/-!
A document as the sequence of its segments, from left to right.  Text outside markup is cut into
single bytes, so that the segments of a document are those of its parts wherever it is cut between
two of them.  Main statement: a document's segments and its ending spell its text
(`written_ofText`).
-/

set_option autoImplicit false
set_option relaxedAutoImplicit false

namespace StyleHoist

open Ascii

inductive Segment where
  /-- A byte outside markup, a `<` that opens nothing included. -/
  | text (byte : UInt8)
  /-- A comment, by the bytes behind its `<!--`. -/
  | comment (body : Bytes)
  /-- An end tag, a declaration or a processing instruction, by the bytes between its brackets. -/
  | markup (body : Bytes)
  | tag (tag : StartTag)
  /-- What stands between a raw-text start tag and its end tag. -/
  | rawText (content : Bytes)
  deriving DecidableEq

/-- What is left behind the last segment: nothing, or a construct that never ends. -/
inductive Ending where
  | complete
  /-- A `<` that is the last byte. -/
  | loneBracket
  /-- A comment, by the bytes behind its `<!--`. -/
  | openComment (body : Bytes)
  /-- A tag, by the bytes behind its `<`. -/
  | openTag (body : Bytes)
  /-- What stands behind a raw-text start tag that has no end tag. -/
  | openRawText (content : Bytes)
  deriving DecidableEq

structure Document where
  segments : List Segment
  ending : Ending
  deriving DecidableEq

namespace Segment

def written : Segment → Bytes
  | text byte => [byte]
  | comment body => utf8 "<!--" ++ body
  | markup body => lessThan :: body ++ [greaterThan]
  | tag t => t.written
  | rawText content => content

end Segment

namespace Ending

def written : Ending → Bytes
  | complete => []
  | loneBracket => [lessThan]
  | openComment body => utf8 "<!--" ++ body
  | openTag body => lessThan :: body
  | openRawText content => content

end Ending

/-- The bytes that may follow the `<` of a tag. -/
def opensMarkup (b : UInt8) : Bool :=
  isLetter b || b == slash || b == exclamation || b == question

namespace Document

inductive Cut where
  | segment (segment : Segment) (rest : Bytes)
  | ending (ending : Ending)

/-- What a `<` in front of a text opens.  A comment is looked for before any other construct. -/
def cutBracket (s : Bytes) : Cut :=
  if (utf8 "!--").isPrefixOf s then
    match Boundary.splitComment? (s.drop 3) with
    | none => .ending (.openComment (s.drop 3))
    | some (body, rest) => .segment (.comment body) rest
  else
    match s with
    | [] => .ending .loneBracket
    | next :: _ =>
      if opensMarkup next then
        match Boundary.splitTag? none s with
        | none => .ending (.openTag s)
        | some (body, rest) =>
          .segment (if isLetter next then .tag (StartTag.ofBody body) else .markup body) rest
      else .segment (.text lessThan) s

/-- The first segment of a text that starts outside a raw-text element. -/
def cut : Bytes → Cut
  | [] => .ending .complete
  | b :: s => if b = lessThan then cutBracket s else .segment (.text b) s

/-- The name of the raw-text element that a segment opens. -/
def rawTextName? : Segment → Option Bytes
  | .tag t => if t.opensRawText then some t.name else none
  | _ => none

def Cut.written : Cut → Bytes
  | .segment first rest => first.written ++ rest
  | .ending last => last.written

theorem written_cut (s : Bytes) : (cut s).written = s := by
  cases s with
  | nil => rfl
  | cons b s =>
    simp only [cut, cutBracket]
    split
    next hb =>
      subst hb
      split
      next hc =>
        obtain ⟨t, ht⟩ := List.isPrefixOf_iff_prefix.1 hc
        have hs : utf8 "<!--" ++ s.drop 3 = lessThan :: s := by rw [← ht]; rfl
        split
        · exact hs
        next hsplit =>
          rw [← hs, ← Boundary.written_of_splitComment? hsplit]
          simp [Cut.written, Segment.written]
      · split
        · rfl
        · split
          · split
            · rfl
            next hsplit =>
              rw [← Boundary.written_of_splitTag? hsplit]
              split <;>
                simp [Cut.written, Segment.written, StartTag.written, StartTag.body_ofBody]
          · rfl
    · rfl

theorem written_ne_nil_of_cut {s rest : Bytes} {segment : Segment}
    (h : cut s = .segment segment rest) : segment.written ≠ [] := by
  have opening : utf8 "<!--" ≠ [] := by decide
  cases s with
  | nil => simp [cut] at h
  | cons b s =>
    simp only [cut, cutBracket] at h
    (repeat' split at h) <;> simp only [Cut.segment.injEq, reduceCtorEq] at h <;>
      obtain ⟨rfl, rfl⟩ := h <;> simp [Segment.written, StartTag.written, opening]

theorem length_lt_of_cut {s rest : Bytes} {segment : Segment}
    (h : cut s = .segment segment rest) : rest.length < s.length := by
  have whole := congrArg List.length (written_cut s)
  have some := List.length_pos_iff.2 (written_ne_nil_of_cut h)
  simp only [h, Cut.written, List.length_append] at whole
  omega

theorem ofBody_of_cut {s rest : Bytes} {t : StartTag} (h : cut s = .segment (.tag t) rest) :
    StartTag.ofBody t.body = t := by
  cases s with
  | nil => simp [cut] at h
  | cons b s =>
    simp only [cut, cutBracket] at h
    (repeat' split at h) <;> simp only [Cut.segment.injEq, Segment.tag.injEq, reduceCtorEq,
      false_and] at h
    rw [← h.1, StartTag.body_ofBody]

def ofText (s : Bytes) : Document :=
  match _h : cut s with
  | .ending ending => ⟨[], ending⟩
  | .segment segment rest =>
    match rawTextName? segment with
    | none =>
      let document := ofText rest
      ⟨segment :: document.segments, document.ending⟩
    | some name =>
      match _hr : Boundary.splitRawText? name rest with
      | none => ⟨[segment], .openRawText rest⟩
      | some (content, rest) =>
        let document := ofText rest
        ⟨segment :: .rawText content :: document.segments, document.ending⟩
termination_by s.length
decreasing_by
  · exact length_lt_of_cut _h
  · have := congrArg List.length (Boundary.written_of_splitRawText? _hr)
    have := length_lt_of_cut _h
    simp only [List.length_append] at *
    omega

theorem ofText_of_ending {s : Bytes} {ending : Ending} (h : cut s = .ending ending) :
    ofText s = ⟨[], ending⟩ := by
  rw [ofText]
  split <;> simp_all

theorem ofText_of_segment {s rest : Bytes} {segment : Segment} (h : cut s = .segment segment rest)
    (hname : rawTextName? segment = none) :
    ofText s = ⟨segment :: (ofText rest).segments, (ofText rest).ending⟩ := by
  rw [ofText]
  split <;> simp_all

theorem ofText_of_openRawText {s rest name : Bytes} {segment : Segment}
    (h : cut s = .segment segment rest) (hname : rawTextName? segment = some name)
    (hraw : Boundary.splitRawText? name rest = none) :
    ofText s = ⟨[segment], .openRawText rest⟩ := by
  rw [ofText]
  split <;> simp_all
  split <;> simp_all

theorem ofText_of_rawText {s rest name content after : Bytes} {segment : Segment}
    (h : cut s = .segment segment rest) (hname : rawTextName? segment = some name)
    (hraw : Boundary.splitRawText? name rest = some (content, after)) :
    ofText s =
      ⟨segment :: .rawText content :: (ofText after).segments, (ofText after).ending⟩ := by
  rw [ofText]
  split <;> simp_all
  split <;> simp_all

def written (d : Document) : Bytes := d.segments.flatMap Segment.written ++ d.ending.written

theorem written_ofText (s : Bytes) : (ofText s).written = s := by
  fun_induction ofText s with
  | case1 s ending h => simpa [written, h, Cut.written] using written_cut s
  | case2 s segment rest h _ document ih =>
    have := written_cut s
    simp_all [written, Cut.written, document]
  | case3 s segment rest h name _ hr =>
    have := written_cut s
    simp_all [written, Cut.written, Ending.written]
  | case4 s segment rest h name _ content rest' hr document ih =>
    have := written_cut s
    have := Boundary.written_of_splitRawText? hr
    simp_all [written, Cut.written, Segment.written, document]

end Document

end StyleHoist
