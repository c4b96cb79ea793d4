import StyleHoist.Markup.Document
import StyleHoist.Extraction.Record

/-!
What a scan for inline styles finds in a document.  The document is laid out as pieces, each a run
of bytes that stays as it is or a styled tag.  The marked text, the records and the progress
reports are read off the same pieces.  Main statement: the pieces spell the text
(`written_ofText`).
-/

set_option autoImplicit false
set_option relaxedAutoImplicit false

namespace StyleHoist

inductive Piece where
  | kept (bytes : Bytes)
  | styled (tag : StyledTag)
  deriving DecidableEq

namespace Piece

/-- The bytes of a piece in which something else stands for the attributes of a styled tag. -/
def fill (replacement : StyledTag → Bytes) : Piece → Bytes
  | kept bytes => bytes
  | styled t => t.fill (replacement t)

def written : Piece → Bytes
  | kept bytes => bytes
  | styled t => t.tag.written

def styledTag? : Piece → Option StyledTag
  | kept _ => none
  | styled t => some t

/-- The piece that a segment makes at a position, where the next styled tag has a number. -/
def ofSegment (place : Place) (number : Nat) : Segment → Piece
  | .tag t =>
    match t.style? with
    | some style => styled ⟨t, style, place, number⟩
    | none => kept t.written
  | segment => kept segment.written

def ofSegments (place : Place) (number : Nat) : List Segment → List Piece
  | [] => []
  | segment :: segments =>
    let piece := ofSegment place number segment
    let next := if piece.styledTag?.isSome then number + 1 else number
    piece :: ofSegments (place.after segment.written) next segments

end Piece

/-- A segment that a scan leaves as it is, wherever it stands. -/
def Segment.IsKept (segment : Segment) : Prop :=
  ∀ place number, Piece.ofSegment place number segment = .kept segment.written

theorem isKept_of_style? {t : StartTag} (h : t.style? = none) : (Segment.tag t).IsKept :=
  fun place number => by simp [Piece.ofSegment, h, Segment.written]

theorem Piece.ofSegments_cons_kept {place : Place} {number : Nat} {segment : Segment}
    {segments : List Segment} (h : Piece.ofSegment place number segment = .kept segment.written) :
    Piece.ofSegments place number (segment :: segments) =
      .kept segment.written ::
        Piece.ofSegments (place.after segment.written) number segments := by
  simp [ofSegments, h, styledTag?]

theorem Piece.ofSegments_cons_styled {place : Place} {number : Nat} {t : StartTag} {style : Bytes}
    {segments : List Segment} (h : t.style? = some style) :
    Piece.ofSegments place number (.tag t :: segments) =
      .styled ⟨t, style, place, number⟩ ::
        Piece.ofSegments (place.after t.written) (number + 1) segments := by
  simp [ofSegments, ofSegment, h, styledTag?, Segment.written]

/-- The pieces of a document, and what is left behind the last one. -/
structure Extraction where
  pieces : List Piece
  ending : Ending
  /-- Where the ending starts. -/
  stop : Place
  deriving DecidableEq

/-- What a scan refuses in strict mode. -/
inductive ScanError where
  | unterminatedTag (line : Nat)
  deriving DecidableEq

def ScanError.message : ScanError → Bytes
  | unterminatedTag line =>
    utf8 "unterminated tag starting on line " ++ Numeral.decimal line

/-- Whether a tag without an end is refused or left alone. -/
inductive Mode where
  | permissive
  | strict
  deriving DecidableEq

inductive Report where
  | started
  /-- A styled tag ends at an offset of a text of a length. -/
  | reached (offset total : Nat)
  | finished
  deriving DecidableEq

def Report.numbers : Report → Nat × Nat
  | started => (1, 0)
  | reached offset total => (offset, total)
  | finished => (0, 0)

/-- The records of a scan and the marked text, or the reason why there is none. -/
structure Scan where
  records : List Record
  reports : List Report
  marked : Except ScanError Bytes

namespace Extraction

/-- The extraction of a document that starts at a place, where the next styled tag has a number. -/
def ofDocument (place : Place) (number : Nat) (d : Document) : Extraction where
  pieces := Piece.ofSegments place number d.segments
  ending := d.ending
  stop := place.after (d.segments.flatMap Segment.written)

def ofText (s : Bytes) : Extraction := ofDocument .first 1 (Document.ofText s)

def styledTags (e : Extraction) : List StyledTag := e.pieces.filterMap Piece.styledTag?

/-- The text in which something else stands for the attributes of each styled tag. -/
def fill (replacement : StyledTag → Bytes) (e : Extraction) : Bytes :=
  e.pieces.flatMap (Piece.fill replacement) ++ e.ending.written

def records (stamp : Stamp) (e : Extraction) : List Record :=
  e.styledTags.map (StyledTag.record stamp)

/-- The text in which tokens stand for the attributes of the styled tags. -/
def marked (stamp : Stamp) (e : Extraction) : Bytes := e.fill fun t => stamp.token t.number

/-- The error of a strict scan.  Other open constructs are none. -/
def strictError? (e : Extraction) : Option ScanError :=
  match e.ending with
  | .openTag _ => some (.unterminatedTag e.stop.line)
  | _ => none

def error? (mode : Mode) (e : Extraction) : Option ScanError :=
  match mode with
  | .permissive => none
  | .strict => e.strictError?

def reached (total : Nat) (e : Extraction) : List Report :=
  e.styledTags.map fun t => .reached t.stop.offset total

end Extraction

namespace Extraction

def cons (piece : Piece) (e : Extraction) : Extraction := { e with pieces := piece :: e.pieces }

variable {stamp : Stamp} {mode : Mode} {total : Nat} {bytes : Bytes} {t : StyledTag}
  {e : Extraction}

@[simp] theorem styledTags_cons_kept : (cons (.kept bytes) e).styledTags = e.styledTags := rfl

@[simp] theorem styledTags_cons_styled :
    (cons (.styled t) e).styledTags = t :: e.styledTags := rfl

@[simp] theorem records_cons_kept : (cons (.kept bytes) e).records stamp = e.records stamp := rfl

@[simp] theorem records_cons_styled :
    (cons (.styled t) e).records stamp = t.record stamp :: e.records stamp := rfl

@[simp] theorem reached_cons_kept : (cons (.kept bytes) e).reached total = e.reached total := rfl

@[simp] theorem reached_cons_styled :
    (cons (.styled t) e).reached total = .reached t.stop.offset total :: e.reached total := rfl

@[simp] theorem error?_cons {piece : Piece} : (cons piece e).error? mode = e.error? mode := rfl

@[simp] theorem fill_cons {piece : Piece} {replacement : StyledTag → Bytes} :
    (cons piece e).fill replacement = piece.fill replacement ++ e.fill replacement := by
  simp [cons, fill]

theorem ofSegment_cases (segment : Segment) :
    segment.IsKept ∨ ∃ t style, segment = .tag t ∧ t.style? = some style := by
  cases segment with
  | tag t =>
    cases h : t.style? with
    | none => exact .inl (isKept_of_style? h)
    | some style => exact .inr ⟨t, style, rfl, h⟩
  | _ => exact .inl fun place number => rfl

theorem ofDocument_cons_kept {place : Place} {number : Nat} {segment : Segment}
    {segments : List Segment} {ending : Ending}
    (h : Piece.ofSegment place number segment = .kept segment.written) :
    ofDocument place number ⟨segment :: segments, ending⟩ =
      cons (.kept segment.written)
        (ofDocument (place.after segment.written) number ⟨segments, ending⟩) := by
  simp [ofDocument, cons, Piece.ofSegments_cons_kept h, Place.after_append]

theorem ofDocument_cons_styled {place : Place} {number : Nat} {t : StartTag} {style : Bytes}
    {segments : List Segment} {ending : Ending} (h : t.style? = some style) :
    ofDocument place number ⟨.tag t :: segments, ending⟩ =
      cons (.styled ⟨t, style, place, number⟩)
        (ofDocument (place.after t.written) (number + 1) ⟨segments, ending⟩) := by
  simp [ofDocument, cons, Piece.ofSegments_cons_styled h, Segment.written, Place.after_append]

end Extraction

private theorem written_ofSegment (place : Place) (number : Nat) (segment : Segment) :
    (Piece.ofSegment place number segment).written = segment.written := by
  cases segment <;> simp only [Piece.ofSegment] <;> try rfl
  split <;> rfl

private theorem written_ofSegments (place : Place) (number : Nat) (segments : List Segment) :
    (Piece.ofSegments place number segments).flatMap Piece.written =
      segments.flatMap Segment.written := by
  induction segments generalizing place number with
  | nil => rfl
  | cons segment segments ih =>
    simp [Piece.ofSegments, ih, written_ofSegment]

theorem Extraction.written_ofText (s : Bytes) :
    (ofText s).pieces.flatMap Piece.written ++ (ofText s).ending.written = s := by
  simp only [ofText, ofDocument, written_ofSegments]
  exact Document.written_ofText s

end StyleHoist
