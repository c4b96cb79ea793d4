import StyleHoist.Session
import StyleHoist.Proofs.Sweep
import StyleHoist.Proofs.Segmentation

/-!
What a scan makes of each segment on its own.  The image and the record of a segment depend on that
segment and on how many styled tags and line feeds come before it, and on nothing that a pass keeps.
Main statement: a permissive scan is the sequence of the images (`scan_eq_images`).
-/

set_option autoImplicit false
set_option relaxedAutoImplicit false

namespace StyleHoist

open Ascii

namespace Segment

/-- Whether a segment is a start tag whose first style attribute has a value. -/
def isStyled : Segment → Bool
  | .tag t => t.style?.isSome
  | _ => false

/-- The token for a styled tag behind some segments. -/
def tokenBehind (stamp : Stamp) (before : List Segment) : Bytes :=
  stamp.token (before.countP isStyled + 1)

/-- What stands for a segment in the marked text. -/
def image (stamp : Stamp) (before : List Segment) : Segment → Bytes
  | .tag t => if t.style?.isSome then t.withContent (tokenBehind stamp before) else t.written
  | segment => segment.written

def record? (stamp : Stamp) (before : List Segment) : Segment → Option Record
  | .tag t => t.style?.map fun style =>
    t.record style (1 + (before.flatMap written).count lineFeed) (tokenBehind stamp before)
  | _ => none

end Segment

private def placeBehind (before : List Segment) : Place :=
  Place.first.after (before.flatMap Segment.written)

private theorem placeBehind_append (before : List Segment) (segment : Segment) :
    (placeBehind before).after segment.written = placeBehind (before ++ [segment]) := by
  simp [placeBehind, Place.after_append]

private theorem countP_isStyled_append (before : List Segment) (segment : Segment) :
    (before ++ [segment]).countP Segment.isStyled + 1 =
      if segment.isStyled then before.countP Segment.isStyled + 1 + 1
      else before.countP Segment.isStyled + 1 := by
  cases h : segment.isStyled <;> simp [List.countP_append, h]

section Images

variable (stamp : Stamp) (before : List Segment) (segment : Segment)

private abbrev pieceBehind : Piece :=
  Piece.ofSegment (placeBehind before) (before.countP Segment.isStyled + 1) segment

private theorem isStyled_pieceBehind :
    (pieceBehind before segment).styledTag?.isSome = segment.isStyled := by
  cases segment <;> simp only [pieceBehind, Piece.ofSegment] <;> try rfl
  next t =>
    simp only [Segment.isStyled]
    cases t.style? <;> rfl

private theorem fill_pieceBehind :
    (pieceBehind before segment).fill (fun t => stamp.token t.number) =
      segment.image stamp before := by
  cases segment <;> simp only [pieceBehind, Piece.ofSegment] <;> try rfl
  next t =>
    simp only [Segment.image]
    cases t.style? <;> rfl

private theorem record_pieceBehind :
    (pieceBehind before segment).styledTag?.map (StyledTag.record stamp) =
      segment.record? stamp before := by
  cases segment <;> simp only [pieceBehind, Piece.ofSegment] <;> try rfl
  next t =>
    simp only [Segment.record?]
    cases t.style? <;> rfl

end Images

private theorem ofSegments_cons (before : List Segment) (segment : Segment)
    (segments : List Segment) :
    Piece.ofSegments (placeBehind before) (before.countP Segment.isStyled + 1)
        (segment :: segments) =
      pieceBehind before segment ::
        Piece.ofSegments (placeBehind (before ++ [segment]))
          ((before ++ [segment]).countP Segment.isStyled + 1) segments := by
  rw [Piece.ofSegments, ← placeBehind_append, countP_isStyled_append]
  simp only [isStyled_pieceBehind]

private theorem ofSegments_eq_mapIdx (before segments : List Segment) :
    Piece.ofSegments (placeBehind before) (before.countP Segment.isStyled + 1) segments =
      segments.mapIdx fun i segment => pieceBehind (before ++ segments.take i) segment := by
  induction segments generalizing before with
  | nil => rfl
  | cons segment segments ih =>
    rw [ofSegments_cons, ih, List.mapIdx_cons]
    simp

private theorem pieces_eq_mapIdx (segments : List Segment) :
    Piece.ofSegments .first 1 segments =
      segments.mapIdx fun i segment => pieceBehind (segments.take i) segment :=
  ofSegments_eq_mapIdx [] segments

private theorem map_mapIdx {α β γ : Type} (f : Nat → α → β) (g : β → γ) (l : List α) :
    (l.mapIdx f).map g = l.mapIdx fun i a => g (f i a) := by
  simp [List.mapIdx_eq_zipIdx_map]

section Text

variable (stamp : Stamp) (text : Bytes)

private theorem marked_ofText :
    (Extraction.ofText text).marked stamp =
      ((Document.ofText text).segments.mapIdx fun i segment =>
        segment.image stamp ((Document.ofText text).segments.take i)).flatten ++
          (Document.ofText text).ending.written := by
  rw [Extraction.marked, Extraction.fill, Extraction.ofText, Extraction.ofDocument,
    pieces_eq_mapIdx, List.flatMap_def, map_mapIdx]
  simp only [fill_pieceBehind]

private theorem records_ofText :
    (Extraction.ofText text).records stamp =
      ((Document.ofText text).segments.mapIdx fun i segment =>
        segment.record? stamp ((Document.ofText text).segments.take i)).reduceOption := by
  have hfilter (pieces : List Piece) :
      (pieces.filterMap Piece.styledTag?).map (StyledTag.record stamp) =
        (pieces.map fun p => p.styledTag?.map (StyledTag.record stamp)).reduceOption := by
    have hreduce : (pieces.map fun p => p.styledTag?.map (StyledTag.record stamp)).reduceOption =
        (pieces.map fun p => p.styledTag?.map (StyledTag.record stamp)).filterMap id := rfl
    rw [hreduce, List.filterMap_map, List.map_filterMap]
    rfl
  rw [Extraction.records, Extraction.styledTags, Extraction.ofText, Extraction.ofDocument,
    pieces_eq_mapIdx, hfilter, map_mapIdx]
  simp only [record_pieceBehind]

end Text

/-- Every text has one segmentation, and a permissive scan marks and records each of its segments
by what comes before it. -/
theorem scan_eq_images (stamp : Stamp) (text : Bytes) (session : Session) :
    ∃ segments ending,
      (∀ segments' ending',
        Segmentation text segments' ending' ↔ segments' = segments ∧ ending' = ending) ∧
      let images := segments.mapIdx fun i segment => segment.image stamp (segments.take i)
      let records := segments.mapIdx fun i segment => segment.record? stamp (segments.take i)
      let marked := images.flatten ++ ending.written
      let (result, next) := session.scan .permissive stamp text
      result.marked = .ok marked ∧
        next = { session with records := session.records ++ records.reduceOption, marked } := by
  refine ⟨(Document.ofText text).segments, (Document.ofText text).ending, ?_, ?_⟩
  · intro segments ending
    rw [segmentation_iff, Document.mk.injEq, eq_comm, @eq_comm _ _ ending]
  · simp [Session.scan, scan_eq, Extraction.error?, marked_ofText, records_ofText]

end StyleHoist
