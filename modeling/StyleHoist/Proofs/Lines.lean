import Mathlib.Data.List.Forall2
import StyleHoist.Proofs.Composition

/-!
Lines of records and of errors.  A pass counts line feeds only up to the places whose line is asked
for, so a line is exact only if every stretch that the pass jumps over is counted once.  Main
statement: whatever stands before it, a line is that of the `<` of its tag (`lines_scan`).
-/

set_option autoImplicit false
set_option relaxedAutoImplicit false

namespace StyleHoist

open Ascii

/-- Whether a segment of a text starts at an offset. -/
def Segment.StartsAt (text : Bytes) (offset : Nat) (segment : Segment) : Prop :=
  ∃ before behind ending, Segmentation text (before ++ segment :: behind) ending ∧
    (before.flatMap Segment.written).length = offset

/-- Whether all that is left of a text from an offset on is a tag without an end. -/
def UnterminatedFrom (text : Bytes) (offset : Nat) : Prop :=
  ∃ segments body, Segmentation text segments (.openTag body) ∧
    (segments.flatMap Segment.written).length = offset

section Document

variable {place : Place} {number : Nat} {segments : List Segment} {ending : Ending}

private theorem exists_mem_of_style {before behind : List Segment} {t : StartTag}
    (hsegments : segments = before ++ .tag t :: behind) (hstyle : t.style?.isSome = true) :
    ∃ u ∈ (Extraction.ofDocument place number ⟨segments, ending⟩).styledTags,
      u.tag = t ∧ u.place = place.after (before.flatMap Segment.written) := by
  obtain ⟨style, hstyle⟩ := Option.isSome_iff_exists.1 hstyle
  have hpieces := ofSegments_append place number before (.tag t :: behind)
  rw [Piece.ofSegments_cons_styled hstyle, ← hsegments] at hpieces
  let u : StyledTag := ⟨t, style, place.after (before.flatMap Segment.written),
    ((Piece.ofSegments place number before).filterMap Piece.styledTag?).length + number⟩
  have hu : .styled u ∈ Piece.ofSegments place number segments := by
    rw [hpieces]
    exact List.mem_append_right _ List.mem_cons_self
  exact ⟨u, List.mem_filterMap.2 ⟨_, hu, rfl⟩, rfl, rfl⟩

theorem StyledTag.offset_lt_stop (t : StyledTag) : t.place.offset < t.stop.offset := by
  simp only [stop, Place.after, t.tag.length_written]
  omega

theorem pairwise_stop :
    (Extraction.ofDocument place number ⟨segments, ending⟩).styledTags.Pairwise
      fun u v => u.stop.offset ≤ v.place.offset := by
  induction segments generalizing place number with
  | nil => exact .nil
  | cons segment segments ih =>
    rcases Extraction.ofSegment_cases segment with hkept | ⟨t, style, rfl, hstyle⟩
    · rw [Extraction.ofDocument_cons_kept (hkept place number)]
      exact ih
    · rw [Extraction.ofDocument_cons_styled hstyle]
      refine .cons (fun u hu => ?_) ih
      obtain ⟨before, behind, -, -, hplace⟩ := exists_of_mem_styledTags hu
      rw [hplace]
      exact Nat.le_add_right _ _

private theorem pairwise_offset :
    (Extraction.ofDocument place number ⟨segments, ending⟩).styledTags.Pairwise
      fun u v => u.place.offset < v.place.offset :=
  pairwise_stop.imp fun h => Nat.lt_of_lt_of_le (StyledTag.offset_lt_stop _) h

end Document

section Text

variable {text : Bytes} {offset : Nat}

theorem Segment.startsAt_iff {segment : Segment} :
    segment.StartsAt text offset ↔
      ∃ before behind, (Document.ofText text).segments = before ++ segment :: behind ∧
        (before.flatMap Segment.written).length = offset := by
  constructor
  · rintro ⟨before, behind, ending, htext, hoffset⟩
    exact ⟨before, behind, by rw [segmentation_iff.1 htext], hoffset⟩
  · rintro ⟨before, behind, hsegments, hoffset⟩
    refine ⟨before, behind, (Document.ofText text).ending, segmentation_iff.2 ?_, hoffset⟩
    rw [← hsegments]

private theorem unterminatedFrom_iff :
    UnterminatedFrom text offset ↔ (∃ body, (Document.ofText text).ending = .openTag body) ∧
      ((Document.ofText text).segments.flatMap Segment.written).length = offset := by
  constructor
  · rintro ⟨segments, body, htext, hoffset⟩
    rw [segmentation_iff.1 htext]
    exact ⟨⟨body, rfl⟩, hoffset⟩
  · rintro ⟨⟨body, hending⟩, hoffset⟩
    refine ⟨(Document.ofText text).segments, body, segmentation_iff.2 ?_, hoffset⟩
    rw [← hending]

private theorem cut_behind {before more : List Segment}
    (h : (Document.ofText text).segments = before ++ more) :
    text.take (before.flatMap Segment.written).length = before.flatMap Segment.written ∧
      text.drop (before.flatMap Segment.written).length =
        more.flatMap Segment.written ++ (Document.ofText text).ending.written := by
  have hwritten := Document.written_ofText text
  rw [Document.written, h, List.flatMap_append, List.append_assoc] at hwritten
  generalize (Document.ofText text).ending.written = last at hwritten ⊢
  rw [← hwritten, List.take_left, List.drop_left]
  exact ⟨rfl, rfl⟩

private theorem marked_eq_error_iff {mode : Mode} {stamp : Stamp} {error : ScanError} :
    (scan mode stamp text).marked = .error error ↔
      (Extraction.ofText text).error? mode = some error := by
  cases herror : (Extraction.ofText text).error? mode with
  | none => simp [marked_of_error? stamp herror]
  | some found => simp [marked_of_error?_some stamp herror]

private theorem error?_eq_some_iff {mode : Mode} {line : Nat} :
    (Extraction.ofText text).error? mode = some (.unterminatedTag line) ↔
      mode = .strict ∧ (∃ body, (Document.ofText text).ending = .openTag body) ∧
        line = 1 + ((Document.ofText text).segments.flatMap Segment.written).count lineFeed := by
  cases mode with
  | permissive => simp [Extraction.error?]
  | strict =>
    cases hending : (Document.ofText text).ending <;>
      simp [Extraction.error?, Extraction.strictError?, Extraction.ofText, Extraction.ofDocument,
        hending, Place.after, Place.first, eq_comm]

end Text

/-- The records of a scan are those of the styled tags of the text from left to right, each with
the line of the `<` of its tag, and a strict scan names the line of the `<` of a tag without an
end. -/
theorem lines_scan (mode : Mode) (stamp : Stamp) (text : Bytes) :
    let line (offset : Nat) := 1 + (text.take offset).count lineFeed
    (∃ tags : List (Nat × StartTag),
      tags.Pairwise (fun p q => p.1 < q.1) ∧
      (∀ p, p ∈ tags ↔ (Segment.tag p.2).StartsAt text p.1 ∧ p.2.style?.isSome = true) ∧
      List.Forall₂ (fun p r => text[p.1]? = some lessThan ∧ r.name = p.2.name ∧
        p.2.style? = some r.style ∧ r.line = line p.1) tags (scan mode stamp text).records) ∧
    ∀ n, (scan mode stamp text).marked = .error (.unterminatedTag n) ↔
      mode = .strict ∧ ∃ offset, text[offset]? = some lessThan ∧ UnterminatedFrom text offset ∧
        n = line offset := by
  intro line
  refine ⟨⟨(Extraction.ofText text).styledTags.map fun u => (u.place.offset, u.tag), ?_, ?_, ?_⟩,
    ?_⟩
  · exact List.pairwise_map.2 pairwise_offset
  · rintro ⟨offset, t⟩
    rw [Segment.startsAt_iff, List.mem_map]
    constructor
    · rintro ⟨u, hu, heq⟩
      obtain ⟨rfl, rfl⟩ := Prod.mk.inj heq
      obtain ⟨before, behind, hsegments, hstyle, hplace⟩ := exists_of_mem_styledTags hu
      refine ⟨⟨before, behind, hsegments, ?_⟩, by rw [hstyle]; rfl⟩
      simp [hplace, Place.after, Place.first]
    · rintro ⟨⟨before, behind, hsegments, rfl⟩, hstyle⟩
      obtain ⟨u, hu, rfl, hplace⟩ := exists_mem_of_style hsegments hstyle
      exact ⟨u, hu, by simp [hplace, Place.after, Place.first]⟩
  · rw [records_scan, List.forall₂_map_left_iff, List.forall₂_map_right_iff, List.forall₂_same]
    intro u hu
    obtain ⟨before, behind, hsegments, hstyle, hplace⟩ := exists_of_mem_styledTags hu
    obtain ⟨htake, hdrop⟩ := cut_behind hsegments
    have hoffset : u.place.offset = (before.flatMap Segment.written).length := by
      simp [hplace, Place.after, Place.first]
    refine ⟨?_, rfl, hstyle, ?_⟩
    · rw [hoffset, ← List.head?_drop, hdrop]
      rfl
    · simp only [line, hoffset, htake]
      exact congrArg Place.line hplace
  · intro n
    obtain ⟨htake, hdrop⟩ := @cut_behind text _ [] (List.append_nil _).symm
    rw [marked_eq_error_iff, error?_eq_some_iff]
    constructor
    · rintro ⟨hmode, ⟨body, hending⟩, hline⟩
      refine ⟨hmode, _, ?_, unterminatedFrom_iff.2 ⟨⟨body, hending⟩, rfl⟩, ?_⟩
      · rw [← List.head?_drop, hdrop, hending]
        rfl
      · simp only [line, htake, hline]
    · rintro ⟨hmode, offset, -, hopen, hline⟩
      obtain ⟨hending, rfl⟩ := unterminatedFrom_iff.1 hopen
      refine ⟨hmode, hending, ?_⟩
      rw [hline]
      simp only [line, htake]

example :
    let text := utf8 "<!--\n<p style=a>--><p\n>\n<xmp>\n</b></xmp\n><!a\n><b style='\n'>\n<i"
    (scan .strict (Stamp.ofSeed 0) text).records.map Record.line = [7] ∧
      (Extraction.ofText text).error? .strict = some (.unterminatedTag 9) := by
  intro text
  rw [records_scan]
  decide +kernel

end StyleHoist
