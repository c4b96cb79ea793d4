import Mathlib.Data.List.Forall2
import StyleHoist.Proofs.Clean

/-!
What rewriting leaves of a document.  Where all styled tags are clean, the rewritten text is cut
into the same segments, and a second scan finds nothing to do.  Main statement: `segments_direct`.
-/

set_option autoImplicit false
set_option relaxedAutoImplicit false

namespace StyleHoist

open Ascii Boundary

/-- A segment of a text, and the one that stands in its place in the rewritten text. -/
inductive Segment.Corresponds : Segment → Segment → Prop where
  | kept {segment : Segment} : segment.IsKept → Corresponds segment segment
  | styled {t t' : StartTag} : t.style? ≠ none → t'.Keeps t → Corresponds (.tag t) (.tag t')

section Kept

variable {place : Place} {number : Nat} {segments : List Segment} {ending : Ending}

theorem Piece.ofSegments_of_kept (h : ∀ segment ∈ segments, segment.IsKept) :
    Piece.ofSegments place number segments = segments.map fun segment => .kept segment.written := by
  induction segments generalizing place number with
  | nil => rfl
  | cons segment segments ih =>
    rw [List.forall_mem_cons] at h
    rw [Piece.ofSegments_cons_kept (h.1 place number), ih h.2, List.map_cons]

theorem styledTags_eq_nil_iff :
    (Extraction.ofDocument place number ⟨segments, ending⟩).styledTags = [] ↔
      ∀ segment ∈ segments, segment.IsKept := by
  induction segments generalizing place number with
  | nil => exact ⟨fun _ segment h => absurd h List.not_mem_nil, fun _ => rfl⟩
  | cons segment segments ih =>
    rw [List.forall_mem_cons]
    rcases Extraction.ofSegment_cases segment with hkept | ⟨t, style, rfl, hstyle⟩
    · rw [Extraction.ofDocument_cons_kept (hkept place number), Extraction.styledTags_cons_kept, ih]
      exact ⟨fun h => ⟨hkept, h⟩, And.right⟩
    · rw [Extraction.ofDocument_cons_styled hstyle, Extraction.styledTags_cons_styled]
      constructor
      · intro h
        exact absurd h (List.cons_ne_nil _ _)
      · intro h
        have hpiece := h.1 place number
        simp [Piece.ofSegment, hstyle] at hpiece

theorem fill_of_kept (replacement : StyledTag → Bytes) (h : ∀ segment ∈ segments, segment.IsKept) :
    (Extraction.ofDocument place number ⟨segments, ending⟩).fill replacement =
      segments.flatMap Segment.written ++ ending.written := by
  simp only [Extraction.fill, Extraction.ofDocument, Piece.ofSegments_of_kept h, List.flatMap_map,
    Piece.fill]

end Kept

theorem scan_of_kept {text : Bytes} {segments : List Segment} {ending : Ending}
    (h : Segmentation text segments ending) (hkept : ∀ segment ∈ segments, segment.IsKept)
    (stamp : Stamp) :
    (scan .permissive stamp text).records = [] ∧
      (scan .permissive stamp text).marked = .ok text := by
  have hdocument : Extraction.ofText text = .ofDocument .first 1 ⟨segments, ending⟩ := by
    rw [Extraction.ofText, segmentation_iff.1 h]
  have htags := (@styledTags_eq_nil_iff .first 1 segments ending).2 hkept
  have hfill := @fill_of_kept .first 1 segments ending (fun t => stamp.token t.number) hkept
  rw [scan_eq]
  constructor
  · simp [Extraction.error?, Extraction.records, hdocument, htags]
  · simp [Extraction.error?, Extraction.marked, hdocument, hfill, h.written]

theorem scan_strict_error_iff {text : Bytes} {segments : List Segment} {ending : Ending}
    (h : Segmentation text segments ending) (stamp : Stamp) :
    (∃ error, (scan .strict stamp text).marked = .error error) ↔
      ∃ body, ending = .openTag body := by
  have hending : (Extraction.ofText text).ending = ending := by
    rw [Extraction.ofText, segmentation_iff.1 h]
    rfl
  rw [scan_eq]
  simp only [Extraction.error?, Extraction.strictError?, hending]
  cases ending <;> simp

/-! ### Tags of a text -/

theorem leads_of_mem {text : Bytes} {segments : List Segment} {ending : Ending} {t : StartTag}
    (h : Segmentation text segments ending) (ht : .tag t ∈ segments) :
    ∃ rest, Segment.Leads rest (.tag t) := by
  induction h with
  | tail htail => cases ht
  | segment hleads hname hrest ih =>
    rcases List.mem_cons.1 ht with rfl | ht
    · exact ⟨_, hleads⟩
    · exact ih ht
  | rawText hleads hname hend hfirst hrest ih =>
    rcases List.mem_cons.1 ht with rfl | ht
    · exact ⟨_, hleads⟩
    · rcases List.mem_cons.1 ht with heq | ht
      · cases heq
      · exact ih ht
  | openRawText hleads hname hraw =>
    rw [List.mem_singleton] at ht
    subst ht
    exact ⟨_, hleads⟩

theorem tag_of_mem_styledTags {place : Place} {number : Nat} {segments : List Segment}
    {ending : Ending} {t : StyledTag}
    (h : t ∈ (Extraction.ofDocument place number ⟨segments, ending⟩).styledTags) :
    .tag t.tag ∈ segments ∧ t.tag.style? = some t.style := by
  obtain ⟨front, back, rfl, hstyle, -⟩ := exists_of_mem_styledTags h
  exact ⟨List.mem_append_right _ List.mem_cons_self, hstyle⟩

/-! ### Clean tags -/

/-- What stands for a clean tag: a single tag that keeps what the tag had, and nothing open but its
own content. -/
private def KeptAlone (t : StartTag) (new : List Segment) (last : Ending) : Prop :=
  ∃ t', new = [.tag t'] ∧ (last = .complete ∨ last = .openRawText []) ∧ t'.Keeps t ∧
    t.style? ≠ none ∧ t'.style? = none

private theorem corresponds_of_refill {segments segments' : List Segment} {ending ending' : Ending}
    (h : Refill KeptAlone segments ending segments' ending') :
    List.Forall₂ Segment.Corresponds segments segments' ∧ ending' = ending := by
  induction h with
  | tail => exact ⟨.nil, rfl⟩
  | kept hkept _ ih =>
    obtain ⟨hcorresponds, hending⟩ := ih
    exact ⟨.cons (.kept hkept) hcorresponds, hending⟩
  | tag hnew _ ih =>
    obtain ⟨t', rfl, -, hkeeps, hstyled, -⟩ := hnew
    obtain ⟨hcorresponds, hending⟩ := ih
    exact ⟨.cons (.styled hstyled hkeeps) hcorresponds, hending⟩
  | @rawText t opened content new segments segments' ending ending' hnew _ ih =>
    obtain ⟨t', rfl, hlast, hkeeps, hstyled, -⟩ := hnew
    obtain ⟨hcorresponds, hending⟩ := ih
    obtain rfl : opened = [] := by simpa using hlast
    exact ⟨.cons (.styled hstyled hkeeps) (.cons (.kept fun _ _ => rfl) hcorresponds), hending⟩
  | @openRawText t opened content new hnew =>
    obtain ⟨t', rfl, hlast, hkeeps, hstyled, -⟩ := hnew
    obtain rfl : opened = [] := by simpa using hlast
    exact ⟨.cons (.styled hstyled hkeeps) .nil, rfl⟩

/-- Where all styled tags are clean, the rewritten text is cut into corresponding segments and ends
in the same way, and it has nothing left to extract. -/
theorem segments_direct (scope : Bytes) {text : Bytes}
    (hclean : ∀ t ∈ (Extraction.ofText text).styledTags, t.tag.Clean) :
    let html := (direct scope text).html
    ∃ segments segments' ending,
      Segmentation text segments ending ∧ Segmentation html segments' ending ∧
      List.Forall₂ Segment.Corresponds segments segments' ∧
      (∀ stamp, (scan .permissive stamp html).records = [] ∧
        (scan .permissive stamp html).marked = .ok html) ∧
      ∀ stamp stamp', (∃ error, (scan .strict stamp html).marked = .error error) ↔
        ∃ error, (scan .strict stamp' text).marked = .error error := by
  have htext := segmentation_iff.2 (@rfl _ (Document.ofText text))
  have htags : ∀ t ∈ (Extraction.ofText text).styledTags, ∃ new last,
      StandsIn t.tag (t.fill (t.replacement scope)) new last ∧ KeptAlone t.tag new last := by
    intro t ht
    obtain ⟨hmem, hstyle⟩ := tag_of_mem_styledTags ht
    obtain ⟨rest, hleads⟩ := leads_of_mem htext hmem
    obtain ⟨t', last, hstands, hlast, hkeeps, hnone⟩ :=
      t.exists_standsIn scope hleads (hclean t ht)
    exact ⟨_, last, hstands, t', rfl, hlast, hkeeps, by simp [hstyle], hnone⟩
  obtain ⟨segments', ending', hrefill, hhtml⟩ := exists_refill htext htags
  obtain ⟨hcorresponds, rfl⟩ := corresponds_of_refill hrefill
  have hkept : ∀ segment ∈ segments', segment.IsKept :=
    hrefill.forall_isKept fun t new last hnew => by
      obtain ⟨t', rfl, -, -, -, hnone⟩ := hnew
      rw [List.forall_mem_singleton]
      exact isKept_of_style? hnone
  have hdirect : (direct scope text).html =
      (Extraction.ofText text).fill (StyledTag.replacement scope) := html_direct scope text
  intro html
  have hhtml' : Segmentation html segments' _ := hdirect ▸ hhtml
  refine ⟨_, segments', _, htext, hhtml', hcorresponds, scan_of_kept hhtml' hkept, ?_⟩
  intro stamp stamp'
  rw [scan_strict_error_iff hhtml', scan_strict_error_iff htext]

theorem segments_direct_image :
    let text := utf8 "<img id=x alt='y' style=\"a\" />"
    (∀ t ∈ (Extraction.ofText text).styledTags, t.tag.Clean) ∧
      ∀ stamp, (scan .permissive stamp (direct [] text).html).records = [] := by
  have hclean : ∀ t ∈ (Extraction.ofText (utf8 "<img id=x alt='y' style=\"a\" />")).styledTags,
      t.tag.Clean := by
    decide +kernel
  obtain ⟨segments, segments', ending, -, -, -, hscan, -⟩ := segments_direct [] hclean
  exact ⟨hclean, fun stamp => (hscan stamp).1⟩

end StyleHoist
