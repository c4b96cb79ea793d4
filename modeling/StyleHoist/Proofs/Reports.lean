import StyleHoist.Proofs.Lines
import StyleHoist.Proofs.Retagging
import StyleHoist.Proofs.Tiling
import StyleHoist.Session

/-!
The reports of a scan.  Whoever listens gets pairs of numbers and knows the start and the end of a
scan by their zeros only.  Main statement: a scan reports its start, then for each new record how
far the tag of the record goes, and at last its end unless it fails, and no report passes for one of
another kind (`reports_scan`).
-/

set_option autoImplicit false
set_option relaxedAutoImplicit false

namespace StyleHoist

open Ascii

/-- The report that a listener takes a pair of numbers for. -/
def Report.ofNumbers : Nat × Nat → Report
  | (0, 0) => .finished
  | (_, 0) => .started
  | (offset, total) => .reached offset total

theorem Report.ofNumbers_reached {offset total : Nat} (h : 0 < total) :
    ofNumbers (reached offset total).numbers = reached offset total := by
  obtain ⟨n, rfl⟩ := Nat.exists_eq_succ_of_ne_zero (Nat.ne_of_gt h)
  cases offset <;> rfl

/-- Whether a styled tag is a tag of a text, has its style and stops just behind the `>` that ends
it. -/
structure StyledTag.StandsIn (text : Bytes) (t : StyledTag) : Prop where
  starts : (Segment.tag t.tag).StartsAt text t.place.offset
  style : t.tag.style? = some t.style
  stops : ∃ last, Boundary.tagStop? text t.place.offset = some last ∧
    text[last]? = some greaterThan ∧ t.stop.offset = last + 1

section StyledTags

variable {text : Bytes} {t : StyledTag}

private theorem standsIn_of_mem (h : t ∈ (Extraction.ofText text).styledTags) :
    t.StandsIn text := by
  obtain ⟨before, behind, hsegments, hstyle, hplace⟩ := exists_of_mem_styledTags h
  constructor
  · refine Segment.startsAt_iff.2 ⟨before, behind, hsegments, ?_⟩
    simp [hplace, Place.after, Place.first]
  · exact hstyle
  · obtain ⟨first, body, -, hbody, -, hbalanced⟩ := exists_body_of_mem_styledTags h
    obtain ⟨rest, hrest⟩ := written_prefix_styledTags text t h
    have hdrop := drop_body hrest.symm
    rw [hbody] at hbalanced
    refine ⟨t.place.offset + 1 + t.tag.body.length,
      Boundary.tagStop?_eq_some_iff.2 ⟨_, rest, hdrop, hbalanced, rfl⟩,
      Span.getElem?_of_drop (Span.drop_of_drop hdrop), ?_⟩
    simp only [StyledTag.stop, Place.after, t.tag.length_written]
    omega

private theorem StyledTag.StandsIn.bounds (h : t.StandsIn text) :
    0 < t.stop.offset ∧ t.stop.offset ≤ text.length ∧ 0 < text.length := by
  obtain ⟨last, -, hbracket, hstop⟩ := h.stops
  obtain ⟨hlast, -⟩ := List.getElem?_eq_some_iff.1 hbracket
  omega

end StyledTags

private theorem reports_eq (mode : Mode) (stamp : Stamp) (text : Bytes) :
    (scan mode stamp text).reports =
      .started :: (Extraction.ofText text).reached text.length ++
        match (scan mode stamp text).marked with
        | .ok _ => [.finished]
        | .error _ => [] := by
  rw [scan_eq]
  cases h : (Extraction.ofText text).error? mode with
  | none => simp only [h]
  | some error => simp only [h, List.append_nil]

/-- The reports of a scan, whatever the session has recorded before. -/
theorem reports_scan (mode : Mode) (stamp : Stamp) (text : Bytes) (session : Session) :
    let (result, next) := session.scan mode stamp text
    ∃ tags : List StyledTag,
      next.records = session.records ++ tags.map (StyledTag.record stamp) ∧
      (∀ t ∈ tags, t.StandsIn text) ∧
      result.reports.map Report.numbers =
        (1, 0) :: tags.map (fun t => (t.stop.offset, text.length)) ++
          (match result.marked with
          | .ok _ => [(0, 0)]
          | .error _ => []) ∧
      tags.Pairwise (fun t u => t.stop.offset < u.stop.offset) ∧
      (∀ t ∈ tags, 0 < t.stop.offset ∧ t.stop.offset ≤ text.length ∧ 0 < text.length) ∧
      ∀ r ∈ result.reports, Report.ofNumbers r.numbers = r := by
  let tags := (Extraction.ofText text).styledTags
  have hstands : ∀ t ∈ tags, t.StandsIn text := fun t => standsIn_of_mem
  have hordered : tags.Pairwise fun t u => t.stop.offset < u.stop.offset :=
    pairwise_stop.imp fun h => Nat.lt_of_le_of_lt h (StyledTag.offset_lt_stop _)
  refine ⟨tags, congrArg (session.records ++ ·) (records_scan mode stamp text), hstands, ?_,
    hordered, fun t ht => (hstands t ht).bounds, ?_⟩
  · rw [reports_eq, List.map_append, List.map_cons, Extraction.reached, List.map_map]
    congr 1
    split <;> rfl
  · intro r hr
    cases r with
    | started => rfl
    | finished => rfl
    | reached offset total =>
      -- only the tags of the text are reported this way, and a text with a tag is not empty
      have hreached : .reached offset total ∈ (Extraction.ofText text).reached text.length := by
        simp only [reports_eq] at hr
        split at hr <;> simpa using hr
      obtain ⟨t, ht, heq⟩ := List.mem_map.1 hreached
      cases heq
      exact Report.ofNumbers_reached (hstands t ht).bounds.2.2

example :
    let text := utf8 "<!--<p style=a>--><p style='>'>\n<i"
    (scan .strict (Stamp.ofSeed 0) text).reports = [.started, .reached 31 34] := by
  intro text
  rw [scan_eq]
  decide +kernel

end StyleHoist
