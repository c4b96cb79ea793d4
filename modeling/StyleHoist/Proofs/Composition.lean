import StyleHoist.Proofs.Direct
import StyleHoist.Proofs.Extension

/-!
Texts scanned one behind the other.  Where a pass runs out of brackets nothing is open, so a text
that follows is cut as it is on its own, and what the pass carries along only goes on counting.
Main statement: the scan of two texts is the scan of the first, with that of the second behind it
moved by the lines and the styled tags of the first (`scan_append`).
-/

set_option autoImplicit false
set_option relaxedAutoImplicit false

namespace StyleHoist

open Ascii Boundary

/-! ### Passes that run out of brackets -/

theorem Document.ofText_plain {plain rest : Bytes} (h : lessThan ∉ plain) :
    Document.ofText (plain ++ rest) =
      ⟨plain.map Segment.text ++ (Document.ofText rest).segments,
        (Document.ofText rest).ending⟩ := by
  induction plain with
  | nil => rfl
  | cons b plain ih =>
    rw [List.mem_cons, not_or] at h
    have hcut : Document.cut (b :: (plain ++ rest)) = .segment (.text b) (plain ++ rest) := by
      rw [Document.cut, if_neg (Ne.symm h.1)]
    rw [List.cons_append, Document.ofText_of_segment hcut rfl, ih h.2]
    rfl

namespace Sweep

/-- Whether a pass ends because no bracket is left where it looks for the next one. -/
inductive RunsOut (mode : Mode) (stamp : Stamp) (text : Bytes) : Sweep → Prop where
  | done {s : Sweep} : lessThan ∉ text.drop s.position → RunsOut mode stamp text s
  | onward {s next : Sweep} :
      s.step mode stamp text = .onward next → RunsOut mode stamp text next →
      RunsOut mode stamp text s

/-- What a way for a step to end says about the ending of the document ahead. -/
def Outcome.LeadsTo (text : Bytes) (ending : Ending) : Outcome → Prop
  | onward next => (Document.ofText (text.drop next.position)).ending = ending
  | _ => ending ≠ .complete

variable {mode : Mode} {stamp : Stamp} {text rest : Bytes} {s : Sweep}

private theorem leadsTo_passTag {t : StartTag} (ht : t = StartTag.ofBody t.body)
    (h : text.drop s.position = t.written ++ rest)
    (hcut : Document.cut (text.drop s.position) = .segment (.tag t) rest) :
    (s.passTag stamp text (s.position + 1 + t.body.length)).LeadsTo text
      (Document.ofText (text.drop s.position)).ending := by
  have hrest : text.drop (s.behindTag stamp text t).position = rest := by
    rw [position_behindTag]
    exact Span.drop_of_drop h
  rw [passTag_eq ht h]
  by_cases hraw : t.opensRawText
  · have hname : Document.rawTextName? (.tag t) = some t.name := if_pos hraw
    simp only [hraw, if_true, passRawText, Boundary.rawTextStop?, hrest]
    cases hsplit : splitRawText? t.name rest with
    | none =>
      rw [Document.ofText_of_openRawText hcut hname hsplit]
      exact Ending.noConfusion
    | some parts =>
      obtain ⟨content, after⟩ := parts
      have hcontent : text.drop (s.behindTag stamp text t).position = content ++ after := by
        rw [hrest]
        exact (written_of_splitRawText? hsplit).symm
      rw [Document.ofText_of_rawText hcut hname hsplit]
      simp only [Option.map_some, Outcome.LeadsTo, Span.drop_of_drop hcontent]
  · have hname : Document.rawTextName? (.tag t) = none := if_neg hraw
    rw [Document.ofText_of_segment hcut hname]
    simp only [hraw, Outcome.LeadsTo]
    exact congrArg (fun u => (Document.ofText u).ending) hrest

private theorem leadsTo_passBracket {inner : Bytes}
    (h : text.drop s.position = lessThan :: inner) :
    (s.passBracket mode stamp text).LeadsTo text
      (Document.ofText (text.drop s.position)).ending := by
  have hcut : Document.cut (text.drop s.position) = Document.cutBracket inner := by
    rw [h, Document.cut, if_pos rfl]
  have hwritten := (Document.written_cut (text.drop s.position)).symm
  rw [passBracket_eq h]
  rw [hcut] at hwritten
  cases hbracket : Document.cutBracket inner with
  | segment segment rest =>
    rw [hbracket] at hcut hwritten
    cases segment with
    | tag t => exact leadsTo_passTag (Document.ofBody_of_cut hcut).symm hwritten hcut
    | _ =>
      rw [Document.ofText_of_segment hcut rfl]
      exact congrArg (fun u => (Document.ofText u).ending) (Span.drop_of_drop hwritten)
  | ending last =>
    rw [hbracket] at hcut hwritten
    rw [Document.ofText_of_ending hcut]
    cases last with
    | complete =>
      rw [h] at hwritten
      cases hwritten
    | openTag body =>
      cases mode <;> exact Ending.noConfusion
    | _ => exact Ending.noConfusion

private theorem leadsTo_step (hbracket : lessThan ∈ text.drop s.position) :
    (s.step mode stamp text).LeadsTo text (Document.ofText (text.drop s.position)).ending := by
  rw [step]
  split
  next hnone =>
    simp only [List.findIdx?_eq_none_iff, beq_eq_false_iff_ne] at hnone
    exact absurd rfl (hnone _ hbracket)
  next skipped hskipped =>
    obtain ⟨plain, inner, hsplit, rfl, hplain⟩ := exists_of_findIdx? hskipped
    have hbehind := Span.drop_of_drop hsplit
    rw [hsplit, Document.ofText_plain hplain, ← hbehind]
    exact leadsTo_passBracket hbehind

private theorem complete_of_done (h : lessThan ∉ text.drop s.position) :
    (Document.ofText (text.drop s.position)).ending = .complete := by
  have hplain := @Document.ofText_plain _ [] h
  rw [List.append_nil] at hplain
  rw [hplain, Document.ofText_of_ending rfl]

/-- A pass runs out of brackets exactly when the document ahead is complete. -/
theorem runsOut_iff :
    RunsOut mode stamp text s ↔ (Document.ofText (text.drop s.position)).ending = .complete := by
  constructor
  · intro h
    induction h with
    | done hnone => exact complete_of_done hnone
    | @onward s next hstep _ ih =>
      by_cases hbracket : lessThan ∈ text.drop s.position
      · have hleads : (s.step mode stamp text).LeadsTo text _ := leadsTo_step hbracket
        rw [hstep] at hleads
        rw [← hleads, ih]
      · exact complete_of_done hbracket
  · intro h
    fun_induction run mode stamp text s with
    | case1 s next hstep ih =>
      by_cases hbracket : lessThan ∈ text.drop s.position
      · have hleads : (s.step mode stamp text).LeadsTo text _ := leadsTo_step hbracket
        rw [hstep, h] at hleads
        exact .onward hstep (ih hleads)
      · exact .done hbracket
    | case2 s last hstep =>
      refine .done fun hbracket => ?_
      have hleads : (s.step mode stamp text).LeadsTo text _ := leadsTo_step hbracket
      rw [hstep] at hleads
      exact hleads h
    | case3 s error last hstep =>
      refine .done fun hbracket => ?_
      have hleads : (s.step mode stamp text).LeadsTo text _ := leadsTo_step hbracket
      rw [hstep] at hleads
      exact hleads h

end Sweep

/-! ### Segments and pieces behind others -/

/-- Behind a text in which nothing is open another one is cut as it is on its own. -/
theorem Segmentation.append {s t : Bytes} {segments more : List Segment} {ending : Ending}
    (h : Segmentation s segments .complete) (h' : Segmentation t more ending) :
    Segmentation (s ++ t) (segments ++ more) ending := by
  generalize hcomplete : Ending.complete = last at h
  induction h with
  | tail htail =>
    subst hcomplete
    exact h'
  | segment hleads hname _ ih =>
    rw [List.append_assoc]
    exact .segment (hleads.append t) hname (ih hcomplete)
  | @rawText segment name content rest segments last hleads hname hend hfirst hrest ih =>
    -- the end tag is complete, so its name cannot go on in the second text
    have hend' : isEndTagOf name (rest ++ t) = true := by
      subst hcomplete
      rcases hrest.markup_of_isEndTagOf hend with ⟨-, rfl⟩ | ⟨body, rest, more, -, rfl, -⟩
      · cases hend
      · rw [← hend, List.cons_append, List.append_assoc]
        exact isEndTagOf_congr (by decide) (by decide)
    rw [List.append_assoc, List.append_assoc]
    refine .rawText ?_ hname hend' (first_congr hend hend' hfirst) (ih hcomplete)
    rw [← List.append_assoc]
    exact hleads.append t
  | openRawText => cases hcomplete

/-- A place of a text, once another text stands in front of it. -/
def Place.behind (s : Bytes) (p : Place) : Place :=
  ⟨s.length + p.offset, s.count lineFeed + p.line⟩

theorem Place.after_behind (s t : Bytes) (p : Place) :
    (p.behind s).after t = (p.after t).behind s := by
  simp [Place.behind, Place.after, Nat.add_assoc]

theorem Place.first_after (s : Bytes) : Place.first.after s = Place.first.behind s := by
  simp [Place.behind, Place.after, Place.first, Nat.add_comm]

/-- A styled tag, once a text with as many styled tags as a count stands in front of its own. -/
def StyledTag.behind (s : Bytes) (count : Nat) (t : StyledTag) : StyledTag :=
  { t with place := t.place.behind s, number := count + t.number }

def Piece.behind (s : Bytes) (count : Nat) : Piece → Piece
  | kept bytes => kept bytes
  | styled t => styled (t.behind s count)

private theorem ofSegments_behind (s : Bytes) (count : Nat) (place : Place) (number : Nat)
    (segments : List Segment) :
    Piece.ofSegments (place.behind s) (count + number) segments =
      (Piece.ofSegments place number segments).map (Piece.behind s count) := by
  induction segments generalizing place number with
  | nil => rfl
  | cons segment segments ih =>
    rcases Extraction.ofSegment_cases segment with hkept | ⟨t, style, rfl, hstyle⟩
    · rw [Piece.ofSegments_cons_kept (hkept _ _), Piece.ofSegments_cons_kept (hkept _ _),
        Place.after_behind, ih]
      rfl
    · rw [Piece.ofSegments_cons_styled hstyle, Piece.ofSegments_cons_styled hstyle,
        Place.after_behind, Nat.add_assoc, ih]
      rfl

theorem ofSegments_append (place : Place) (number : Nat) (segments more : List Segment) :
    Piece.ofSegments place number (segments ++ more) =
      Piece.ofSegments place number segments ++
        Piece.ofSegments (place.after (segments.flatMap Segment.written))
          (((Piece.ofSegments place number segments).filterMap Piece.styledTag?).length + number)
          more := by
  induction segments generalizing place number with
  | nil => simp [Piece.ofSegments, Place.after]
  | cons segment segments ih =>
    rcases Extraction.ofSegment_cases segment with hkept | ⟨t, style, rfl, hstyle⟩
    · rw [List.cons_append, Piece.ofSegments_cons_kept (hkept place number),
        Piece.ofSegments_cons_kept (hkept place number), ih, Place.after_append]
      simp [List.filterMap_cons, Piece.styledTag?]
    · rw [List.cons_append, Piece.ofSegments_cons_styled hstyle,
        Piece.ofSegments_cons_styled hstyle, ih, Place.after_append]
      simp [Piece.styledTag?, Segment.written, Nat.add_assoc, Nat.add_comm 1]

theorem Extraction.ofText_append {s : Bytes} (t : Bytes)
    (h : (Document.ofText s).ending = .complete) :
    Extraction.ofText (s ++ t) =
      { pieces := (Extraction.ofText s).pieces ++
          (Extraction.ofText t).pieces.map
            (Piece.behind s (Extraction.ofText s).styledTags.length)
        ending := (Extraction.ofText t).ending
        stop := (Extraction.ofText t).stop.behind s } := by
  have hs := segmentation_iff.2 (@rfl _ (Document.ofText s))
  rw [h] at hs
  have ht := segmentation_iff.2 (@rfl _ (Document.ofText t))
  have hwritten := hs.written
  rw [Ending.written, List.append_nil] at hwritten
  simp only [Extraction.ofText, Extraction.ofDocument, segmentation_iff.1 (hs.append ht),
    Extraction.styledTags, ofSegments_append, ← ofSegments_behind, List.flatMap_append, hwritten,
    ← Place.after_append, Place.first_after, Place.after_behind]

/-! ### Two scans in one -/

section Scan

variable {stamp : Stamp} {first second : Bytes}

private theorem styledTag?_behind (s : Bytes) (count : Nat) (piece : Piece) :
    (piece.behind s count).styledTag? = piece.styledTag?.map (StyledTag.behind s count) := by
  cases piece <;> rfl

private theorem fill_behind (s : Bytes) (count : Nat) (piece : Piece) :
    (piece.behind s count).fill (fun t => stamp.token t.number) =
      piece.fill fun t => stamp.token (count + t.number) := by
  cases piece <;> rfl

theorem styledTags_append (h : (Document.ofText first).ending = .complete) :
    (Extraction.ofText (first ++ second)).styledTags =
      (Extraction.ofText first).styledTags ++
        (Extraction.ofText second).styledTags.map
          (StyledTag.behind first (Extraction.ofText first).styledTags.length) := by
  rw [Extraction.ofText_append second h, Extraction.styledTags, List.filterMap_append,
    List.filterMap_map]
  simp only [Function.comp_def, styledTag?_behind, ← List.map_filterMap]
  rfl

theorem marked_append (h : (Document.ofText first).ending = .complete) :
    (Extraction.ofText (first ++ second)).marked stamp =
      (Extraction.ofText first).marked stamp ++
        (Extraction.ofText second).fill fun t =>
          stamp.token ((Extraction.ofText first).styledTags.length + t.number) := by
  have hnothing : (Extraction.ofText first).ending.written = [] := by
    rw [Extraction.ofText, Extraction.ofDocument, h]
    rfl
  rw [Extraction.ofText_append second h]
  simp only [Extraction.marked, Extraction.fill, List.flatMap_append, List.flatMap_map,
    fill_behind, hnothing, List.append_nil, List.append_assoc]

theorem error?_of_complete {mode : Mode} {text : Bytes}
    (h : (Document.ofText text).ending = .complete) :
    (Extraction.ofText text).error? mode = none := by
  cases mode with
  | permissive => rfl
  | strict => simp [Extraction.error?, Extraction.strictError?, Extraction.ofText,
      Extraction.ofDocument, h]

theorem error?_append {mode : Mode} (h : (Document.ofText first).ending = .complete) :
    (Extraction.ofText (first ++ second)).error? mode =
      ((Extraction.ofText second).error? mode).map fun
        | .unterminatedTag line => .unterminatedTag (line + first.count lineFeed) := by
  rw [Extraction.ofText_append second h]
  cases mode with
  | permissive => rfl
  | strict =>
    simp only [Extraction.error?, Extraction.strictError?]
    split <;> simp [Place.behind, Nat.add_comm]

end Scan

/-- Where a pass over a text runs out of brackets, a text behind it is scanned as it is on its own,
with lines and tokens that go on counting, and fails where it fails on its own. -/
theorem scan_append {mode : Mode} {stamp : Stamp} {first : Bytes} (second : Bytes)
    (hfirst : Sweep.RunsOut mode stamp first .start) :
    let front := scan mode stamp first
    let back := scan mode stamp second
    let whole := scan mode stamp (first ++ second)
    let lines := first.count lineFeed
    let count := front.records.length
    (∀ p ∈ back.records.zipIdx 1, p.1.token = stamp.token p.2) ∧
    whole.records = front.records ++ (back.records.zipIdx 1).map (fun (r, number) =>
      { r with line := r.line + lines, token := stamp.token (count + number) }) ∧
    ∃ marked, front.marked = .ok marked ∧
      match back.marked with
      | .ok marked' =>
        (marked' = (Extraction.ofText second).fill fun t => stamp.token t.number) ∧
        whole.marked = .ok (marked ++
          (Extraction.ofText second).fill fun t => stamp.token (count + t.number))
      | .error (.unterminatedTag line) =>
        whole.marked = .error (.unterminatedTag (line + lines)) := by
  intro front back whole lines count
  have hcomplete : (Document.ofText first).ending = .complete := Sweep.runsOut_iff.1 hfirst
  have hcount : count = (Extraction.ofText first).styledTags.length := by
    simp only [count, front, records_scan, List.length_map]
  have hback : back.records.zipIdx 1 =
      (Extraction.ofText second).styledTags.map fun t => (t.record stamp, t.number) := by
    simp only [back, records_scan, List.zipIdx_map, zipIdx_styledTags, List.map_map]
    rfl
  refine ⟨?_, ?_, _, marked_of_error? stamp (error?_of_complete hcomplete), ?_⟩
  · rw [hback, List.forall_mem_map]
    exact fun t _ => rfl
  · rw [hback, hcount]
    simp only [whole, front, records_scan, styledTags_append hcomplete, List.map_append,
      List.map_map]
    refine congrArg _ (List.map_congr_left fun t _ => ?_)
    simp [StyledTag.behind, StyledTag.record, StartTag.record, Place.behind, Nat.add_comm, lines]
  · have hwhole := @error?_append first second mode hcomplete
    cases herror : (Extraction.ofText second).error? mode with
    | none =>
      rw [herror] at hwhole
      have hmarked : back.marked = _ := marked_of_error? stamp herror
      rw [hmarked]
      refine ⟨rfl, ?_⟩
      rw [hcount, ← marked_append hcomplete]
      exact marked_of_error? stamp hwhole
    | some error =>
      obtain ⟨line⟩ := error
      rw [herror] at hwhole
      have hmarked : back.marked = _ := marked_of_error?_some stamp herror
      rw [hmarked]
      exact marked_of_error?_some stamp hwhole

theorem scan_append_unterminated :
    let stamp := Stamp.ofSeed 0
    let first := utf8 "<p style=\"a\">\n"
    let second := utf8 "<b style=c>\n<i"
    let back := scan .strict stamp second
    let whole := scan .strict stamp (first ++ second)
    Sweep.RunsOut .strict stamp first .start ∧
      (back.records.map fun r => (r.line, r.token)) = [(1, stamp.token 1)] ∧
      (whole.records.map fun r => (r.line, r.token)) = [(1, stamp.token 1), (2, stamp.token 2)] ∧
      back.marked = .error (.unterminatedTag 2) ∧
      whole.marked = .error (.unterminatedTag 3) := by
  have hfirst : Sweep.RunsOut .strict (Stamp.ofSeed 0) (utf8 "<p style=\"a\">\n") .start :=
    Sweep.runsOut_iff.2 (by decide +kernel)
  have hback : (scan .strict (Stamp.ofSeed 0) (utf8 "<b style=c>\n<i")).marked =
      .error (.unterminatedTag 2) :=
    marked_of_error?_some _ (by decide +kernel)
  obtain ⟨-, hrecords, marked, -, hmarked⟩ := scan_append (utf8 "<b style=c>\n<i") hfirst
  rw [hback] at hmarked
  refine ⟨hfirst, ?_, ?_, hback, hmarked⟩
  · rw [records_scan]
    decide +kernel
  · simp only [hrecords, records_scan]
    decide +kernel

end StyleHoist
