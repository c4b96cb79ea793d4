import StyleHoist.Proofs.Separation
import StyleHoist.Proofs.Preservation
import StyleHoist.Proofs.Composition

/-!
What stands in a comment or in a raw-text element.  A scan passes over it up to the terminator,
whatever looks like markup in it.  Main statement: two texts that differ only there have the same
records but for the lines behind it, and marked texts that differ only there (`scan_enclosed`).
-/

set_option autoImplicit false
set_option relaxedAutoImplicit false

namespace StyleHoist

open Ascii Boundary

/-! ### Enclosures -/

/-- The tags of a raw-text element. -/
structure RawTextElement where
  /-- The bytes between the brackets of the start tag. -/
  inner : Bytes
  /-- The name in the end tag. -/
  endName : Bytes
  balanced : Balanced inner
  opensRawText : (StartTag.ofBody inner).opensRawText = true
  sameName : sameIgnoringCase endName (StartTag.ofBody inner).name = true

def RawTextElement.tag (element : RawTextElement) : StartTag := StartTag.ofBody element.inner

/-- What keeps a text from being scanned for tags. -/
inductive Enclosure where
  | comment
  | rawText (element : RawTextElement)

namespace Enclosure

def opening : Enclosure → Bytes
  | comment => utf8 "<!--"
  | rawText element => lessThan :: (element.inner ++ [greaterThan])

def closing : Enclosure → Bytes
  | comment => utf8 "-->"
  | rawText element => endTag element.endName

/-- Whether a text may stand in an enclosure without ending it.  Behind a `</` the name bytes are
taken as far as they go. -/
def Allows (body : Bytes) : Enclosure → Prop
  | comment => ¬ utf8 ">" <+: body ∧ ¬ utf8 "->" <+: body ∧ ¬ utf8 "-->" <:+: body
  | rawText element => ∀ before behind, body = before ++ utf8 "</" ++ behind →
      sameIgnoringCase (behind.takeWhile isNameByte) element.tag.name = false

theorem allows_comment_iff {body : Bytes} :
    comment.Allows body ↔ splitComment? body = none :=
  splitComment?_eq_none_iff.symm

theorem allows_rawText_iff {element : RawTextElement} {body : Bytes} :
    (rawText element).Allows body ↔ splitRawText? element.tag.name body = none := by
  have hopening : utf8 "</" = [lessThan, slash] := rfl
  rw [splitRawText?_eq_none_iff]
  constructor
  · intro h u v huv
    rw [← Bool.not_eq_true]
    intro hend
    obtain ⟨behind, rfl⟩ := exists_of_isEndTagOf hend
    have hother := h u behind (by simp [huv, hopening])
    exact absurd (hend.symm.trans hother) (by decide)
  · intro h before behind hbody
    have hother := h before (utf8 "</" ++ behind) (by rw [hbody, List.append_assoc])
    exact hother

instance (body : Bytes) : (e : Enclosure) → Decidable (e.Allows body)
  | comment => decidable_of_iff _ allows_comment_iff.symm
  | rawText _ => decidable_of_iff _ allows_rawText_iff.symm

example : comment.Allows (utf8 "--!><b style=a>-") ∧ ¬ comment.Allows (utf8 "->") := by
  decide +kernel

private def lead : Enclosure → List Segment
  | comment => []
  | rawText element => [.tag element.tag]

private def left : Enclosure → Ending
  | comment => .openComment []
  | rawText _ => .openRawText []

private def inside (body : Bytes) : Enclosure → List Segment
  | comment => [.comment (body ++ utf8 "-->")]
  | rawText element => [.rawText body, .markup (slash :: element.endName)]

end Enclosure

namespace RawTextElement

variable (element : RawTextElement)

private theorem rawTextName?_tag :
    Document.rawTextName? (.tag element.tag) = some element.tag.name :=
  if_pos element.opensRawText

private theorem written_tag :
    (Segment.tag element.tag).written = (Enclosure.rawText element).opening := by
  rw [Segment.written, StartTag.written, tag, StartTag.body_ofBody]
  rfl

private theorem isRawTextName_tag : StartTag.isRawTextName element.tag.name = true :=
  (Bool.and_eq_true_iff.1 element.opensRawText).1

private theorem isLetter_endName : ∀ b ∈ element.endName, isLetter b = true := by
  apply isLetter_of_isRawTextName
  have hsame := element.sameName
  rw [sameIgnoringCase, beq_iff_eq] at hsame
  have hname := element.isRawTextName_tag
  simp only [StartTag.isRawTextName, sameIgnoringCase] at hname ⊢
  rwa [hsame]

private theorem leads_tag (rest : Bytes) : Segment.Leads rest (.tag element.tag) := by
  -- The name of a raw-text element starts with a letter, and the bytes of its tag with the name.
  cases hname : element.tag.name with
  | nil =>
    have hraw := element.isRawTextName_tag
    rw [hname] at hraw
    cases hraw
  | cons first name =>
    have hletter : isLetter first = true :=
      isLetter_of_isRawTextName element.isRawTextName_tag first (hname ▸ List.mem_cons_self)
    have hinner : element.inner = first :: (name ++ element.inner.dropWhile (!isGap ·)) := by
      rw [← List.cons_append, ← hname]
      exact List.takeWhile_append_dropWhile.symm
    have hbalanced := element.balanced
    rw [tag, hinner]
    rw [hinner] at hbalanced
    exact .tag hletter hbalanced

private theorem isEndTagOf_endTag_endName (rest : Bytes) :
    isEndTagOf element.tag.name (endTag element.endName ++ rest) = true := by
  rw [isEndTagOf_endTag element.isLetter_endName]
  exact element.sameName

end RawTextElement

namespace Enclosure

variable {e : Enclosure} {body : Bytes}

private theorem isKept_of_mem_inside : ∀ segment ∈ e.inside body, segment.IsKept := by
  cases e with
  | comment =>
    rw [inside, List.forall_mem_singleton]
    exact fun _ _ => rfl
  | rawText element =>
    rw [inside, List.forall_mem_cons, List.forall_mem_singleton]
    exact ⟨fun _ _ => rfl, fun _ _ => rfl⟩

private theorem written_inside :
    (e.inside body).flatMap Segment.written = e.left.written ++ body ++ e.closing := by
  cases e <;> simp [inside, left, closing, endTag, Segment.written, Ending.written]

private theorem segmentation_opening : Segmentation e.opening e.lead e.left := by
  cases e with
  | comment => exact .tail (.openComment (by decide) (by decide) (by decide))
  | rawText element =>
    have hnone : ∀ u v : Bytes, [] = u ++ v → isEndTagOf element.tag.name v = false := by
      intro u v huv
      rw [(List.append_eq_nil_iff.1 huv.symm).2]
      rfl
    have hopened := Segmentation.openRawText (element.leads_tag []) element.rawTextName?_tag hnone
    rwa [List.append_nil, element.written_tag] at hopened

private theorem length_le_of_allows {element : RawTextElement} {rest u v : Bytes}
    (h : (rawText element).Allows body) (huv : body ++ (endTag element.endName ++ rest) = u ++ v)
    (hend : isEndTagOf element.tag.name v = true) : body.length ≤ u.length := by
  apply Nat.le_of_not_lt
  intro hlt
  obtain ⟨c, w, rfl, rfl⟩ := Bytes.exists_cons_of_append_eq huv hlt
  rw [List.cons_append, endTag, List.cons_append,
    isEndTagOf_cons_append (by decide) (by decide)] at hend
  have hnone := splitRawText?_eq_none_iff.1 (allows_rawText_iff.1 h) u (c :: w) rfl
  exact absurd (hend.symm.trans hnone) (by decide)

private theorem segmentation_closed (h : e.Allows body) :
    Segmentation (e.opening ++ body ++ e.closing) (e.lead ++ e.inside body) .complete := by
  cases e with
  | comment =>
    obtain ⟨habrupt, hhyphen, hend⟩ := h
    have hcomment := @Segmentation.segment _ [] [] .complete
      (.comment (closesComment_terminated habrupt hhyphen hend)) rfl (.tail .complete)
    rw [List.append_nil, Segment.written, ← List.append_assoc] at hcomment
    exact hcomment
  | rawText element =>
    have hclosing := segmentation_endTag element.isLetter_endName (.tail .complete)
    have hclosed := Segmentation.rawText (element.leads_tag _) element.rawTextName?_tag
      (element.isEndTagOf_endTag_endName _) (fun u v => length_le_of_allows h) hclosing
    rwa [Ending.written, List.append_nil, element.written_tag, ← List.append_assoc] at hclosed

end Enclosure

/-! ### Texts that differ in an enclosure -/

/-- A record whose tag stands some lines further down. -/
def Record.below (lines : Nat) (r : Record) : Record := { r with line := r.line + lines }

section Enclosed

variable {e : Enclosure} {front body : Bytes}
variable (hfront : (Document.ofText front).ending = .complete)

include hfront

private theorem ofText_opened : Extraction.ofText (front ++ e.opening) =
    .ofDocument .first 1 ⟨(Document.ofText front).segments ++ e.lead, e.left⟩ := by
  have hs := segmentation_iff.2 (@rfl _ (Document.ofText front))
  rw [hfront] at hs
  rw [Extraction.ofText, segmentation_iff.1 (hs.append Enclosure.segmentation_opening)]

private theorem marked_opened (mode : Mode) (stamp : Stamp) :
    (scan mode stamp (front ++ e.opening)).marked =
      .ok ((Extraction.ofText (front ++ e.opening)).marked stamp) := by
  apply marked_of_error?
  rw [ofText_opened hfront]
  cases mode <;> cases e <;> rfl

variable (hbody : e.Allows body)

include hbody

private theorem document_enclosed :
    Document.ofText (front ++ e.opening ++ body ++ e.closing) =
      ⟨(Document.ofText front).segments ++ e.lead ++ e.inside body, .complete⟩ := by
  have hs := segmentation_iff.2 (@rfl _ (Document.ofText front))
  rw [hfront] at hs
  have hwhole := segmentation_iff.1 (hs.append (Enclosure.segmentation_closed hbody))
  rwa [← List.append_assoc, ← List.append_assoc, ← List.append_assoc] at hwhole

private theorem complete_enclosed :
    (Document.ofText (front ++ e.opening ++ body ++ e.closing)).ending = .complete := by
  rw [document_enclosed hfront hbody]

private theorem pieces_enclosed :
    (Extraction.ofText (front ++ e.opening ++ body ++ e.closing)).pieces =
      (Extraction.ofText (front ++ e.opening)).pieces ++
        (e.inside body).map fun segment => .kept segment.written := by
  rw [ofText_opened hfront, Extraction.ofText, document_enclosed hfront hbody]
  simp only [Extraction.ofDocument, ofSegments_append,
    Piece.ofSegments_of_kept Enclosure.isKept_of_mem_inside]

private theorem styledTags_enclosed :
    (Extraction.ofText (front ++ e.opening ++ body ++ e.closing)).styledTags =
      (Extraction.ofText (front ++ e.opening)).styledTags := by
  rw [Extraction.styledTags, pieces_enclosed hfront hbody, List.filterMap_append]
  simp [Extraction.styledTags, List.filterMap_map, Function.comp_def, Piece.styledTag?]

private theorem marked_enclosed (stamp : Stamp) :
    (Extraction.ofText (front ++ e.opening ++ body ++ e.closing)).marked stamp =
      (Extraction.ofText (front ++ e.opening)).marked stamp ++ body ++ e.closing := by
  have hending : (Extraction.ofText (front ++ e.opening ++ body ++ e.closing)).ending =
      .complete :=
    complete_enclosed hfront hbody
  have hleft : (Extraction.ofText (front ++ e.opening)).ending = e.left := by
    rw [ofText_opened hfront]
    rfl
  -- The segments behind those of the opening spell what the opening left open, too.
  have hinside := @Enclosure.written_inside e body
  rw [Extraction.marked, Extraction.fill, hending, pieces_enclosed hfront hbody]
  rw [Extraction.marked, Extraction.fill, hleft]
  simp only [List.flatMap_append, List.flatMap_map, Piece.fill, hinside, Ending.written,
    List.append_nil, List.append_assoc]

private theorem records_enclosed (mode : Mode) (stamp : Stamp) (back : Bytes) :
    let opened := scan mode stamp (front ++ e.opening)
    (scan mode stamp (front ++ e.opening ++ body ++ e.closing ++ back)).records =
      opened.records ++
        (((scan mode stamp back).records.zipIdx 1).map fun (r, number) =>
          { r with
            line := r.line + (front ++ e.opening ++ e.closing).count lineFeed
            token := stamp.token (opened.records.length + number) }).map
          (Record.below (body.count lineFeed)) := by
  have hback : (scan mode stamp back).records.zipIdx 1 =
      (Extraction.ofText back).styledTags.map fun t => (t.record stamp, t.number) := by
    simp only [records_scan, List.zipIdx_map, zipIdx_styledTags, List.map_map]
    rfl
  intro opened
  rw [hback]
  simp only [opened, records_scan, styledTags_append (complete_enclosed hfront hbody),
    styledTags_enclosed hfront hbody, List.map_append, List.map_map, List.length_map]
  refine congrArg _ (List.map_congr_left fun t _ => ?_)
  simp [StyledTag.behind, StyledTag.record, StartTag.record, Place.behind, Record.below]
  omega

private theorem error?_enclosed (mode : Mode) (back : Bytes) :
    (Extraction.ofText (front ++ e.opening ++ body ++ e.closing ++ back)).error? mode =
      ((Extraction.ofText back).error? mode).map fun
        | .unterminatedTag line => .unterminatedTag
          (line + (front ++ e.opening ++ e.closing).count lineFeed + body.count lineFeed) := by
  have hlines : (front ++ e.opening ++ body ++ e.closing).count lineFeed =
      (front ++ e.opening ++ e.closing).count lineFeed + body.count lineFeed := by
    simp only [List.count_append]
    omega
  rw [error?_append (complete_enclosed hfront hbody), hlines]
  simp only [Nat.add_assoc]

private theorem marked_scan_enclosed (mode : Mode) (stamp : Stamp) (back : Bytes) :
    (scan mode stamp (front ++ e.opening ++ body ++ e.closing ++ back)).marked =
      match (scan mode stamp back).marked with
      | .ok _ =>
        .ok ((Extraction.ofText (front ++ e.opening)).marked stamp ++ body ++ e.closing ++
          (Extraction.ofText back).fill fun t =>
            stamp.token ((scan mode stamp (front ++ e.opening)).records.length + t.number))
      | .error (.unterminatedTag line) => .error (.unterminatedTag
        (line + (front ++ e.opening ++ e.closing).count lineFeed + body.count lineFeed)) := by
  have hwhole := @error?_enclosed e front body hfront hbody mode back
  cases herror : (Extraction.ofText back).error? mode with
  | none =>
    rw [herror] at hwhole
    rw [marked_of_error? stamp herror, marked_of_error? stamp hwhole,
      marked_append (complete_enclosed hfront hbody), styledTags_enclosed hfront hbody,
      marked_enclosed hfront hbody]
    simp only [records_scan, List.length_map]
  | some error =>
    obtain ⟨line⟩ := error
    rw [herror] at hwhole
    rw [marked_of_error?_some stamp herror, marked_of_error?_some stamp hwhole]

end Enclosed

/-- A scan does not look into an enclosure.  Another text in it moves the lines of the records
behind the enclosure and nothing else, and stands in the marked text as it is. -/
theorem scan_enclosed {e : Enclosure} {mode : Mode} {stamp : Stamp} {front body body' : Bytes}
    (back : Bytes) (hfront : Sweep.RunsOut mode stamp front .start) (hbody : e.Allows body)
    (hbody' : e.Allows body') :
    let whole (s : Bytes) := scan mode stamp (front ++ e.opening ++ s ++ e.closing ++ back)
    let opened := scan mode stamp (front ++ e.opening)
    let alone := scan mode stamp back
    let lines := (front ++ e.opening ++ e.closing).count lineFeed
    let count := opened.records.length
    let inBack := (alone.records.zipIdx 1).map fun (r, number) =>
      { r with line := r.line + lines, token := stamp.token (count + number) }
    (whole body).records = opened.records ++ inBack.map (Record.below (body.count lineFeed)) ∧
    (whole body').records = opened.records ++ inBack.map (Record.below (body'.count lineFeed)) ∧
    ∃ before, opened.marked = .ok before ∧
      match alone.marked with
      | .ok _ =>
        let behind := (Extraction.ofText back).fill fun t => stamp.token (count + t.number)
        (whole body).marked = .ok (before ++ body ++ e.closing ++ behind) ∧
        (whole body').marked = .ok (before ++ body' ++ e.closing ++ behind)
      | .error (.unterminatedTag line) =>
        (whole body).marked = .error (.unterminatedTag (line + lines + body.count lineFeed)) ∧
        (whole body').marked = .error (.unterminatedTag (line + lines + body'.count lineFeed)) := by
  intro whole opened alone lines count inBack
  have hcomplete : (Document.ofText front).ending = .complete := Sweep.runsOut_iff.1 hfront
  refine ⟨records_enclosed hcomplete hbody mode stamp back,
    records_enclosed hcomplete hbody' mode stamp back, _, marked_opened hcomplete mode stamp, ?_⟩
  have hmarked := marked_scan_enclosed hcomplete hbody mode stamp back
  have hmarked' := marked_scan_enclosed hcomplete hbody' mode stamp back
  cases halone : alone.marked with
  | ok marked =>
    simp only [alone] at halone
    rw [halone] at hmarked hmarked'
    exact ⟨hmarked, hmarked'⟩
  | error error =>
    obtain ⟨line⟩ := error
    simp only [alone] at halone
    rw [halone] at hmarked hmarked'
    exact ⟨hmarked, hmarked'⟩

/-- A script whose start tag holds a `>` in quotes. -/
def RawTextElement.script : RawTextElement where
  inner := utf8 "script style='>'"
  endName := utf8 "SCRIPT"
  balanced := balanced_iff.2 (by decide +kernel)
  opensRawText := by decide +kernel
  sameName := by decide +kernel

theorem scan_enclosed_script :
    let e := Enclosure.rawText .script
    let front := utf8 "<p style=a>\n"
    let body := utf8 "</scripts>\n<b style='>\n</"
    let whole (s : Bytes) := scan .strict (Stamp.ofSeed 0)
      (front ++ e.opening ++ s ++ e.closing ++ utf8 "\n<i style=b>")
    (Sweep.RunsOut .strict (Stamp.ofSeed 0) front .start ∧ e.Allows body ∧ e.Allows []) ∧
      ((whole body).records.map fun r => (r.name, r.line)) =
        [(utf8 "p", 1), (utf8 "script", 2), (utf8 "i", 5)] ∧
      ((whole []).records.map fun r => (r.name, r.line)) =
        [(utf8 "p", 1), (utf8 "script", 2), (utf8 "i", 3)] ∧
      ∃ before behind, (whole body).marked = .ok (before ++ body ++ e.closing ++ behind) ∧
        (whole []).marked = .ok (before ++ [] ++ e.closing ++ behind) := by
  intro e front body whole
  have hfront : Sweep.RunsOut .strict (Stamp.ofSeed 0) front .start :=
    Sweep.runsOut_iff.2 (by decide +kernel)
  have hbody : e.Allows body := by decide +kernel
  have hempty : e.Allows [] := by decide +kernel
  obtain ⟨hrecords, hrecords', before, -, hmarked⟩ :=
    scan_enclosed (utf8 "\n<i style=b>") hfront hbody hempty
  rw [marked_of_error? (Stamp.ofSeed 0) (by decide +kernel)] at hmarked
  refine ⟨⟨hfront, hbody, hempty⟩, ?_, ?_, before, _, hmarked⟩
  · simp only [whole, hrecords, records_scan]
    decide +kernel
  · simp only [whole, hrecords', records_scan]
    decide +kernel

end StyleHoist
