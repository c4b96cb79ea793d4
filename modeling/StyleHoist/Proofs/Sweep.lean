import StyleHoist.Proofs.Layout

/-!
The one pass over a text and the document that the text spells.  A pass that stands at an offset
owes the scan of the document behind it (`due`); a step leaves what is owed as it is, also a step
that ends the pass (`agrees_step`).  Main statement: a scan is what is read off the pieces of the
document (`scan_eq`).
-/

set_option autoImplicit false
set_option relaxedAutoImplicit false

namespace StyleHoist

open Ascii

/-! ### What a pass owes -/

namespace Sweep

/-- What holds between two steps of a pass. -/
structure Sound (text : Bytes) (s : Sweep) : Prop where
  copied_le : s.copied ≤ s.position
  position_le : s.position ≤ text.length
  counted_le : s.counter.offset ≤ s.position
  counted : s.counter = Place.first.after (text.take s.counter.offset)

/-- The scan that a pass ends with when a document stands behind its position. -/
def due (mode : Mode) (stamp : Stamp) (text : Bytes) (d : Document) (s : Sweep) : Scan :=
  let place := Place.first.after (text.take s.position)
  let e := Extraction.ofDocument place (s.records.length + 1) d
  let records := s.records ++ e.records stamp
  let reports := s.reports ++ e.reached text.length
  match e.error? mode with
  | some error => ⟨records, reports, .error error⟩
  | none =>
    ⟨records, reports ++ [.finished],
      .ok (s.output ++ Span.bytes text ⟨s.copied, s.position⟩ ++ e.marked stamp)⟩

/-- What a way for a step to end says about the scan that is due. -/
def Outcome.Agrees (mode : Mode) (stamp : Stamp) (text : Bytes) (result : Scan) : Outcome → Prop
  | onward next =>
    next.Sound text ∧ due mode stamp text (Document.ofText (text.drop next.position)) next = result
  | finished last => last.finish text = result
  | refused error last => ⟨last.records, last.reports, .error error⟩ = result

theorem sound_start (text : Bytes) : start.Sound text where
  copied_le := Nat.le_refl 0
  position_le := Nat.zero_le _
  counted_le := Nat.le_refl 0
  counted := by simp [start, Place.after, Place.first]

variable {mode : Mode} {stamp : Stamp} {text rest : Bytes} {s : Sweep}
  {segments : List Segment} {ending : Ending}

theorem Sound.placeAt_eq (hs : s.Sound text) {offset : Nat} (h : s.position ≤ offset) :
    s.placeAt text offset = Place.first.after (text.take offset) := by
  have hplace : s.placeAt text offset =
      (Place.first.after (text.take s.counter.offset)).after
        (Span.bytes text ⟨s.counter.offset, offset⟩) :=
    congrArg (fun p => Place.after p _) hs.counted
  rw [hplace, Place.after_append, Span.take_append_bytes (Nat.le_trans hs.counted_le h)]

theorem Sound.move (hs : s.Sound text) {position : Nat} (h : s.position ≤ position)
    (hle : position ≤ text.length) : Sound text { s with position } where
  copied_le := Nat.le_trans hs.copied_le h
  position_le := hle
  counted_le := Nat.le_trans hs.counted_le h
  counted := hs.counted

private theorem place_of_drop {t : Bytes} {offset : Nat} (h : text.drop offset = t ++ rest) :
    Place.first.after (text.take (offset + t.length)) =
      (Place.first.after (text.take offset)).after t := by
  rw [Place.after_append, List.take_add, h, List.take_left]

theorem due_kept {segment : Segment} (hs : s.Sound text)
    (hkept : segment.IsKept) (h : text.drop s.position = segment.written ++ rest) :
    due mode stamp text ⟨segment :: segments, ending⟩ s =
      due mode stamp text ⟨segments, ending⟩
        { s with position := s.position + segment.written.length } := by
  have hcopied := Span.bytes_append_bytes text hs.copied_le
    (Nat.le_add_right s.position segment.written.length)
  rw [Span.bytes_of_drop h] at hcopied
  simp only [due, Extraction.ofDocument_cons_kept (hkept _ _), ← place_of_drop h, ← hcopied,
    Extraction.records_cons_kept, Extraction.reached_cons_kept, Extraction.error?_cons,
    Extraction.marked, Extraction.fill_cons, Piece.fill, List.append_assoc]

section Styled

variable {t : StartTag} {style : Bytes}

private theorem extract_eq (hs : s.Sound text) (h : text.drop s.position = t.written ++ rest) :
    let place := Place.first.after (text.take s.position)
    let u : StyledTag := ⟨t, style, place, s.records.length + 1⟩
    let head := lessThan :: t.name
    extract stamp text (t.layout (s.position + 1)) style (s.position + t.written.length) s =
      { position := s.position + t.written.length
        copied := s.position + head.length + t.content.length
        output := s.output ++ Span.bytes text ⟨s.copied, s.position⟩ ++ head ++
          stamp.token u.number
        records := s.records ++ [u.record stamp]
        reports := s.reports ++ [.reached u.stop.offset text.length]
        counter := place } := by
  intro place u head
  have hplace : s.placeAt text s.position = place := hs.placeAt_eq (Nat.le_refl s.position)
  have hoffset : u.stop.offset = s.position + t.written.length := by
    simp [u, place, StyledTag.stop, Place.after, Place.first, hs.position_le]
  have hbody := drop_body h
  have hhead : text.drop s.position =
      head ++ (t.content ++ ((t.closing ++ [greaterThan]) ++ rest)) := by
    rw [h, StartTag.written_eq_append]
    simp only [head, List.append_assoc]
  have hname := Span.bytes_append_bytes text hs.copied_le
    (Nat.le_add_right s.position head.length)
  rw [Span.bytes_of_drop hhead] at hname
  have hnameStop : (t.layout (s.position + 1)).name.stop = s.position + head.length := by
    simp only [StartTag.layout, Span.covering, head, List.length_cons]
    omega
  have hcontentStop : (t.layout (s.position + 1)).contentStop =
      s.position + head.length + t.content.length := by
    simp only [StartTag.layout, head, List.length_cons]
    omega
  simp only [extract, hplace, record_layout hbody, hnameStop, hcontentStop, ← hname, hoffset,
    List.append_assoc]
  rfl

theorem due_styled (hs : s.Sound text) (hstyle : t.style? = some style)
    (h : text.drop s.position = t.written ++ rest) :
    due mode stamp text ⟨.tag t :: segments, ending⟩ s =
      due mode stamp text ⟨segments, ending⟩
        (extract stamp text (t.layout (s.position + 1)) style
          (s.position + t.written.length) s) := by
  have hparts : text.drop s.position =
      (lessThan :: t.name) ++ (t.content ++ ((t.closing ++ [greaterThan]) ++ rest)) := by
    rw [h, StartTag.written_eq_append]
    simp only [List.append_assoc]
  -- what stands behind the content is still to be copied
  have hclosing := Span.bytes_of_drop (Span.drop_of_drop (Span.drop_of_drop hparts))
  have hlength : s.position + t.written.length =
      s.position + (lessThan :: t.name).length + t.content.length +
        (t.closing ++ [greaterThan]).length := by
    rw [StartTag.written_eq_append]
    simp only [List.length_append]
    omega
  rw [← hlength] at hclosing
  rw [extract_eq hs h]
  simp only [due, Extraction.ofDocument_cons_styled hstyle, place_of_drop h, hclosing,
    Extraction.records_cons_styled, Extraction.reached_cons_styled, Extraction.error?_cons,
    Extraction.marked, Extraction.fill_cons, Piece.fill, StyledTag.fill, StartTag.withContent,
    List.append_assoc, List.cons_append, List.nil_append, List.length_append,
    List.length_singleton]

theorem sound_extract (hs : s.Sound text) (h : text.drop s.position = t.written ++ rest) :
    (extract stamp text (t.layout (s.position + 1)) style (s.position + t.written.length) s).Sound
      text := by
  have hend := Span.le_length_of_drop hs.position_le h
  have hlength := congrArg List.length t.written_eq_append
  have hcount : (Place.first.after (text.take s.position)).offset = s.position := by
    simp [Place.after, Place.first, hs.position_le]
  simp only [List.length_append] at hlength
  rw [extract_eq hs h]
  constructor
  · simp only
    omega
  · exact hend
  · simp only [hcount]
    omega
  · simp only [hcount]

end Styled

/-! ### Steps -/

private theorem finish_eq_due (hs : s.Sound text)
    (h : text.drop s.position = ending.written)
    (herror : ∀ stop, Extraction.error? mode ⟨[], ending, stop⟩ = none) :
    s.finish text = due mode stamp text ⟨[], ending⟩ s := by
  have hcopied : Span.bytes text ⟨s.copied, s.position⟩ ++ ending.written =
      text.drop s.copied := by
    have := List.take_append_drop (s.position - s.copied) (text.drop s.copied)
    rwa [List.drop_drop, Nat.add_sub_of_le hs.copied_le, h] at this
  simp only [due, Extraction.ofDocument, Piece.ofSegments, herror]
  simp [finish, Extraction.records, Extraction.styledTags, Extraction.reached, Extraction.marked,
    Extraction.fill, hcopied]

private theorem agrees_unterminated {body : Bytes} (hs : s.Sound text)
    (h : text.drop s.position = lessThan :: body) :
    (s.unterminated mode text).Agrees mode stamp text
      (due mode stamp text ⟨[], .openTag body⟩ s) := by
  have hplace := hs.placeAt_eq (Nat.le_refl s.position)
  cases mode with
  | permissive =>
    have hending : text.drop s.position = (Ending.openTag body).written := h
    exact finish_eq_due hs hending fun _ => rfl
  | strict =>
    simp [unterminated, Outcome.Agrees, due, Extraction.ofDocument, Piece.ofSegments,
      Extraction.error?, Extraction.strictError?, Extraction.records, Extraction.styledTags,
      Extraction.reached, hplace, Place.after]

private theorem due_text {plain : Bytes} (hs : s.Sound text) (hplain : lessThan ∉ plain)
    (h : text.drop s.position = plain ++ rest) :
    due mode stamp text (Document.ofText (plain ++ rest)) s =
      due mode stamp text (Document.ofText rest)
        { s with position := s.position + plain.length } := by
  induction plain generalizing s with
  | nil => rfl
  | cons b plain ih =>
    have hb : b ≠ lessThan := fun hb => hplain (hb ▸ List.mem_cons_self)
    have hcut : Document.cut (b :: (plain ++ rest)) = .segment (.text b) (plain ++ rest) := by
      simp [Document.cut, hb]
    have hstep : text.drop s.position = (Segment.text b).written ++ (plain ++ rest) := h
    have hmove := Span.le_length_of_drop hs.position_le hstep
    have hnext := ih (hs.move (Nat.le_add_right _ _) hmove)
      (fun hmem => hplain (List.mem_cons_of_mem b hmem)) (Span.drop_of_drop hstep)
    rw [List.cons_append, Document.ofText_of_segment hcut rfl,
      due_kept hs (fun _ _ => rfl) hstep, hnext]
    simp [Segment.written, Nat.add_assoc, Nat.add_comm plain.length]

/-- The state of a pass behind a start tag. -/
def behindTag (stamp : Stamp) (text : Bytes) (t : StartTag) (s : Sweep) : Sweep :=
  let stop := s.position + t.written.length
  match t.style? with
  | none => { s with position := stop }
  | some style => s.extract stamp text (t.layout (s.position + 1)) style stop

section Tag

variable {t : StartTag}

theorem position_behindTag :
    (s.behindTag stamp text t).position = s.position + t.written.length := by
  rw [behindTag]
  split <;> rfl

theorem sound_behindTag (hs : s.Sound text) (h : text.drop s.position = t.written ++ rest) :
    (s.behindTag stamp text t).Sound text := by
  rw [behindTag]
  split
  · exact hs.move (Nat.le_add_right _ _) (Span.le_length_of_drop hs.position_le h)
  · exact sound_extract hs h

private theorem due_tag (hs : s.Sound text) (h : text.drop s.position = t.written ++ rest) :
    due mode stamp text ⟨.tag t :: segments, ending⟩ s =
      due mode stamp text ⟨segments, ending⟩ (s.behindTag stamp text t) := by
  rw [behindTag]
  split
  next hstyle =>
    have hkept : (Segment.tag t).IsKept := fun place number => by
      simp [Piece.ofSegment, hstyle, Segment.written]
    exact due_kept hs hkept h
  next style hstyle => exact due_styled hs hstyle h

theorem passTag_eq {body : Bytes} (ht : t = StartTag.ofBody body)
    (h : text.drop s.position = t.written ++ rest) :
    s.passTag stamp text (s.position + 1 + body.length) =
      let next := s.behindTag stamp text t
      if t.opensRawText then next.passRawText text t.name else .onward next := by
  have hbody : t.body = body := by rw [ht, StartTag.body_ofBody]
  have hinner := drop_body h
  have hbytes : Span.bytes text ⟨s.position + 1, s.position + 1 + body.length⟩ = body := by
    rw [hbody] at hinner
    exact Span.bytes_of_drop hinner
  have hstop : s.position + 1 + body.length + 1 = s.position + t.written.length := by
    rw [t.length_written, hbody]
    omega
  simp only [passTag, hbytes, ← ht, valueOf?_layout hinner, name_layout hinner, hstop]
  rfl

private theorem agrees_passTag {body : Bytes} (hs : s.Sound text) (ht : t = StartTag.ofBody body)
    (h : text.drop s.position = t.written ++ rest)
    (hcut : Document.cut (text.drop s.position) = .segment (.tag t) rest) :
    (s.passTag stamp text (s.position + 1 + body.length)).Agrees mode stamp text
      (due mode stamp text (Document.ofText (text.drop s.position)) s) := by
  have hsound : (s.behindTag stamp text t).Sound text := sound_behindTag hs h
  have hrest : text.drop (s.behindTag stamp text t).position = rest := by
    rw [position_behindTag]
    exact Span.drop_of_drop h
  rw [passTag_eq ht h]
  by_cases hraw : t.opensRawText
  · have hname : Document.rawTextName? (.tag t) = some t.name := by
      simp [Document.rawTextName?, hraw]
    simp only [hraw, if_true, passRawText, Boundary.rawTextStop?, hrest]
    cases hsplit : Boundary.splitRawText? t.name rest with
    | none =>
      rw [Document.ofText_of_openRawText hcut hname hsplit, due_tag hs h]
      exact finish_eq_due hsound hrest fun _ => by cases mode <;> rfl
    | some parts =>
      obtain ⟨content, after⟩ := parts
      have hcontent : text.drop (s.behindTag stamp text t).position =
          (Segment.rawText content).written ++ after := by
        rw [hrest]
        exact (Boundary.written_of_splitRawText? hsplit).symm
      rw [Document.ofText_of_rawText hcut hname hsplit, due_tag hs h,
        due_kept hsound (fun _ _ => rfl) hcontent]
      refine ⟨hsound.move (Nat.le_add_right _ _)
        (Span.le_length_of_drop hsound.position_le hcontent), ?_⟩
      have hafter : text.drop ((s.behindTag stamp text t).position + content.length) = after :=
        Span.drop_of_drop hcontent
      simp only [hafter]
      rfl
  · have hname : Document.rawTextName? (.tag t) = none := by
      simp [Document.rawTextName?, hraw]
    rw [Document.ofText_of_segment hcut hname, due_tag hs h]
    simp only [hraw, Outcome.Agrees]
    exact ⟨hsound, by rw [hrest]⟩

end Tag

private theorem agrees_onward {segment : Segment} {stop : Nat} (hs : s.Sound text)
    (hcut : Document.cut (text.drop s.position) = .segment segment rest)
    (hname : Document.rawTextName? segment = none)
    (hkept : segment.IsKept)
    (hstop : stop = s.position + segment.written.length) :
    (Outcome.onward { s with position := stop }).Agrees mode stamp text
      (due mode stamp text (Document.ofText (text.drop s.position)) s) := by
  have h : text.drop s.position = segment.written ++ rest := by
    simpa [hcut, Document.Cut.written] using (Document.written_cut (text.drop s.position)).symm
  have hrest := Span.drop_of_drop h
  subst hstop
  rw [Document.ofText_of_segment hcut hname, due_kept hs hkept h]
  exact ⟨hs.move (Nat.le_add_right _ _) (Span.le_length_of_drop hs.position_le h), by rw [hrest]⟩

theorem passBracket_eq {inner : Bytes} (h : text.drop s.position = lessThan :: inner) :
    s.passBracket mode stamp text =
      match Document.cutBracket inner with
      | .segment (.tag t) _ => s.passTag stamp text (s.position + 1 + t.body.length)
      | .segment segment _ => .onward { s with position := s.position + segment.written.length }
      | .ending (.openTag _) => s.unterminated mode text
      | .ending _ => .finished s := by
  have hinner : text.drop (s.position + 1) = inner := by
    rw [← List.drop_drop, h]
    rfl
  have hdeep : text.drop (s.position + 4) = inner.drop 3 := by
    rw [← hinner, List.drop_drop]
  have hcomment : (utf8 "<!--").isPrefixOf (lessThan :: inner) =
      (utf8 "!--").isPrefixOf inner := by
    simp [show utf8 "<!--" = lessThan :: utf8 "!--" from rfl]
  have hhead : text[s.position + 1]? = inner.head? := by
    rw [← hinner, List.head?_drop]
  simp only [passBracket, h, hcomment, hhead, Boundary.commentStop?, hdeep, Boundary.tagStop?,
    hinner, Document.cutBracket]
  split
  · cases Boundary.splitComment? (inner.drop 3) with
    | none => rfl
    | some parts =>
      simp [Segment.written, show (utf8 "<!--").length = 4 from rfl, Nat.add_assoc]
  · cases inner with
    | nil => rfl
    | cons next tail =>
      simp only [List.head?_cons]
      split
      · cases Boundary.splitTag? none (next :: tail) with
        | none => rfl
        | some parts =>
          obtain ⟨body, rest⟩ := parts
          simp only [Option.map_some]
          by_cases hletter : isLetter next
          · simp only [hletter, if_true, StartTag.body_ofBody]
          · simp [hletter, Segment.written, Nat.add_assoc, Nat.add_comm 1]
      · rfl

private theorem agrees_passBracket {inner : Bytes} (hs : s.Sound text)
    (h : text.drop s.position = lessThan :: inner) :
    (s.passBracket mode stamp text).Agrees mode stamp text
      (due mode stamp text (Document.ofText (text.drop s.position)) s) := by
  have hcut : Document.cut (text.drop s.position) = Document.cutBracket inner := by
    rw [h, Document.cut, if_pos rfl]
  have hwritten := (Document.written_cut (text.drop s.position)).symm
  rw [passBracket_eq h]
  rw [hcut] at hwritten
  cases hbracket : Document.cutBracket inner with
  | segment segment rest =>
    rw [hbracket] at hcut hwritten
    cases segment with
    | tag t => exact agrees_passTag hs (Document.ofBody_of_cut hcut).symm hwritten hcut
    | _ => exact agrees_onward hs hcut rfl (fun _ _ => rfl) rfl
  | ending last =>
    rw [hbracket] at hcut hwritten
    rw [Document.ofText_of_ending hcut]
    cases last with
    | openTag body => exact agrees_unterminated hs hwritten
    | _ => exact finish_eq_due hs hwritten fun _ => by cases mode <;> rfl

theorem exists_of_findIdx? {t : Bytes} {skipped : Nat}
    (h : t.findIdx? (· == lessThan) = some skipped) :
    ∃ plain inner, t = plain ++ lessThan :: inner ∧ plain.length = skipped ∧
      lessThan ∉ plain := by
  obtain ⟨hlt, hfound, hbefore⟩ := List.findIdx?_eq_some_iff_getElem.1 h
  refine ⟨t.take skipped, t.drop (skipped + 1), ?_, ?_, ?_⟩
  · rw [← beq_iff_eq.1 hfound, ← List.drop_eq_getElem_cons hlt, List.take_append_drop]
  · rw [List.length_take]
    omega
  · intro hmem
    obtain ⟨i, hi, heq⟩ := List.mem_iff_getElem.1 hmem
    rw [List.length_take] at hi
    rw [List.getElem_take] at heq
    exact hbefore i (by omega) (by simp [heq])

theorem agrees_step (hs : s.Sound text) :
    (s.step mode stamp text).Agrees mode stamp text
      (due mode stamp text (Document.ofText (text.drop s.position)) s) := by
  rw [step]
  split
  next hnone =>
    have hplain : lessThan ∉ text.drop s.position := by
      simp only [List.findIdx?_eq_none_iff, beq_eq_false_iff_ne] at hnone
      intro hmem
      exact hnone _ hmem rfl
    have hwhole : text.drop s.position = text.drop s.position ++ [] := (List.append_nil _).symm
    have hbehind := Span.drop_of_drop hwhole
    have hnothing : Document.ofText [] = ⟨[], .complete⟩ := Document.ofText_of_ending rfl
    rw [hwhole, due_text hs hplain hwhole, hnothing]
    exact finish_eq_due (hs.move (Nat.le_add_right _ _)
      (Span.le_length_of_drop hs.position_le hwhole)) hbehind fun _ => by cases mode <;> rfl
  next skipped hskipped =>
    obtain ⟨plain, inner, hsplit, rfl, hplain⟩ := exists_of_findIdx? hskipped
    have hinside := Span.le_length_of_drop hs.position_le hsplit
    have hbehind := Span.drop_of_drop hsplit
    have hdue : due mode stamp text _ s = _ := due_text hs hplain hsplit
    rw [hsplit, hdue, ← hbehind]
    exact agrees_passBracket (hs.move (Nat.le_add_right _ _) hinside) hbehind

/-- A pass ends with the scan that is due. -/
theorem run_eq_due (hs : s.Sound text) :
    s.run mode stamp text = due mode stamp text (Document.ofText (text.drop s.position)) s := by
  fun_induction run mode stamp text s with
  | case1 s next h ih =>
    have hstep : (step mode stamp text s).Agrees mode stamp text _ := agrees_step hs
    rw [h] at hstep
    rw [ih hstep.1, hstep.2]
  | case2 s last h =>
    have hstep : (step mode stamp text s).Agrees mode stamp text _ := agrees_step hs
    rwa [h] at hstep
  | case3 s error last h =>
    have hstep : (step mode stamp text s).Agrees mode stamp text _ := agrees_step hs
    rwa [h] at hstep

end Sweep

/-- A scan is what is read off the pieces of the document. -/
theorem scan_eq (mode : Mode) (stamp : Stamp) (text : Bytes) :
    scan mode stamp text =
      let e := Extraction.ofText text
      let reports := .started :: e.reached text.length
      match e.error? mode with
      | some error => ⟨e.records stamp, reports, .error error⟩
      | none => ⟨e.records stamp, reports ++ [.finished], .ok (e.marked stamp)⟩ := by
  rw [scan, Sweep.run_eq_due (Sweep.sound_start text)]
  simp [Sweep.due, Sweep.start, Extraction.ofText, Place.after, Place.first, Span.bytes]

end StyleHoist
