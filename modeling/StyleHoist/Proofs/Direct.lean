import StyleHoist.Proofs.Sweep
import StyleHoist.Proofs.Substitution

/-!
Rewriting a text in place, without tokens.  Each styled tag of the text gives up the range between
its name and its closing part to the attributes that a rewritten tag has.  Main statement: scanning
a text and rewriting the marked text amounts to these edits (`rewrite_scan`), so what comes out does
not depend on the stamp.
-/

set_option autoImplicit false
set_option relaxedAutoImplicit false

namespace StyleHoist

open Ascii

/-! ### Edits -/

/-- A range of a text and the bytes that take its place. -/
structure Edit where
  span : Span
  bytes : Bytes

namespace Edit

/-- A text from an offset on, with edits from left to right. -/
def splice (text : Bytes) (start : Nat) : List Edit → Bytes
  | [] => text.drop start
  | e :: edits =>
    Span.bytes text ⟨start, e.span.start⟩ ++ e.bytes ++ splice text e.span.stop edits

/-- Whether the ranges of edits come one behind the other between an offset and an end. -/
def Ordered (stop : Nat) (start : Nat) : List Edit → Prop
  | [] => start ≤ stop
  | e :: edits => start ≤ e.span.start ∧ e.span.start ≤ e.span.stop ∧ Ordered stop e.span.stop edits

end Edit

namespace StyledTag

/-- The range between the name of a tag and its closing part. -/
def region (t : StyledTag) : Span :=
  let layout := t.tag.layout (t.place.offset + 1)
  ⟨layout.name.stop, layout.contentStop⟩

def draft (t : StyledTag) : Record := t.tag.record t.style t.place.line []

def rule (scope : Bytes) (t : StyledTag) : Rule := t.draft.rule scope t.number

def replacement (scope : Bytes) (t : StyledTag) : Bytes := (t.rule scope).attributes t.draft

def edit (scope : Bytes) (t : StyledTag) : Edit := ⟨t.region, t.replacement scope⟩

end StyledTag

/-- What rewriting makes of a text, said without tokens. -/
def direct (scope text : Bytes) : Rewrite where
  html := Edit.splice text 0 ((Extraction.ofText text).styledTags.map (StyledTag.edit scope))
  rules := (Extraction.ofText text).styledTags.map (StyledTag.rule scope)

/-! ### Styled tags in their text -/

private theorem zipIdx_ofDocument (place : Place) (number : Nat) (segments : List Segment)
    (ending : Ending) :
    (Extraction.ofDocument place number ⟨segments, ending⟩).styledTags.zipIdx number =
      (Extraction.ofDocument place number ⟨segments, ending⟩).styledTags.map
        fun t => (t, t.number) := by
  induction segments generalizing place number with
  | nil => rfl
  | cons segment segments ih =>
    rcases Extraction.ofSegment_cases segment with hkept | ⟨t, style, rfl, hstyle⟩
    · rw [Extraction.ofDocument_cons_kept (hkept place number)]
      exact ih _ _
    · rw [Extraction.ofDocument_cons_styled hstyle]
      simp only [Extraction.styledTags_cons_styled, List.zipIdx_cons, List.map_cons, ih]

theorem zipIdx_styledTags (text : Bytes) :
    (Extraction.ofText text).styledTags.zipIdx 1 =
      (Extraction.ofText text).styledTags.map fun t => (t, t.number) :=
  zipIdx_ofDocument .first 1 _ _

theorem exists_of_styledTags {place : Place} {number : Nat} {segments : List Segment}
    {ending : Ending} {before behind : List StyledTag} {t : StyledTag}
    (h : (Extraction.ofDocument place number ⟨segments, ending⟩).styledTags =
      before ++ t :: behind) :
    ∃ front back pieces, segments = front ++ .tag t.tag :: back ∧ t.tag.style? = some t.style ∧
      t.place = place.after (front.flatMap Segment.written) ∧
      pieces.filterMap Piece.styledTag? = before ∧
      ∀ more, Piece.ofSegments place number (front ++ more) =
        pieces ++ Piece.ofSegments t.place t.number more := by
  induction segments generalizing place number before with
  | nil => simp [Extraction.ofDocument, Extraction.styledTags, Piece.ofSegments] at h
  | cons segment segments ih =>
    rcases Extraction.ofSegment_cases segment with hkept | ⟨t', style, rfl, hstyle⟩
    · rw [Extraction.ofDocument_cons_kept (hkept place number),
        Extraction.styledTags_cons_kept] at h
      obtain ⟨front, back, pieces, rfl, hstyle, hplace, hbefore, hpieces⟩ := ih h
      refine ⟨segment :: front, back, .kept segment.written :: pieces, rfl, hstyle, ?_, hbefore,
        fun more => ?_⟩
      · rw [hplace, Place.after_append, List.flatMap_cons]
      · rw [List.cons_append, Piece.ofSegments_cons_kept (hkept place number), hpieces,
          List.cons_append]
    · rw [Extraction.ofDocument_cons_styled hstyle, Extraction.styledTags_cons_styled] at h
      rcases List.cons_eq_append_iff.1 h with ⟨rfl, hfirst⟩ | ⟨before, rfl, htail⟩
      · obtain ⟨rfl, -⟩ := List.cons.inj hfirst
        exact ⟨[], segments, [], rfl, hstyle, rfl, rfl, fun more => rfl⟩
      · obtain ⟨front, back, pieces, rfl, hstyle', hplace, hbefore, hpieces⟩ := ih htail
        refine ⟨.tag t' :: front, back, .styled ⟨t', style, place, number⟩ :: pieces, rfl, hstyle',
          ?_, congrArg _ hbefore, fun more => ?_⟩
        · rw [hplace, Place.after_append, List.flatMap_cons, Segment.written]
        · rw [List.cons_append, Piece.ofSegments_cons_styled hstyle, hpieces, List.cons_append]

theorem exists_of_mem_styledTags {place : Place} {number : Nat} {segments : List Segment}
    {ending : Ending} {t : StyledTag}
    (h : t ∈ (Extraction.ofDocument place number ⟨segments, ending⟩).styledTags) :
    ∃ front back, segments = front ++ .tag t.tag :: back ∧ t.tag.style? = some t.style ∧
      t.place = place.after (front.flatMap Segment.written) := by
  obtain ⟨before, behind, htags⟩ := List.append_of_mem h
  obtain ⟨front, back, -, hsegments, hstyle, hplace, -⟩ := exists_of_styledTags htags
  exact ⟨front, back, hsegments, hstyle, hplace⟩

private theorem region_bounds (t : StyledTag) :
    t.region.start = t.place.offset + (lessThan :: t.tag.name).length ∧
      t.region.stop = t.region.start + t.tag.content.length ∧
      t.stop.offset = t.region.stop + (t.tag.closing ++ [greaterThan]).length := by
  have hstart : t.region.start = t.place.offset + 1 + t.tag.name.length := rfl
  have hstop : t.region.stop = t.region.start + t.tag.content.length := rfl
  have hend : t.stop.offset = t.place.offset + t.tag.written.length := rfl
  have hwritten := congrArg List.length t.tag.written_eq_append
  simp only [List.length_append, List.length_cons, List.length_nil] at hwritten
  refine ⟨?_, hstop, ?_⟩
  · rw [hstart, List.length_cons]
    omega
  · rw [hend, hstop, hstart, hwritten, List.length_append, List.length_singleton]
    omega

section Edits

variable {text : Bytes} {place : Place} {number start : Nat} {segments : List Segment}
  {ending : Ending} {replacement : StyledTag → Bytes}

private theorem bytes_region {t : StyledTag} {rest : Bytes}
    (h : text.drop t.place.offset = t.tag.written ++ rest) (hstart : start ≤ t.place.offset) :
    Span.bytes text ⟨start, t.region.start⟩ =
        Span.bytes text ⟨start, t.place.offset⟩ ++ lessThan :: t.tag.name ∧
      Span.bytes text ⟨t.region.stop, t.stop.offset⟩ = t.tag.closing ++ [greaterThan] := by
  obtain ⟨hregion, hstop, hend⟩ := region_bounds t
  rw [t.tag.written_eq_append, List.append_assoc, List.append_assoc] at h
  have hcontent := Span.drop_of_drop h
  rw [← hregion] at hcontent
  have hclosing := Span.drop_of_drop hcontent
  rw [← hstop] at hclosing
  constructor
  · rw [hregion, ← Span.bytes_append_bytes text hstart (Nat.le_add_right _ _),
      Span.bytes_of_drop h]
  · rw [hend]
    exact Span.bytes_of_drop hclosing

private theorem splice_ofDocument (hstart : start ≤ place.offset)
    (htext : text.drop place.offset = segments.flatMap Segment.written ++ ending.written) :
    Edit.splice text start
        ((Extraction.ofDocument place number ⟨segments, ending⟩).styledTags.map
          fun t => ⟨t.region, replacement t⟩) =
      Span.bytes text ⟨start, place.offset⟩ ++
        (Extraction.ofDocument place number ⟨segments, ending⟩).fill replacement := by
  induction segments generalizing place number start with
  | nil =>
    have hnone : (Extraction.ofDocument place number ⟨[], ending⟩).fill replacement =
        text.drop place.offset := htext.symm
    rw [hnone]
    exact (Span.bytes_append_drop text hstart).symm
  | cons segment segments ih =>
    rw [List.flatMap_cons, List.append_assoc] at htext
    have hrest := Span.drop_of_drop htext
    rcases Extraction.ofSegment_cases segment with hkept | ⟨t, style, rfl, hstyle⟩
    · rw [Extraction.ofDocument_cons_kept (hkept place number)]
      have hbytes := Span.bytes_append_bytes text hstart (Nat.le_add_right place.offset
        segment.written.length)
      rw [Span.bytes_of_drop htext] at hbytes
      rw [Extraction.styledTags_cons_kept, Extraction.fill_cons, Piece.fill, ← List.append_assoc,
        hbytes]
      exact ih (Nat.le_trans hstart (Nat.le_add_right _ _)) hrest
    · rw [Extraction.ofDocument_cons_styled hstyle]
      obtain ⟨-, -, hend⟩ := region_bounds ⟨t, style, place, number⟩
      obtain ⟨hbefore, hbehind⟩ := @bytes_region text start ⟨t, style, place, number⟩ _ htext hstart
      rw [Extraction.styledTags_cons_styled, List.map_cons, Edit.splice, hbefore, ih ?_ hrest]
      · rw [StyledTag.stop] at hbehind
        simp only [hbehind]
        simp [Piece.fill, StyledTag.fill, StartTag.withContent]
      · exact Nat.le.intro hend.symm

private theorem ordered_ofDocument (hstart : start ≤ place.offset)
    (hlength : place.offset ≤ text.length)
    (htext : text.drop place.offset = segments.flatMap Segment.written ++ ending.written) :
    Edit.Ordered text.length start
      ((Extraction.ofDocument place number ⟨segments, ending⟩).styledTags.map
        fun t => ⟨t.region, replacement t⟩) := by
  induction segments generalizing place number start with
  | nil => exact Nat.le_trans hstart hlength
  | cons segment segments ih =>
    rw [List.flatMap_cons, List.append_assoc] at htext
    have hrest := Span.drop_of_drop htext
    have hinside := Span.le_length_of_drop hlength htext
    rcases Extraction.ofSegment_cases segment with hkept | ⟨t, style, rfl, hstyle⟩
    · rw [Extraction.ofDocument_cons_kept (hkept place number)]
      exact ih (Nat.le_trans hstart (Nat.le_add_right _ _)) hinside hrest
    · rw [Extraction.ofDocument_cons_styled hstyle]
      obtain ⟨hregion, hstop, hend⟩ := region_bounds ⟨t, style, place, number⟩
      refine ⟨?_, Nat.le.intro hstop.symm, ih (Nat.le.intro hend.symm) hinside hrest⟩
      exact Nat.le_trans hstart (Nat.le.intro hregion.symm)

private theorem written_prefix_ofDocument
    (htext : text.drop place.offset = segments.flatMap Segment.written ++ ending.written) :
    ∀ t ∈ (Extraction.ofDocument place number ⟨segments, ending⟩).styledTags,
      t.tag.written <+: text.drop t.place.offset := by
  induction segments generalizing place number with
  | nil =>
    intro t ht
    cases ht
  | cons segment segments ih =>
    rw [List.flatMap_cons, List.append_assoc] at htext
    have hrest := Span.drop_of_drop htext
    rcases Extraction.ofSegment_cases segment with hkept | ⟨t, style, rfl, hstyle⟩
    · rw [Extraction.ofDocument_cons_kept (hkept place number)]
      exact ih hrest
    · rw [Extraction.ofDocument_cons_styled hstyle, Extraction.styledTags_cons_styled,
        List.forall_mem_cons]
      exact ⟨⟨_, htext.symm⟩, ih hrest⟩

end Edits

/-! ### Scanning and rewriting -/

private theorem drop_first (text : Bytes) :
    text.drop Place.first.offset =
      (Document.ofText text).segments.flatMap Segment.written ++
        (Document.ofText text).ending.written :=
  (Document.written_ofText text).symm

theorem written_prefix_styledTags (text : Bytes) :
    ∀ t ∈ (Extraction.ofText text).styledTags, t.tag.written <+: text.drop t.place.offset :=
  written_prefix_ofDocument (drop_first text)

theorem html_direct (scope text : Bytes) :
    (direct scope text).html = (Extraction.ofText text).fill (StyledTag.replacement scope) :=
  splice_ofDocument (Nat.le_refl 0) (drop_first text)

private theorem rule_record (scope : Bytes) (stamp : Stamp) (t : StyledTag) :
    (t.record stamp).rule scope t.number = t.rule scope := rfl

private theorem attributes_record (scope : Bytes) (stamp : Stamp) (t : StyledTag) :
    (t.rule scope).attributes (t.record stamp) = t.replacement scope := rfl

theorem records_scan (mode : Mode) (stamp : Stamp) (text : Bytes) :
    (scan mode stamp text).records =
      (Extraction.ofText text).styledTags.map (StyledTag.record stamp) := by
  rw [scan_eq]
  simp only
  split <;> rfl

theorem marked_scan {mode : Mode} {stamp : Stamp} {text marked : Bytes}
    (h : (scan mode stamp text).marked = .ok marked) :
    marked = (Extraction.ofText text).marked stamp := by
  rw [scan_eq] at h
  simp only at h
  split at h
  · cases h
  · cases h
    rfl

theorem marked_of_error? {mode : Mode} {text : Bytes} (stamp : Stamp)
    (h : (Extraction.ofText text).error? mode = none) :
    (scan mode stamp text).marked = .ok ((Extraction.ofText text).marked stamp) := by
  rw [scan_eq]
  simp only [h]

theorem marked_of_error?_some {mode : Mode} {text : Bytes} {error : ScanError} (stamp : Stamp)
    (h : (Extraction.ofText text).error? mode = some error) :
    (scan mode stamp text).marked = .error error := by
  rw [scan_eq]
  simp only [h]

private theorem rulesOf_records (scope : Bytes) (stamp : Stamp) (text : Bytes) :
    rulesOf scope ((Extraction.ofText text).styledTags.map (StyledTag.record stamp)) =
      (Extraction.ofText text).styledTags.map (StyledTag.rule scope) := by
  rw [rulesOf, List.zipIdx_map, zipIdx_styledTags, List.map_map, List.map_map]
  exact List.map_congr_left fun t _ => rule_record scope stamp t

private theorem rewrite_marked {stamp : Stamp} {text : Bytes} (scope : Bytes)
    (hstamp : ¬ stamp.digits <:+: text)
    (hacross : ∀ t ∈ (Extraction.ofText text).styledTags,
      ¬ Bytes.Straddles (stamp.token t.number) t.tag.name (stamp.token t.number)) :
    rewrite scope ((Extraction.ofText text).marked stamp)
        ((Extraction.ofText text).styledTags.map (StyledTag.record stamp)) =
      .ok (direct scope text) := by
  have hsubstitutions :
      recordSubstitutions scope ((Extraction.ofText text).styledTags.map (StyledTag.record stamp)) =
        substitutionsOf stamp (StyledTag.replacement scope)
          (Extraction.ofText text).styledTags := by
    rw [recordSubstitutions, rulesOf_records, List.zip_map', List.map_map]
    exact List.map_congr_left fun t _ =>
      congrArg (Substitution.mk _) (attributes_record scope stamp t)
  rw [rewrite_eq_map, rulesOf_records, hsubstitutions, substitute_marked _ hstamp hacross,
    ← html_direct]
  rfl

/-- Rewriting what a scan has marked comes to the same as rewriting in place. -/
theorem rewrite_eq_direct {mode : Mode} {stamp : Stamp} {text marked : Bytes} (scope : Bytes)
    (hstamp : Bytes.occurs stamp.digits text = false)
    (hmarked : (scan mode stamp text).marked = .ok marked)
    (hacross : ∀ r ∈ (scan mode stamp text).records, ¬ Bytes.Straddles r.token r.name r.token) :
    rewrite scope marked (scan mode stamp text).records = .ok (direct scope text) := by
  rw [records_scan] at hacross ⊢
  rw [marked_scan hmarked]
  exact rewrite_marked scope (Bytes.occurs_eq_false_iff.1 hstamp) fun t ht =>
    hacross _ (List.mem_map_of_mem ht)

/-- Scanning a text and rewriting what is marked edits the regions of the styled tags and nothing
else, unless a token also occurs across the end of the name in front of it. -/
theorem rewrite_scan {mode : Mode} {stamp : Stamp} {text marked : Bytes} (scope : Bytes)
    (hstamp : Bytes.occurs stamp.digits text = false)
    (hmarked : (scan mode stamp text).marked = .ok marked)
    (hacross : ∀ r ∈ (scan mode stamp text).records, ¬ Bytes.Straddles r.token r.name r.token) :
    let tags := (Extraction.ofText text).styledTags
    let records := (scan mode stamp text).records
    let rules := (records.zipIdx 1).map fun (r, number) => r.rule scope number
    let edits := ((tags.map StyledTag.region).zip (rules.zip records)).map fun (span, rule, r) =>
      ⟨span, rule.attributes r⟩
    (∀ t ∈ tags, t.tag.written <+: text.drop t.place.offset) ∧
    records = tags.map (StyledTag.record stamp) ∧
    Edit.Ordered text.length 0 edits ∧
    rewrite scope marked records = .ok (direct scope text) ∧
    (direct scope text).html = Edit.splice text 0 edits ∧
    (direct scope text).rules = rules ∧
    (direct scope text).css = rules.flatMap fun rule =>
      rule.selector ++ utf8 "\x7b\n" ++ rule.declarations ++ utf8 "\x7d\n\n" := by
  intro tags records rules edits
  have hrecords : records = tags.map (StyledTag.record stamp) := records_scan mode stamp text
  have hrules : rules = tags.map (StyledTag.rule scope) := by
    rw [← rulesOf_records scope stamp text, ← hrecords]
    rfl
  have hedits : edits = tags.map (StyledTag.edit scope) := by
    simp only [edits, hrules, hrecords, List.zip_map', List.map_map]
    exact List.map_congr_left fun t _ => by simp [attributes_record, StyledTag.edit]
  have hrewrite : rewrite scope marked records = .ok (direct scope text) :=
    rewrite_eq_direct scope hstamp hmarked hacross
  refine ⟨written_prefix_ofDocument (drop_first text), hrecords, ?_, hrewrite, ?_, hrules.symm,
    ?_⟩
  · rw [hedits]
    exact ordered_ofDocument (Nat.le_refl 0) (Nat.zero_le _) (drop_first text)
  · rw [hedits]
    rfl
  · rw [hrules]
    rfl

theorem rewrite_scan_paragraph_link :
    let stamp := Stamp.ofSeed 0
    let text := utf8 "<p style=\"a\">x<i>y</i>\n<a href=z style=b>"
    let marked := utf8 "<p" ++ stamp.token 1 ++ utf8 ">x<i>y</i>\n<a" ++ stamp.token 2 ++ utf8 ">"
    Bytes.occurs stamp.digits text = false ∧
      (scan .strict stamp text).marked = .ok marked ∧
      (∀ r ∈ (scan .strict stamp text).records, ¬ Bytes.Straddles r.token r.name r.token) ∧
      rewrite [] marked (scan .strict stamp text).records = .ok (direct [] text) ∧
      (Extraction.ofText text).styledTags.map StyledTag.region = [⟨2, 12⟩, ⟨25, 40⟩] ∧
      (direct [] text).html =
        utf8 "<p class=\"p_line_1_1\">x<i>y</i>\n<a class=\"a_line_2_2\" href=z>" := by
  intro stamp text marked
  have hstamp : Bytes.occurs stamp.digits text = false := by decide +kernel
  have hmarked : (scan .strict stamp text).marked = .ok marked :=
    (marked_of_error? _ (by decide +kernel)).trans (congrArg _ (by decide +kernel))
  have hacross : ∀ r ∈ (scan .strict stamp text).records,
      ¬ Bytes.Straddles r.token r.name r.token := by
    decide +kernel
  exact ⟨hstamp, hmarked, hacross, (rewrite_scan [] hstamp hmarked hacross).2.2.2.1,
    by decide +kernel, by decide +kernel⟩

end StyleHoist
