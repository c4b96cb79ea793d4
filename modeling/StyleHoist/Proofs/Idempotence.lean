import StyleHoist.Proofs.Preservation
import StyleHoist.Proofs.Separation

/-!
Rewriting a rewritten text.  A second scan has nothing to do where the bytes for each styled tag
stand in for it and hold no styled tag themselves.  Main statement: this is what each tag needs for
a second scan to find nothing whatever follows the tag (`rescan_iff`).
-/

set_option autoImplicit false
set_option relaxedAutoImplicit false

namespace StyleHoist

open Ascii

/-- Whether a scan finds nothing in a text and leaves it as it is. -/
def NothingLeft (text : Bytes) : Prop :=
  ∀ stamp, (scan .permissive stamp text).records = [] ∧
    (scan .permissive stamp text).marked = .ok text

/-- A tag for which its rewritten bytes stand in, with no styled tag in them. -/
def StyledTag.Settled (scope : Bytes) (t : StyledTag) : Prop :=
  ∃ new last, StandsIn t.tag (t.fill (t.replacement scope)) new last ∧
    ∀ segment ∈ new, segment.IsKept

private theorem isKept_iff {segment : Segment} :
    segment.IsKept ↔ Piece.ofSegment .first 1 segment = .kept segment.written := by
  constructor
  · intro h
    exact h .first 1
  · intro h
    rcases Extraction.ofSegment_cases segment with hkept | ⟨t, style, rfl, hstyle⟩
    · exact hkept
    · simp [Piece.ofSegment, hstyle] at h

instance (segment : Segment) : Decidable segment.IsKept := decidable_of_iff _ isKept_iff.symm

theorem StyledTag.settled_iff {scope : Bytes} {t : StyledTag} :
    t.Settled scope ↔
      let document := Document.ofText (t.fill (t.replacement scope))
      t.tag.GoesOn document.segments document.ending ∧
        ∀ segment ∈ document.segments, segment.IsKept := by
  constructor
  · rintro ⟨new, last, hstands, hkept⟩
    obtain ⟨hfill, hgoes⟩ := standsIn_iff.1 hstands
    rw [segmentation_iff.1 hfill]
    exact ⟨hgoes, hkept⟩
  · rintro ⟨hgoes, hkept⟩
    exact ⟨_, _, standsIn_iff.2 ⟨segmentation_iff.2 rfl, hgoes⟩, hkept⟩

instance (scope : Bytes) (t : StyledTag) : Decidable (t.Settled scope) :=
  decidable_of_iff _ StyledTag.settled_iff.symm

theorem nothingLeft_iff {text : Bytes} {segments : List Segment} {ending : Ending}
    (h : Segmentation text segments ending) :
    NothingLeft text ↔ ∀ segment ∈ segments, segment.IsKept := by
  constructor
  · intro hnothing
    have hrecords := (hnothing (Stamp.ofSeed 0)).1
    rw [records_scan, List.map_eq_nil_iff, Extraction.ofText, segmentation_iff.1 h,
      styledTags_eq_nil_iff] at hrecords
    exact hrecords
  · exact scan_of_kept h

/-! ### Settled tags -/

private def KeptFor (t : StartTag) (new : List Segment) (_ : Ending) : Prop :=
  t.style? ≠ none ∧ ∀ segment ∈ new, segment.IsKept

private theorem exists_refill_of_settled {scope text : Bytes} {segments : List Segment}
    {ending : Ending} (h : Segmentation text segments ending)
    (hsettled : ∀ t ∈ (Extraction.ofText text).styledTags, t.Settled scope) :
    ∃ segments' ending', Refill KeptFor segments ending segments' ending' ∧
      Segmentation (direct scope text).html segments' ending' := by
  rw [html_direct]
  rw [Extraction.ofText, segmentation_iff.1 h] at hsettled ⊢
  apply exists_refill h
  intro t ht
  obtain ⟨new, last, hstands, hkept⟩ := hsettled t ht
  obtain ⟨-, hstyle⟩ := tag_of_mem_styledTags ht
  exact ⟨new, last, hstands, by simp [hstyle], hkept⟩

/-- Where all styled tags are settled, a second scan has nothing to do. -/
theorem nothingLeft_of_settled {scope text : Bytes}
    (hsettled : ∀ t ∈ (Extraction.ofText text).styledTags, t.Settled scope) :
    NothingLeft (direct scope text).html := by
  have htext := segmentation_iff.2 (@rfl _ (Document.ofText text))
  obtain ⟨segments', ending', hrefill, hhtml⟩ := exists_refill_of_settled htext hsettled
  exact (nothingLeft_iff hhtml).2 (hrefill.forall_isKept fun t new last hnew => hnew.2)

/-! ### The first tag that is not settled -/

private theorem of_pieces {text : Bytes} {segments : List Segment} {ending : Ending}
    {pieces : List Piece} (h : Segmentation text segments ending)
    (hpieces : Piece.ofSegments .first 1 segments = pieces) (scope : Bytes) :
    (Extraction.ofText text).styledTags = pieces.filterMap Piece.styledTag? ∧
      (direct scope text).html =
        pieces.flatMap (Piece.fill (StyledTag.replacement scope)) ++ ending.written := by
  rw [html_direct, Extraction.ofText, segmentation_iff.1 h, ← hpieces]
  exact ⟨rfl, rfl⟩

private theorem exists_front {scope text : Bytes} {front back : List Segment} {t : StartTag}
    {ending : Ending} {pieces : List Piece} {place : Place} {number : Nat}
    (htext : Segmentation text (front ++ .tag t :: back) ending)
    (hpieces : ∀ more, Piece.ofSegments .first 1 (front ++ more) =
      pieces ++ Piece.ofSegments place number more)
    (hsettled : ∀ t ∈ pieces.filterMap Piece.styledTag?, t.Settled scope) :
    ∃ front', ∀ s segments ending, Segmentation s segments ending → s.head? = some lessThan →
      Segmentation (pieces.flatMap (Piece.fill (StyledTag.replacement scope)) ++ s)
        (front' ++ segments) ending := by
  -- A tag without a style marks where the settled tags end.
  let marker := StartTag.ofBody (utf8 "a")
  have hmarker : Segmentation marker.written [.tag marker] .complete :=
    segmentation_iff.2 (by decide +kernel)
  have hstyle : marker.style? = none := by decide +kernel
  have hmarked := htext.exchange hmarker rfl
  have hmarks : Piece.ofSegments .first 1 (front ++ [.tag marker]) =
      pieces ++ [.kept marker.written] := by
    rw [hpieces, Piece.ofSegments_cons_kept (isKept_of_style? hstyle place number)]
    rfl
  obtain ⟨htags, hhtml⟩ := of_pieces hmarked hmarks scope
  rw [List.filterMap_append] at htags
  obtain ⟨segments', ending', hrefill, hrewritten⟩ := exists_refill_of_settled hmarked (by
    rw [htags]
    simpa [Piece.styledTag?] using hsettled)
  obtain ⟨front', rfl, rfl⟩ := hrefill.exists_before fun new last hnew => hnew.1 hstyle
  have hfront : pieces.flatMap (Piece.fill (StyledTag.replacement scope)) =
      front'.flatMap Segment.written := by
    have hwritten := hrewritten.written
    rw [hhtml] at hwritten
    simpa [Piece.fill, Segment.written, Ending.written] using hwritten.symm
  refine ⟨front', fun s segments ending hs hhead => ?_⟩
  rw [hfront]
  exact hrewritten.exchange hs hhead

private theorem take_stop {text : Bytes} {front back : List Segment} {ending : Ending}
    {t : StyledTag} (htext : Segmentation text (front ++ .tag t.tag :: back) ending)
    (hplace : t.place = Place.first.after (front.flatMap Segment.written)) :
    text.take t.stop.offset = front.flatMap Segment.written ++ t.tag.written := by
  have hoffset : t.stop.offset = (front.flatMap Segment.written ++ t.tag.written).length := by
    rw [StyledTag.stop, hplace, List.length_append]
    simp [Place.after, Place.first]
  have hwritten := htext.written
  rw [List.flatMap_append, List.flatMap_cons, Segment.written, List.append_assoc,
    List.append_assoc, ← List.append_assoc] at hwritten
  rw [← hwritten, hoffset, List.take_left]

private theorem exists_after {scope text : Bytes} {before behind : List StyledTag} {t : StyledTag}
    (htags : (Extraction.ofText text).styledTags = before ++ t :: behind)
    (hbefore : ∀ t ∈ before, t.Settled scope) (ht : ¬ t.Settled scope) :
    ∃ after, (Extraction.ofText (text.take t.stop.offset ++ after)).styledTags = before ++ [t] ∧
      ¬ NothingLeft (direct scope (text.take t.stop.offset ++ after)).html := by
  obtain ⟨front, back, pieces, hsegments, hstyle, hplace, rfl, hpieces⟩ :=
    exists_of_styledTags htags
  have htext := segmentation_iff.2 (@rfl _ (Document.ofText text))
  rw [hsegments] at htext
  have htake := take_stop htext hplace
  obtain ⟨rest, hleads⟩ := leads_of_mem htext (List.mem_append_right _ List.mem_cons_self)
  have hfill := segmentation_iff.2 (@rfl _ (Document.ofText (t.fill (t.replacement scope))))
  obtain ⟨after, ⟨more, ending, hmore, hkept⟩, ⟨new, last, hnew, hstyled⟩⟩ :=
    exists_separates hleads StyledTag.last_fill hfill fun h => ht ⟨_, _, h⟩
  have htext' : Segmentation (front.flatMap Segment.written ++ (t.tag.written ++ after))
      (front ++ .tag t.tag :: more) ending :=
    htext.exchange hmore rfl
  have hpieces' : Piece.ofSegments .first 1 (front ++ .tag t.tag :: more) =
      pieces ++ .styled t :: more.map fun segment => .kept segment.written := by
    rw [hpieces, Piece.ofSegments_cons_styled hstyle, Piece.ofSegments_of_kept hkept]
  obtain ⟨htags', hhtml'⟩ := of_pieces htext' hpieces' scope
  refine ⟨after, ?_, ?_⟩
  · rw [htake, List.append_assoc, htags', List.filterMap_append]
    simp [Piece.styledTag?]
  · have hafter : more.flatMap Segment.written ++ ending.written = after := by
      have hwritten := hmore.written
      rw [List.flatMap_cons, Segment.written, List.append_assoc] at hwritten
      exact List.append_cancel_left hwritten
    have hhtml : (direct scope (text.take t.stop.offset ++ after)).html =
        pieces.flatMap (Piece.fill (StyledTag.replacement scope)) ++
          (t.fill (t.replacement scope) ++ after) := by
      rw [htake, List.append_assoc, hhtml', ← hafter]
      simp [Piece.fill, List.flatMap_map]
    obtain ⟨front', hfront⟩ := exists_front htext hpieces hbefore
    have hrewritten := hfront _ _ _ hnew rfl
    rw [hhtml, nothingLeft_iff hrewritten]
    obtain ⟨segment, hsegment, hleft⟩ := hstyled
    intro hall
    exact hleft (hall segment (List.mem_append_right _ hsegment))

/-! ### A second scan -/

/-- What rewriting leaves to extract.  Nothing is left where all styled tags are settled, and up
to the first one that is not, being settled is what it takes for nothing to be left whatever
follows. -/
theorem rescan_iff {stamp : Stamp} {text marked : Bytes} (scope : Bytes)
    (hstamp : Bytes.occurs stamp.digits text = false)
    (hmarked : (scan .permissive stamp text).marked = .ok marked)
    (hacross : ∀ r ∈ (scan .permissive stamp text).records,
      ¬ Bytes.Straddles r.token r.name r.token) :
    let tags := (Extraction.ofText text).styledTags
    rewrite scope marked (scan .permissive stamp text).records = .ok (direct scope text) ∧
    ((∀ t ∈ tags, t.Settled scope) → NothingLeft (direct scope text).html) ∧
    ∀ before t behind, tags = before ++ t :: behind → (∀ t ∈ before, t.Settled scope) →
      (t.Settled scope ↔ ∀ after,
        let text' := text.take t.stop.offset ++ after
        (Extraction.ofText text').styledTags = before ++ [t] →
          NothingLeft (direct scope text').html) := by
  intro tags
  refine ⟨rewrite_eq_direct scope hstamp hmarked hacross, nothingLeft_of_settled, ?_⟩
  intro before t behind htags hbefore
  constructor
  · intro ht after text' htags'
    apply nothingLeft_of_settled
    intro t' ht'
    rw [htags', List.mem_append, List.mem_singleton] at ht'
    rcases ht' with ht' | rfl
    · exact hbefore t' ht'
    · exact ht
  · intro hnothing
    by_contra ht
    obtain ⟨after, htags', hleft⟩ := exists_after htags hbefore ht
    exact hleft (hnothing after htags')

theorem rescan_image :
    let stamp := Stamp.ofSeed 0
    let text := utf8 "<img id=x alt='y' style=\"a\" />"
    let marked := utf8 "<img" ++ stamp.token 1 ++ utf8 " />"
    Bytes.occurs stamp.digits text = false ∧
      (scan .permissive stamp text).marked = .ok marked ∧
      (∀ r ∈ (scan .permissive stamp text).records, ¬ Bytes.Straddles r.token r.name r.token) ∧
      (∀ t ∈ (Extraction.ofText text).styledTags, t.Settled []) ∧
      rewrite [] marked (scan .permissive stamp text).records = .ok (direct [] text) ∧
      NothingLeft (direct [] text).html := by
  have hstamp : Bytes.occurs (Stamp.ofSeed 0).digits
      (utf8 "<img id=x alt='y' style=\"a\" />") = false := by
    decide +kernel
  have hmarked : (scan .permissive (Stamp.ofSeed 0)
      (utf8 "<img id=x alt='y' style=\"a\" />")).marked =
        .ok (utf8 "<img" ++ (Stamp.ofSeed 0).token 1 ++ utf8 " />") :=
    (marked_of_error? _ rfl).trans (congrArg _ (by decide +kernel))
  have hacross : ∀ r ∈ (scan .permissive (Stamp.ofSeed 0)
      (utf8 "<img id=x alt='y' style=\"a\" />")).records,
        ¬ Bytes.Straddles r.token r.name r.token := by
    decide +kernel
  have hsettled : ∀ t ∈ (Extraction.ofText
      (utf8 "<img id=x alt='y' style=\"a\" />")).styledTags, t.Settled [] := by
    decide +kernel
  obtain ⟨hrewrite, hnothing, -⟩ := rescan_iff [] hstamp hmarked hacross
  exact ⟨hstamp, hmarked, hacross, hsettled, hrewrite, hnothing hsettled⟩

/-- Double quotes in a single-quoted id end it once the tag is rewritten, and what stood behind them
becomes an attribute. -/
theorem rescan_quoted_id :
    let stamp := Stamp.ofSeed 0
    let text := utf8 "<p id='x\" style=\"y' style=\"a\">"
    ∃ marked rewritten, (scan .permissive stamp text).marked = .ok marked ∧
      rewrite [] marked (scan .permissive stamp text).records = .ok rewritten ∧
      rewritten.html = utf8 "<p id=\"x\" style=\"y\" class=\"x\" style=\"y\">" ∧
      (scan .permissive stamp rewritten.html).records ≠ [] := by
  have hmarked : (scan .permissive (Stamp.ofSeed 0)
      (utf8 "<p id='x\" style=\"y' style=\"a\">")).marked =
        .ok (utf8 "<p" ++ (Stamp.ofSeed 0).token 1 ++ utf8 ">") :=
    (marked_of_error? _ rfl).trans (congrArg _ (by decide +kernel))
  have hrewrite : rewrite [] (utf8 "<p" ++ (Stamp.ofSeed 0).token 1 ++ utf8 ">")
      (scan .permissive (Stamp.ofSeed 0) (utf8 "<p id='x\" style=\"y' style=\"a\">")).records =
        .ok (direct [] (utf8 "<p id='x\" style=\"y' style=\"a\">")) :=
    rewrite_eq_direct [] (by decide +kernel) hmarked (by decide +kernel)
  exact ⟨_, _, hmarked, hrewrite, by decide +kernel, by decide +kernel⟩

end StyleHoist
