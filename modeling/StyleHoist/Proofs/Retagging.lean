import StyleHoist.Proofs.Preservation

/-!
Rewritten tags, read back.  A rewritten tag is cut off whole whatever follows it, and it has the
name of the tag.  Main statement: it has the new attributes, those that the tag keeps, and the slash
of the tag, just if that slash is apart from the last attribute that is kept (`reread_iff`).
-/

set_option autoImplicit false
set_option relaxedAutoImplicit false

namespace StyleHoist

open Ascii Boundary

theorem exists_body_of_mem_styledTags {text : Bytes} {t : StyledTag}
    (h : t ∈ (Extraction.ofText text).styledTags) :
    ∃ first body, isLetter first = true ∧ first :: body = t.tag.body ∧ t.tag.Stands ∧
      Balanced (first :: body) := by
  obtain ⟨hmem, -⟩ := tag_of_mem_styledTags h
  obtain ⟨rest, hleads⟩ := leads_of_mem (segmentation_iff.2 rfl) hmem
  obtain ⟨first, body, hletter, hbalanced, htag⟩ := hleads.exists_body
  obtain ⟨hwhole, hstands⟩ := StartTag.ofBody_eq_iff.1 htag.symm
  exact ⟨first, body, hletter, hwhole, hstands, hbalanced⟩

namespace StyledTag

private theorem map_pair_added (scope : Bytes) (t : StyledTag) :
    (t.added scope).map Attribute.pair =
      (if t.draft.id = [] then [] else [(utf8 "id", some t.draft.id)]) ++
        [(utf8 "class", some (t.rule scope).classAttribute)] := by
  rw [added, List.map_append]
  split <;> rfl

theorem cut_rewritten {text : Bytes} {t : StyledTag} (scope rest : Bytes)
    (hmem : t ∈ (Extraction.ofText text).styledTags) (h : t.tag.Requotable) :
    Document.cut (t.fill (t.replacement scope) ++ rest) =
      .segment (.tag (StartTag.ofBody (t.rewrittenBody scope))) rest := by
  obtain ⟨first, body, hletter, hwhole, hstands, hbody⟩ := exists_body_of_mem_styledTags hmem
  rw [hwhole] at hbody
  have hbalanced := balanced_rewrittenBody scope hstands hbody h
  rw [fill_replacement]
  exact Document.cut_eq_segment_iff.2
    ⟨rfl, leads_rewrittenBody scope hletter hwhole hstands hbalanced⟩

/-- What is read where a rewritten tag stands: a tag of the same name.  It closes itself if the tag
did, and its attributes are the id, if there is one, the classes of its rule and the attributes that
the tag keeps, just if the slash of the tag is apart. -/
theorem reread_iff {text : Bytes} {t : StyledTag} (scope : Bytes)
    (hmem : t ∈ (Extraction.ofText text).styledTags) (h : t.tag.Requotable) :
    ∃ t', (∀ rest, Document.cut (t.fill (t.replacement scope) ++ rest) =
        .segment (.tag t') rest) ∧
      t'.name = t.tag.name ∧
      (t'.isSelfClosing = t.tag.isSelfClosing ∧
          t'.attributes.map Attribute.pair =
            (if t.draft.id = [] then [] else [(utf8 "id", some t.draft.id)]) ++
              (utf8 "class", some (t.rule scope).classAttribute) ::
                t.tag.kept.map Attribute.pair ↔
        t.tag.SlashApart) := by
  obtain ⟨first, body, -, hwhole, hstands, hbody⟩ := exists_body_of_mem_styledTags hmem
  rw [hwhole] at hbody
  have hname : (StartTag.ofBody (t.rewrittenBody scope)).name = t.tag.name := by
    rw [ofBody_rewrittenBody scope hstands h]
  refine ⟨_, fun rest => cut_rewritten scope rest hmem h, hname, ?_⟩
  constructor
  · rintro ⟨hself, -⟩
    by_contra hslash
    obtain ⟨hclosed, hopen⟩ := isSelfClosing_of_not_slashApart scope hstands hbody h hslash
    rw [hclosed, hopen] at hself
    cases hself
  · intro hslash
    obtain ⟨moved, hattributes, hpairs, hself⟩ :=
      attributes_rewrittenBody scope hstands hbody h hslash
    refine ⟨hself, ?_⟩
    rw [hattributes, List.map_append, map_pair_added, hpairs, List.append_assoc,
      List.singleton_append]

private def image (trail : Bytes) : StyledTag where
  tag := ⟨utf8 "img", [⟨[space], utf8 "src", some ⟨[], [], .unquoted, utf8 "x"⟩⟩,
    quotedAttribute (utf8 "style") (utf8 "a")], trail⟩
  style := utf8 "a"
  place := .first
  number := 1

private theorem clean_image : (image [space, slash]).tag.Clean := by decide +kernel

/-- A slash behind a blank. -/
theorem reread_slash_apart :
    ∃ t ∈ (Extraction.ofText (utf8 "<img src=x style=\"a\" />")).styledTags, ∃ t',
      Document.cut (t.fill (t.replacement [])) = .segment (.tag t') [] ∧
      t'.isSelfClosing = true ∧ t'.attributes.map Attribute.pair =
        [(utf8 "class", some (utf8 "img_line_1_1")), (utf8 "src", some (utf8 "x"))] := by
  have hmem : image [space, slash] ∈
      (Extraction.ofText (utf8 "<img src=x style=\"a\" />")).styledTags := by decide +kernel
  obtain ⟨t', hcut, -, hread⟩ := reread_iff [] hmem clean_image.toRequotable
  obtain ⟨hself, hpairs⟩ := hread.2 clean_image.slashApart
  refine ⟨_, hmem, t', ?_, ?_, ?_⟩
  · rw [← hcut [], List.append_nil]
  · rw [hself]
    decide +kernel
  · rw [hpairs]
    decide +kernel

/-- A slash right behind the style, which is right behind a value without quotes in the rewritten
tag. -/
theorem slash_into_value :
    ∃ t ∈ (Extraction.ofText (utf8 "<img src=x style=\"a\"/>")).styledTags,
      t.tag.Requotable ∧ t.tag.isSelfClosing = true ∧ ∃ t',
        Document.cut (t.fill (t.replacement [])) = .segment (.tag t') [] ∧
        t'.isSelfClosing = false ∧ t'.attributes.map Attribute.pair =
          [(utf8 "class", some (utf8 "img_line_1_1")), (utf8 "src", some (utf8 "x/"))] := by
  have hmem : image [slash] ∈
      (Extraction.ofText (utf8 "<img src=x style=\"a\"/>")).styledTags := by decide +kernel
  have h : (image [slash]).tag.Requotable := by decide +kernel
  have hcut := cut_rewritten [] [] hmem h
  rw [List.append_nil] at hcut
  refine ⟨_, hmem, h, by decide +kernel, _, hcut, ?_, ?_⟩
  · decide +kernel
  · decide +kernel

end StyledTag

end StyleHoist
