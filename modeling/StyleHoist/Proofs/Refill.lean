import StyleHoist.Extraction.Scan
import StyleHoist.Proofs.Extension

/-!
Texts in which the styled tags have been rewritten.  What stands for a tag may be cut into other
segments than that tag, but it stands in for it only if the text behind goes on in the same way.
Main statement: where all bytes for styled tags stand in for them, the rewritten text is cut into
the same segments otherwise (`exists_refill`).
-/

set_option autoImplicit false
set_option relaxedAutoImplicit false

namespace StyleHoist

open Ascii Boundary

/-- Bytes that stand in for a tag, by what they are cut into: behind them the text goes on, or the
content of a raw-text element of the same name does. -/
inductive StandsIn (t : StartTag) (bytes : Bytes) : List Segment → Ending → Prop where
  | complete {segments : List Segment} :
      t.opensRawText = false → Segmentation bytes segments .complete →
      StandsIn t bytes segments .complete
  | rawText {segments : List Segment} {opened name : Bytes} :
      t.opensRawText = true → Segmentation bytes segments (.openRawText opened) →
      lastRawTextName? segments = some name → sameIgnoringCase name t.name = true →
      StandsIn t bytes segments (.openRawText opened)

/-- Whether a text goes on behind some segments and an ending as it does behind a tag. -/
def StartTag.GoesOn (t : StartTag) (segments : List Segment) : Ending → Prop
  | .complete => t.opensRawText = false
  | .openRawText _ =>
    t.opensRawText = true ∧ ∃ name ∈ lastRawTextName? segments, sameIgnoringCase name t.name = true
  | _ => False

instance (t : StartTag) (segments : List Segment) :
    (last : Ending) → Decidable (t.GoesOn segments last)
  | .complete => inferInstanceAs (Decidable (t.opensRawText = false))
  | .openRawText _ =>
    inferInstanceAs (Decidable (t.opensRawText = true ∧
      ∃ name ∈ lastRawTextName? segments, sameIgnoringCase name t.name = true))
  | .loneBracket => isFalse id
  | .openComment _ => isFalse id
  | .openTag _ => isFalse id

theorem standsIn_iff {t : StartTag} {bytes : Bytes} {segments : List Segment} {last : Ending} :
    StandsIn t bytes segments last ↔ Segmentation bytes segments last ∧ t.GoesOn segments last := by
  constructor
  · rintro (⟨hraw, hbytes⟩ | ⟨hraw, hbytes, hname, hsame⟩)
    · exact ⟨hbytes, hraw⟩
    · exact ⟨hbytes, hraw, _, hname, hsame⟩
  · rintro ⟨hbytes, hgoes⟩
    cases last with
    | complete => exact .complete hgoes hbytes
    | openRawText content =>
      obtain ⟨hraw, name, hname, hsame⟩ := hgoes
      exact .rawText hraw hbytes hname hsame
    | _ => exact hgoes.elim

theorem StandsIn.exists_rawText {t : StartTag} {bytes : Bytes} {segments : List Segment}
    {last : Ending} (h : StandsIn t bytes segments last) (hopens : t.opensRawText = true) :
    ∃ opened name, last = .openRawText opened ∧ Segmentation bytes segments (.openRawText opened) ∧
      lastRawTextName? segments = some name ∧ sameIgnoringCase name t.name = true := by
  cases h with
  | complete hclosed =>
    rw [hopens] at hclosed
    cases hclosed
  | rawText _ hbytes hname hsame => exact ⟨_, _, rfl, hbytes, hname, hsame⟩

/-- Segments and an ending, and those of the text in which other segments stand for styled tags.
What is open behind these goes over into the raw text that follows. -/
inductive Refill (P : StartTag → List Segment → Ending → Prop) :
    List Segment → Ending → List Segment → Ending → Prop where
  | tail {ending : Ending} : Refill P [] ending [] ending
  | kept {segment : Segment} {segments segments' : List Segment} {ending ending' : Ending} :
      segment.IsKept → Refill P segments ending segments' ending' →
      Refill P (segment :: segments) ending (segment :: segments') ending'
  | tag {t : StartTag} {new segments segments' : List Segment} {ending ending' : Ending} :
      P t new .complete → Refill P segments ending segments' ending' →
      Refill P (.tag t :: segments) ending (new ++ segments') ending'
  | rawText {t : StartTag} {opened content : Bytes} {new segments segments' : List Segment}
      {ending ending' : Ending} :
      P t new (.openRawText opened) → Refill P segments ending segments' ending' →
      Refill P (.tag t :: .rawText content :: segments) ending
        (new ++ .rawText (opened ++ content) :: segments') ending'
  | openRawText {t : StartTag} {opened content : Bytes} {new : List Segment} :
      P t new (.openRawText opened) →
      Refill P [.tag t] (.openRawText content) new (.openRawText (opened ++ content))

section Fill

variable {place : Place} {number : Nat} {segments : List Segment} {ending : Ending}
  {replacement : StyledTag → Bytes}

private theorem fill_kept {segment : Segment}
    (h : segment.IsKept) :
    (Extraction.ofDocument place number ⟨segment :: segments, ending⟩).fill replacement =
      segment.written ++
        (Extraction.ofDocument (place.after segment.written) number ⟨segments, ending⟩).fill
          replacement := by
  rw [Extraction.ofDocument_cons_kept (h place number), Extraction.fill_cons]
  rfl

private theorem fill_styled {t : StartTag} {style : Bytes} (h : t.style? = some style) :
    (Extraction.ofDocument place number ⟨.tag t :: segments, ending⟩).fill replacement =
      StyledTag.fill ⟨t, style, place, number⟩ (replacement ⟨t, style, place, number⟩) ++
        (Extraction.ofDocument (place.after t.written) (number + 1) ⟨segments, ending⟩).fill
          replacement := by
  rw [Extraction.ofDocument_cons_styled h, Extraction.fill_cons]
  rfl

private theorem head?_fill :
    ((Extraction.ofDocument place number ⟨segments, ending⟩).fill replacement).head? =
      (segments.flatMap Segment.written ++ ending.written).head? := by
  induction segments generalizing place number with
  | nil => rfl
  | cons segment segments ih =>
    rcases Extraction.ofSegment_cases segment with hkept | ⟨t, style, rfl, hstyle⟩
    · rw [fill_kept hkept, List.flatMap_cons, List.append_assoc, List.head?_append,
        List.head?_append, ih]
    · rw [fill_styled hstyle]
      rfl

private theorem isEndTagOf_fill (place : Place) (number : Nat) (replacement : StyledTag → Bytes)
    {s name : Bytes} (h : Segmentation s segments ending) (hend : isEndTagOf name s = true) :
    isEndTagOf name ((Extraction.ofDocument place number ⟨segments, ending⟩).fill replacement) =
      true := by
  rcases h.markup_of_isEndTagOf hend with ⟨rfl, rfl⟩ | ⟨body, rest, more, rfl, rfl, -⟩
  · exact hend
  · rw [fill_kept fun _ _ => rfl, Segment.written, List.cons_append, List.cons_append,
      List.append_assoc, ← hend]
    exact isEndTagOf_congr (by decide) (by decide)

end Fill

private theorem resumes_rawText {name n opened content rest new : Bytes}
    {segments' : List Segment} {ending' : Ending}
    (hn : sameIgnoringCase n name = true)
    (hopened : ∀ u v, opened = u ++ v → isEndTagOf n v = false)
    (hlast : ∀ b ∈ opened.getLast?, b = greaterThan)
    (hfirst : ∀ u v, content ++ rest = u ++ v → isEndTagOf name v = true →
      content.length ≤ u.length)
    (hend : isEndTagOf name rest = true) (hend' : isEndTagOf name new = true)
    (hnew : Segmentation new segments' ending') :
    Resumes (some n) (content ++ new) (.openRawText opened)
      (.rawText (opened ++ content) :: segments') ending' := by
  refine .rawText rfl rfl ?_ (fun u v huv hv => ?_) hnew
  · rw [isEndTagOf_sameIgnoringCase hn, hend']
  · rw [List.append_assoc] at huv
    obtain ⟨w, rfl, hw⟩ := exists_of_open hopened hlast huv hv
    rw [isEndTagOf_sameIgnoringCase hn] at hv
    have hle := first_congr hend hend' hfirst w v hw hv
    rw [List.length_append, List.length_append]
    omega

private theorem resumes_openRawText {name n opened content : Bytes}
    (hn : sameIgnoringCase n name = true)
    (hopened : ∀ u v, opened = u ++ v → isEndTagOf n v = false)
    (hlast : ∀ b ∈ opened.getLast?, b = greaterThan)
    (hraw : ∀ u v, content = u ++ v → isEndTagOf name v = false) :
    Resumes (some n) content (.openRawText opened) [] (.openRawText (opened ++ content)) := by
  apply Resumes.openRawText rfl
  intro u v huv
  rw [← Bool.not_eq_true]
  intro hv
  obtain ⟨w, rfl, hw⟩ := exists_of_open hopened hlast huv hv
  rw [isEndTagOf_sameIgnoringCase hn, hraw w v hw] at hv
  cases hv

theorem StyledTag.last_fill {t : StyledTag} {bytes : Bytes} :
    ∀ b ∈ (t.fill bytes).getLast?, b = greaterThan := by
  intro b hb
  rw [StyledTag.fill, StartTag.withContent, List.getLast?_append] at hb
  exact (Option.some.inj hb).symm

/-- Where all bytes for styled tags stand in for them, the rewritten text is cut into the same
segments otherwise. -/
theorem exists_refill {P : StartTag → List Segment → Ending → Prop} {s : Bytes} {place : Place}
    {number : Nat} {segments : List Segment} {ending : Ending} {replacement : StyledTag → Bytes}
    (h : Segmentation s segments ending)
    (htags : ∀ t ∈ (Extraction.ofDocument place number ⟨segments, ending⟩).styledTags,
      ∃ new last, StandsIn t.tag (t.fill (replacement t)) new last ∧ P t.tag new last) :
    ∃ segments' ending', Refill P segments ending segments' ending' ∧
      Segmentation ((Extraction.ofDocument place number ⟨segments, ending⟩).fill replacement)
        segments' ending' := by
  induction h generalizing place number with
  | tail htail => exact ⟨_, _, .tail, .tail htail⟩
  | @segment segment rest segments ending hleads hname hrest ih =>
    rcases Extraction.ofSegment_cases segment with hkept | ⟨t, style, rfl, hstyle⟩
    · rw [Extraction.ofDocument_cons_kept (hkept place number)] at htags
      obtain ⟨segments', ending', hrefill, hsegments⟩ := ih htags
      refine ⟨_, _, .kept hkept hrefill, ?_⟩
      rw [fill_kept hkept]
      refine .segment (hleads.congr ?_) hname hsegments
      rw [head?_fill, hrest.written]
    · rw [Extraction.ofDocument_cons_styled hstyle, Extraction.styledTags_cons_styled,
        List.forall_mem_cons] at htags
      obtain ⟨⟨new, last, hnew, hP⟩, htags⟩ := htags
      obtain ⟨segments', ending', hrefill, hsegments⟩ := ih htags
      rw [fill_styled hstyle]
      cases hnew with
      | complete hopens hnew =>
        exact ⟨_, _, .tag hP hrefill, hnew.extend StyledTag.last_fill (.complete hsegments)⟩
      | rawText hopens => simp [Document.rawTextName?, hopens] at hname
  | @rawText segment name content rest segments ending hleads hname hend hfirst hrest ih =>
    have hraw : (Segment.rawText content).IsKept := fun _ _ => rfl
    obtain ⟨t, rfl, hopens, rfl⟩ := Document.exists_of_rawTextName? hname
    rcases Extraction.ofSegment_cases (.tag t) with hkept | ⟨_, style, htag, hstyle⟩
    · rw [Extraction.ofDocument_cons_kept (hkept place number),
        Extraction.ofDocument_cons_kept (hraw _ _)] at htags
      obtain ⟨segments', ending', hrefill, hsegments⟩ := ih htags
      refine ⟨_, _, .kept hkept (.kept hraw hrefill), ?_⟩
      rw [fill_kept hkept, fill_kept hraw]
      refine .rawText (hleads.congr ?_) hname (isEndTagOf_fill _ _ _ hrest hend)
        (first_congr hend (isEndTagOf_fill _ _ _ hrest hend) hfirst) hsegments
      rw [List.head?_append, List.head?_append, head?_fill, hrest.written]
      rfl
    · cases htag
      rw [Extraction.ofDocument_cons_styled hstyle, Extraction.styledTags_cons_styled,
        List.forall_mem_cons, Extraction.ofDocument_cons_kept (hraw _ _)] at htags
      obtain ⟨⟨new, last, hnew, hP⟩, htags⟩ := htags
      obtain ⟨segments', ending', hrefill, hsegments⟩ := ih htags
      rw [fill_styled hstyle, fill_kept hraw]
      obtain ⟨opened, name, rfl, hnew, hlast, hsame⟩ := hnew.exists_rawText hopens
      have hopened := hnew.last_ending StyledTag.last_fill
      have hresumes := resumes_rawText hsame (hnew.not_isEndTagOf_open hlast) hopened hfirst hend
        (isEndTagOf_fill _ _ _ hrest hend) hsegments
      exact ⟨_, _, .rawText hP hrefill, hnew.extend StyledTag.last_fill (hlast ▸ hresumes)⟩
  | @openRawText segment name content hleads hname hraw =>
    obtain ⟨t, rfl, hopens, rfl⟩ := Document.exists_of_rawTextName? hname
    rcases Extraction.ofSegment_cases (.tag t) with hkept | ⟨_, style, htag, hstyle⟩
    · refine ⟨_, _, .kept hkept .tail, ?_⟩
      rw [fill_kept hkept]
      exact .openRawText hleads hname hraw
    · cases htag
      rw [Extraction.ofDocument_cons_styled hstyle, Extraction.styledTags_cons_styled,
        List.forall_mem_cons] at htags
      obtain ⟨⟨new, last, hnew, hP⟩, -⟩ := htags
      rw [fill_styled hstyle]
      obtain ⟨opened, name, rfl, hnew, hlast, hsame⟩ := hnew.exists_rawText hopens
      have hopened := hnew.last_ending StyledTag.last_fill
      have hresumes := resumes_openRawText hsame (hnew.not_isEndTagOf_open hlast) hopened hraw
      have hwhole := hnew.extend StyledTag.last_fill (hlast ▸ hresumes)
      rw [List.append_nil] at hwhole
      exact ⟨_, _, .openRawText hP, hwhole⟩

theorem Refill.forall_isKept {P : StartTag → List Segment → Ending → Prop}
    {segments segments' : List Segment} {ending ending' : Ending}
    (h : Refill P segments ending segments' ending')
    (hnew : ∀ t new last, P t new last → ∀ segment ∈ new, segment.IsKept) :
    ∀ segment ∈ segments', segment.IsKept := by
  induction h with
  | tail =>
    intro segment hsegment
    cases hsegment
  | kept hkept _ ih => exact List.forall_mem_cons.2 ⟨hkept, ih⟩
  | tag htag _ ih => exact List.forall_mem_append.2 ⟨hnew _ _ _ htag, ih⟩
  | rawText htag _ ih =>
    have hraw : ∀ content, (Segment.rawText content).IsKept := fun _ _ _ => rfl
    exact List.forall_mem_append.2 ⟨hnew _ _ _ htag, List.forall_mem_cons.2 ⟨hraw _, ih⟩⟩
  | openRawText htag => exact hnew _ _ _ htag

theorem Refill.exists_before {P : StartTag → List Segment → Ending → Prop} {t : StartTag}
    {before segments' : List Segment} {ending' : Ending}
    (h : Refill P (before ++ [.tag t]) .complete segments' ending')
    (ht : ∀ new last, ¬ P t new last) :
    ∃ before', segments' = before' ++ [.tag t] ∧ ending' = .complete := by
  generalize hsegments : before ++ [.tag t] = segments at h
  generalize hending : Ending.complete = ending at h
  induction h generalizing before with
  | tail => simp at hsegments
  | kept hkept hrest ih =>
    rcases List.append_eq_cons_iff.1 hsegments with ⟨rfl, hlast⟩ | ⟨before, rfl, rfl⟩
    · obtain ⟨rfl, rfl⟩ := List.cons.inj hlast
      cases hrest
      exact ⟨[], rfl, rfl⟩
    · obtain ⟨before', rfl, hcomplete⟩ := ih rfl hending
      exact ⟨_ :: before', rfl, hcomplete⟩
  | @tag t' new segments segments' ending ending' hnew hrest ih =>
    rcases List.append_eq_cons_iff.1 hsegments with ⟨rfl, hlast⟩ | ⟨before, rfl, rfl⟩
    · cases hlast
      exact absurd hnew (ht _ _)
    · obtain ⟨before', rfl, hcomplete⟩ := ih rfl hending
      exact ⟨new ++ before', (List.append_assoc _ _ _).symm, hcomplete⟩
  | @rawText t' opened content new segments segments' ending ending' hnew hrest ih =>
    rcases List.append_eq_cons_iff.1 hsegments with ⟨rfl, hlast⟩ | ⟨before, rfl, htail⟩
    · cases hlast
    rcases List.append_eq_cons_iff.1 htail.symm with ⟨-, hraw⟩ | ⟨before, rfl, rfl⟩
    · cases hraw
    · obtain ⟨before', rfl, hcomplete⟩ := ih rfl hending
      exact ⟨new ++ .rawText (opened ++ content) :: before', by simp, hcomplete⟩
  | openRawText => cases hending

end StyleHoist
