import StyleHoist.Markup.Document
import StyleHoist.Proofs.Boundary

/-!
Which segments a text has, said without cutting it.  A segment leads a text when what stands behind
it does not turn it into another one, and only for a byte outside markup that depends on what stands
behind.  Main statement: a text has the segments and the ending of its document, and no others
(`segmentation_iff`).
-/

set_option autoImplicit false
set_option relaxedAutoImplicit false

namespace StyleHoist

open Ascii Boundary

/-- The segments that a text outside a raw-text element starts with, by the rest of the text. -/
inductive Segment.Leads (rest : Bytes) : Segment → Prop where
  | text {byte : UInt8} :
      (byte = lessThan → ∃ next ∈ rest.head?, opensMarkup next = false) → Leads rest (.text byte)
  | comment {body : Bytes} : ClosesComment body → Leads rest (.comment body)
  | markup {first : UInt8} {body : Bytes} :
      opensMarkup first = true → isLetter first = false → ¬ utf8 "!--" <+: first :: body →
      Balanced (first :: body) → Leads rest (.markup (first :: body))
  | tag {first : UInt8} {body : Bytes} :
      isLetter first = true → Balanced (first :: body) →
      Leads rest (.tag (StartTag.ofBody (first :: body)))

theorem Segment.Leads.exists_body {rest : Bytes} {t : StartTag}
    (h : Segment.Leads rest (.tag t)) :
    ∃ first body, isLetter first = true ∧ Balanced (first :: body) ∧
      t = StartTag.ofBody (first :: body) := by
  cases h with
  | tag hletter hbody => exact ⟨_, _, hletter, hbody, rfl⟩

/-- What may be left of a text outside a raw-text element when no segment leads it. -/
inductive Ending.IsTail : Ending → Prop where
  | complete : IsTail .complete
  | loneBracket : IsTail .loneBracket
  | openComment {body : Bytes} :
      ¬ utf8 ">" <+: body → ¬ utf8 "->" <+: body → ¬ utf8 "-->" <:+: body →
      IsTail (.openComment body)
  | openTag {first : UInt8} {body : Bytes} {last : Option UInt8} :
      opensMarkup first = true → ¬ utf8 "!--" <+: first :: body →
      quoteBehind? none (first :: body) = some last → IsTail (.openTag (first :: body))

/-- The ways to cut a text into segments and an ending.  What stands behind a raw-text start tag
runs up to the first end tag of the same name, or is the ending when there is none. -/
inductive Segmentation : Bytes → List Segment → Ending → Prop where
  | tail {ending : Ending} : ending.IsTail → Segmentation ending.written [] ending
  | segment {segment : Segment} {rest : Bytes} {segments : List Segment} {ending : Ending} :
      segment.Leads rest → Document.rawTextName? segment = none →
      Segmentation rest segments ending →
      Segmentation (segment.written ++ rest) (segment :: segments) ending
  | rawText {segment : Segment} {name content rest : Bytes} {segments : List Segment}
      {ending : Ending} :
      segment.Leads (content ++ rest) → Document.rawTextName? segment = some name →
      isEndTagOf name rest = true →
      (∀ u v, content ++ rest = u ++ v → isEndTagOf name v = true → content.length ≤ u.length) →
      Segmentation rest segments ending →
      Segmentation (segment.written ++ (content ++ rest)) (segment :: .rawText content :: segments)
        ending
  | openRawText {segment : Segment} {name content : Bytes} :
      segment.Leads content → Document.rawTextName? segment = some name →
      (∀ u v, content = u ++ v → isEndTagOf name v = false) →
      Segmentation (segment.written ++ content) [segment] (.openRawText content)

/-! ### One segment -/

namespace Document

private theorem exists_body {first : UInt8} {s body rest : Bytes}
    (hopens : opensMarkup first = true) (h : splitTag? none (first :: s) = some (body, rest)) :
    ∃ tail, body = first :: tail ∧ s = tail ++ greaterThan :: rest ∧ Balanced (first :: tail) := by
  obtain ⟨hwhole, hbody⟩ := splitTag?_eq_some_iff.1 h
  rcases List.cons_eq_append_iff.1 hwhole with ⟨-, hend⟩ | ⟨tail, rfl, htail⟩
  · cases hend
    exact absurd hopens (by decide)
  · exact ⟨tail, rfl, htail, balanced_iff.2 hbody⟩

private theorem leads_of_cutBracket {s rest : Bytes} {segment : Segment}
    (h : cutBracket s = .segment segment rest) : segment.Leads rest := by
  simp only [cutBracket] at h
  split at h
  next hcomment =>
    split at h
    · cases h
    next body after hsplit =>
      cases h
      exact .comment (splitComment?_eq_some_iff.1 hsplit).2
  next hcomment =>
    split at h
    · cases h
    next first s =>
      split at h
      next hopens =>
        split at h
        · cases h
        next body after hsplit =>
          obtain ⟨tail, rfl, rfl, hbody⟩ := exists_body hopens hsplit
          rw [List.isPrefixOf_iff_prefix, ← List.cons_append,
            prefix_append_cons_iff (by decide)] at hcomment
          cases h
          split
          next hletter => exact .tag hletter hbody
          next hletter => exact .markup hopens (by simpa using hletter) hcomment hbody
      next hopens =>
        cases h
        exact .text fun _ => ⟨first, rfl, by simpa using hopens⟩

private theorem cutBracket_cons {first : UInt8} {s : Bytes} (h : ¬ utf8 "!--" <+: first :: s) :
    cutBracket (first :: s) =
      if opensMarkup first then
        match splitTag? none (first :: s) with
        | none => .ending (.openTag (first :: s))
        | some (body, rest) =>
          .segment (if isLetter first then .tag (StartTag.ofBody body) else .markup body) rest
      else .segment (.text lessThan) (first :: s) :=
  if_neg (by rwa [List.isPrefixOf_iff_prefix])

private theorem not_comment {p : UInt8 → Bool} {value : Bool} {first : UInt8} {s : Bytes}
    (h : p first = value) (hp : p exclamation ≠ value) : ¬ utf8 "!--" <+: first :: s := by
  intro hcomment
  have hfirst : exclamation = first := (List.cons_prefix_cons.1 hcomment).1
  exact hp (hfirst ▸ h)

private theorem cut_comment (s : Bytes) :
    cut (utf8 "<!--" ++ s) =
      match splitComment? s with
      | none => .ending (.openComment s)
      | some (body, rest) => .segment (.comment body) rest := by
  have hopening : utf8 "<!--" ++ s = lessThan :: (utf8 "!--" ++ s) := rfl
  rw [hopening, cut, if_pos rfl]
  exact if_pos (List.isPrefixOf_iff_prefix.2 (List.prefix_append _ _))

private theorem cut_tag {first : UInt8} {body rest : Bytes} (hopens : opensMarkup first = true)
    (hcomment : ¬ utf8 "!--" <+: first :: body) (hbody : Balanced (first :: body)) :
    cut (lessThan :: first :: (body ++ greaterThan :: rest)) =
      .segment (if isLetter first then .tag (StartTag.ofBody (first :: body))
        else .markup (first :: body)) rest := by
  rw [cut, if_pos rfl, cutBracket_cons, if_pos hopens, ← List.cons_append,
    splitTag?_eq_some_iff.2 ⟨rfl, balanced_iff.1 hbody⟩]
  rwa [← List.cons_append, prefix_append_cons_iff (by decide)]

theorem cut_eq_segment_iff {s rest : Bytes} {segment : Segment} :
    cut s = .segment segment rest ↔ s = segment.written ++ rest ∧ segment.Leads rest := by
  constructor
  · intro h
    have hwritten := written_cut s
    rw [h] at hwritten
    refine ⟨hwritten.symm, ?_⟩
    cases s with
    | nil => cases h
    | cons b s =>
      simp only [cut] at h
      split at h
      next => exact leads_of_cutBracket h
      next hb =>
        cases h
        exact .text fun heq => absurd heq hb
  · rintro ⟨rfl, hleads⟩
    cases hleads with
    | @text byte hnext =>
      rw [Segment.written, List.singleton_append, cut]
      split
      next hb =>
        subst hb
        obtain ⟨next, hhead, hopens⟩ := hnext rfl
        obtain ⟨tail, rfl⟩ := List.head?_eq_some_iff.1 hhead
        rw [cutBracket_cons (not_comment hopens (by decide)), if_neg (by simp [hopens])]
      next => rfl
    | @comment body hbody =>
      rw [Segment.written, List.append_assoc, cut_comment,
        splitComment?_eq_some_iff.2 ⟨rfl, hbody⟩]
    | @markup first body hopens hletter hcomment hbody =>
      simp [Segment.written, cut_tag hopens hcomment hbody, hletter]
    | @tag first body hletter hbody =>
      have hopens : opensMarkup first = true := by simp [opensMarkup, hletter]
      have hcomment : ¬ utf8 "!--" <+: first :: body := not_comment hletter (by decide)
      simp [Segment.written, StartTag.written, StartTag.body_ofBody,
        cut_tag hopens hcomment hbody, hletter]

private theorem isTail_of_cutBracket {s : Bytes} {ending : Ending}
    (h : cutBracket s = .ending ending) : ending.IsTail := by
  simp only [cutBracket] at h
  split at h
  next hcomment =>
    split at h
    next hsplit =>
      cases h
      obtain ⟨habrupt, hhyphen, hend⟩ := splitComment?_eq_none_iff.1 hsplit
      exact .openComment habrupt hhyphen hend
    · cases h
  next hcomment =>
    split at h
    · cases h
      exact .loneBracket
    next first s =>
      split at h
      next hopens =>
        split at h
        next hsplit =>
          obtain ⟨last, hlast⟩ := splitTag?_eq_none_iff.1 hsplit
          cases h
          rw [List.isPrefixOf_iff_prefix] at hcomment
          exact .openTag hopens hcomment hlast
        · cases h
      · cases h

theorem cut_eq_ending_iff {s : Bytes} {ending : Ending} :
    cut s = .ending ending ↔ s = ending.written ∧ ending.IsTail := by
  constructor
  · intro h
    have hwritten := written_cut s
    rw [h] at hwritten
    refine ⟨hwritten.symm, ?_⟩
    cases s with
    | nil =>
      cases h
      exact .complete
    | cons b s =>
      simp only [cut] at h
      split at h
      · exact isTail_of_cutBracket h
      · cases h
  · rintro ⟨rfl, htail⟩
    cases htail with
    | complete => rfl
    | loneBracket => rfl
    | @openComment body habrupt hhyphen hend =>
      rw [Ending.written, cut_comment, splitComment?_eq_none_iff.2 ⟨habrupt, hhyphen, hend⟩]
    | @openTag first body last hopens hcomment hlast =>
      rw [Ending.written, cut, if_pos rfl, cutBracket_cons hcomment, if_pos hopens,
        splitTag?_eq_none_iff.2 ⟨last, hlast⟩]

end Document

/-! ### All segments -/

theorem Document.exists_of_rawTextName? {segment : Segment} {name : Bytes}
    (h : Document.rawTextName? segment = some name) :
    ∃ t, segment = .tag t ∧ t.opensRawText = true ∧ t.name = name := by
  cases segment with
  | tag t =>
    simp only [Document.rawTextName?] at h
    split at h
    next hopens =>
      cases h
      exact ⟨t, rfl, hopens, rfl⟩
    · cases h
  | _ => cases h

private theorem segmentation_ofText (s : Bytes) :
    Segmentation s (Document.ofText s).segments (Document.ofText s).ending := by
  fun_induction Document.ofText s with
  | case1 s ending h =>
    obtain ⟨rfl, htail⟩ := Document.cut_eq_ending_iff.1 h
    exact .tail htail
  | case2 s segment rest h hname document ih =>
    obtain ⟨rfl, hleads⟩ := Document.cut_eq_segment_iff.1 h
    exact .segment hleads hname ih
  | case3 s segment rest h name hname hraw =>
    obtain ⟨rfl, hleads⟩ := Document.cut_eq_segment_iff.1 h
    exact .openRawText hleads hname (splitRawText?_eq_none_iff.1 hraw)
  | case4 s segment rest h name hname content after hraw document ih =>
    obtain ⟨rfl, hleads⟩ := Document.cut_eq_segment_iff.1 h
    obtain ⟨rfl, hend, hfirst⟩ := splitRawText?_eq_some_iff.1 hraw
    exact .rawText hleads hname hend hfirst ih

/-- A text has the segments and the ending of its document, and no others. -/
theorem segmentation_iff {s : Bytes} {segments : List Segment} {ending : Ending} :
    Segmentation s segments ending ↔ Document.ofText s = ⟨segments, ending⟩ := by
  constructor
  · intro h
    induction h with
    | tail htail => exact Document.ofText_of_ending (Document.cut_eq_ending_iff.2 ⟨rfl, htail⟩)
    | segment hleads hname _ ih =>
      rw [Document.ofText_of_segment (Document.cut_eq_segment_iff.2 ⟨rfl, hleads⟩) hname, ih]
    | rawText hleads hname hend hfirst _ ih =>
      rw [Document.ofText_of_rawText (Document.cut_eq_segment_iff.2 ⟨rfl, hleads⟩) hname
        (splitRawText?_eq_some_iff.2 ⟨rfl, hend, hfirst⟩), ih]
    | openRawText hleads hname hraw =>
      exact Document.ofText_of_openRawText (Document.cut_eq_segment_iff.2 ⟨rfl, hleads⟩) hname
        (splitRawText?_eq_none_iff.2 hraw)
  · intro h
    have := segmentation_ofText s
    rwa [h] at this

theorem Segmentation.written {s : Bytes} {segments : List Segment} {ending : Ending}
    (h : Segmentation s segments ending) :
    segments.flatMap Segment.written ++ ending.written = s := by
  have hwritten := Document.written_ofText s
  rwa [segmentation_iff.1 h] at hwritten

end StyleHoist
