import StyleHoist.Proofs.Segmentation

/-!
Texts put together.  What a text ends with decides how it goes on: behind a complete document the
next one starts, and behind an open raw-text element its content goes on.  Main statements: a text
that ends with `>` is cut independently of what is put behind it (`Segmentation.extend`), and what
stands before a tag is cut independently of what takes the place of the tag
(`Segmentation.exchange`).
-/

set_option autoImplicit false
set_option relaxedAutoImplicit false

namespace StyleHoist

open Ascii Boundary

/-! ### End tags in front of other texts -/

namespace Boundary

theorem isEndTagOf_cons_append {name s t : Bytes} {b c : UInt8} (hb : isNameByte b = false)
    (hslash : b ≠ slash) :
    isEndTagOf name (c :: (s ++ b :: t)) = isEndTagOf name (c :: s) := by
  have hopening : utf8 "</" = [lessThan, slash] := rfl
  cases s with
  | nil => simp [isEndTagOf, hopening, List.isPrefixOf, beq_false_of_ne hslash.symm]
  | cons d s =>
    have hrun : (s ++ b :: t).takeWhile isNameByte = s.takeWhile isNameByte := by
      rw [List.takeWhile_append, List.takeWhile_cons_of_neg (by simp [hb]), List.append_nil]
      split
      next hall => exact ((List.takeWhile_prefix _).eq_of_length hall).symm
      next => rfl
    simp [isEndTagOf, hopening, List.isPrefixOf, hrun]

theorem isEndTagOf_congr {name s t t' : Bytes} {b c : UInt8} (hb : isNameByte b = false)
    (hslash : b ≠ slash) :
    isEndTagOf name (c :: (s ++ b :: t)) = isEndTagOf name (c :: (s ++ b :: t')) := by
  rw [isEndTagOf_cons_append hb hslash, isEndTagOf_cons_append hb hslash]

theorem isEndTagOf_append {name s : Bytes} (hlast : s.getLast? = some greaterThan) (t : Bytes) :
    isEndTagOf name (s ++ t) = isEndTagOf name s := by
  obtain ⟨w, rfl⟩ := List.getLast?_eq_some_iff.1 hlast
  cases w with
  | nil => rfl
  | cons c w =>
    rw [List.append_assoc]
    exact isEndTagOf_congr (by decide) (by decide)

theorem isEndTagOf_sameIgnoringCase {name name' : Bytes} (h : sameIgnoringCase name' name = true)
    (s : Bytes) : isEndTagOf name' s = isEndTagOf name s := by
  simp only [sameIgnoringCase, beq_iff_eq] at h
  simp only [isEndTagOf, sameIgnoringCase, h]

theorem exists_of_isEndTagOf {name s : Bytes} (h : isEndTagOf name s = true) :
    ∃ rest, s = lessThan :: slash :: rest := by
  obtain ⟨run, rest, rfl, -⟩ := isEndTagOf_iff.1 h
  exact ⟨run ++ rest, rfl⟩

end Boundary

private theorem not_isEndTagOf_tag {name rest : Bytes} {t : StartTag}
    (h : Segment.Leads rest (.tag t)) :
    isEndTagOf name ((Segment.tag t).written ++ rest) = false := by
  cases h with
  | @tag first body hletter hbody =>
    rw [← Bool.not_eq_true]
    intro hend
    obtain ⟨s, hs⟩ := exists_of_isEndTagOf hend
    rw [Segment.written, StartTag.written, StartTag.body_ofBody] at hs
    obtain ⟨-, hfirst⟩ := List.cons.inj hs
    obtain ⟨rfl, -⟩ := List.cons.inj hfirst
    exact absurd hletter (by decide)

theorem Segmentation.markup_of_isEndTagOf {name s : Bytes} {segments : List Segment}
    {ending : Ending} (h : Segmentation s segments ending) (hend : isEndTagOf name s = true) :
    (segments = [] ∧ s = ending.written) ∨
      ∃ body rest more, segments = .markup body :: more ∧
        s = lessThan :: (body ++ greaterThan :: rest) ∧ Segmentation rest more ending := by
  cases h with
  | tail htail => exact .inl ⟨rfl, rfl⟩
  | @segment segment rest more _ hleads hname hrest =>
    obtain ⟨s', hs⟩ := exists_of_isEndTagOf hend
    cases hleads with
    | text hnext =>
      obtain ⟨rfl, hrest'⟩ := List.cons.inj hs
      obtain ⟨next, hhead, hopens⟩ := hnext rfl
      have hslash : rest = slash :: s' := hrest'
      rw [hslash] at hhead
      cases hhead
      exact absurd hopens (by decide)
    | comment hbody => cases (List.cons.inj (List.cons.inj hs).2).1
    | markup hopens hletter hcomment hbody =>
      exact .inr ⟨_, rest, more, rfl, by simp [Segment.written], hrest⟩
    | tag hletter hbody =>
      rw [not_isEndTagOf_tag (.tag hletter hbody)] at hend
      cases hend
  | rawText hleads hname hend' hfirst hrest =>
    obtain ⟨t, rfl, -⟩ := Document.exists_of_rawTextName? hname
    rw [not_isEndTagOf_tag hleads] at hend
    cases hend
  | openRawText hleads hname hraw =>
    obtain ⟨t, rfl, -⟩ := Document.exists_of_rawTextName? hname
    rw [not_isEndTagOf_tag hleads] at hend
    cases hend

/-! ### Texts behind texts -/

/-- How a text goes on behind an ending, by the name of a raw-text element that is open there. -/
inductive Resumes (name : Option Bytes) (s : Bytes) :
    Ending → List Segment → Ending → Prop where
  | tail {last : Ending} {segments : List Segment} {ending : Ending} :
      last.IsTail → Segmentation (last.written ++ s) segments ending →
      Resumes name s last segments ending
  | rawText {opened content rest n : Bytes} {segments : List Segment} {ending : Ending} :
      name = some n → s = content ++ rest → isEndTagOf n rest = true →
      (∀ u v, opened ++ content ++ rest = u ++ v → isEndTagOf n v = true →
        (opened ++ content).length ≤ u.length) →
      Segmentation rest segments ending →
      Resumes name s (.openRawText opened) (.rawText (opened ++ content) :: segments) ending
  | openRawText {opened n : Bytes} :
      name = some n → (∀ u v, opened ++ s = u ++ v → isEndTagOf n v = false) →
      Resumes name s (.openRawText opened) [] (.openRawText (opened ++ s))

/-- The name of the raw-text element that the last segment opens. -/
def lastRawTextName? (segments : List Segment) : Option Bytes :=
  segments.getLast?.bind Document.rawTextName?

theorem first_congr {name content rest rest' : Bytes} (hend : isEndTagOf name rest = true)
    (hend' : isEndTagOf name rest' = true)
    (h : ∀ u v, content ++ rest = u ++ v → isEndTagOf name v = true →
      content.length ≤ u.length) :
    ∀ u v, content ++ rest' = u ++ v → isEndTagOf name v = true → content.length ≤ u.length := by
  intro u v huv hv
  obtain ⟨r, rfl⟩ := exists_of_isEndTagOf hend
  obtain ⟨r', rfl⟩ := exists_of_isEndTagOf hend'
  apply Nat.le_of_not_lt
  intro hlt
  obtain ⟨c, w, rfl, rfl⟩ := Bytes.exists_cons_of_append_eq huv (by omega)
  have hcongr : isEndTagOf name (c :: (w ++ lessThan :: slash :: r')) =
      isEndTagOf name (c :: (w ++ lessThan :: slash :: r)) :=
    isEndTagOf_congr (by decide) (by decide)
  rw [List.cons_append, hcongr] at hv
  have hle := h u _ (List.append_assoc _ _ _) hv
  omega

theorem exists_of_open {name opened rest u v : Bytes}
    (hraw : ∀ u v, opened = u ++ v → isEndTagOf name v = false)
    (hlast : ∀ b ∈ opened.getLast?, b = greaterThan) (huv : opened ++ rest = u ++ v)
    (hend : isEndTagOf name v = true) : ∃ w, u = opened ++ w ∧ rest = w ++ v := by
  rcases List.append_eq_append_iff.1 huv with ⟨w, rfl, rfl⟩ | ⟨w, rfl, rfl⟩
  · exact ⟨w, rfl, rfl⟩
  · cases hw : w.getLast? with
    | none =>
      obtain rfl := List.getLast?_eq_none_iff.1 hw
      exact ⟨[], by simp, rfl⟩
    | some b =>
      have hb : b = greaterThan := hlast b (by rw [List.getLast?_append, hw]; rfl)
      rw [isEndTagOf_append (hb ▸ hw), hraw u w rfl] at hend
      cases hend

theorem Resumes.complete {s : Bytes} {name : Option Bytes} {segments : List Segment}
    {ending : Ending} (h : Segmentation s segments ending) :
    Resumes name s .complete segments ending :=
  .tail .complete h

private theorem Resumes.of_cons {s t : Bytes} {segment : Segment} {segments more : List Segment}
    {last ending : Ending} (h : Segmentation s segments last)
    (hresumes : Resumes (lastRawTextName? (segment :: segments)) t last more ending) :
    Resumes (lastRawTextName? segments) t last more ending := by
  cases segments with
  | nil =>
    cases h with
    | tail htail =>
      cases hresumes with
      | tail _ hnext => exact .tail htail hnext
      | rawText => cases htail
      | openRawText => cases htail
  | cons next segments => exact hresumes

theorem Segment.Leads.congr {segment : Segment} {rest rest' : Bytes}
    (h : segment.Leads rest) (hhead : rest'.head? = rest.head?) : segment.Leads rest' := by
  cases h with
  | text hnext => exact .text fun hb => hhead ▸ hnext hb
  | comment hbody => exact .comment hbody
  | markup hopens hletter hcomment hbody => exact .markup hopens hletter hcomment hbody
  | tag hletter hbody => exact .tag hletter hbody

theorem Segment.Leads.append {segment : Segment} {rest : Bytes} (h : segment.Leads rest)
    (t : Bytes) : segment.Leads (rest ++ t) := by
  cases h with
  | text hnext =>
    apply Segment.Leads.text
    intro hb
    obtain ⟨next, hhead, hopens⟩ := hnext hb
    obtain ⟨tail, rfl⟩ := List.head?_eq_some_iff.1 hhead
    exact ⟨next, rfl, hopens⟩
  | comment hbody => exact .comment hbody
  | markup hopens hletter hcomment hbody => exact .markup hopens hletter hcomment hbody
  | tag hletter hbody => exact .tag hletter hbody

private theorem last_of_append {s t : Bytes} (h : ∀ b ∈ (s ++ t).getLast?, b = greaterThan) :
    ∀ b ∈ t.getLast?, b = greaterThan := by
  intro b hb
  apply h b
  rw [List.getLast?_append, Option.mem_def.1 hb]
  rfl

theorem Segmentation.last_ending {s : Bytes} {segments : List Segment} {ending : Ending}
    (h : Segmentation s segments ending) (hlast : ∀ b ∈ s.getLast?, b = greaterThan) :
    ∀ b ∈ ending.written.getLast?, b = greaterThan := by
  rw [← h.written] at hlast
  exact last_of_append hlast

/-- A text that ends with `>` is cut independently of what is put behind it. -/
theorem Segmentation.extend {s t : Bytes} {segments more : List Segment} {last ending : Ending}
    (h : Segmentation s segments last) (hlast : ∀ b ∈ s.getLast?, b = greaterThan)
    (hresumes : Resumes (lastRawTextName? segments) t last more ending) :
    Segmentation (s ++ t) (segments ++ more) ending := by
  induction h with
  | tail htail =>
    cases hresumes with
    | tail _ hnext => exact hnext
    | rawText => cases htail
    | openRawText => cases htail
  | @segment segment rest segments last hleads hname hrest ih =>
    rw [List.append_assoc]
    exact .segment (hleads.append t) hname (ih (last_of_append hlast) (hresumes.of_cons hrest))
  | @rawText segment name content rest segments last hleads hname hend hfirst hrest ih =>
    have htail : Resumes (lastRawTextName? (.rawText content :: segments)) t last more ending :=
      hresumes
    have hlast' := last_of_append (last_of_append hlast)
    have hend' : isEndTagOf name (rest ++ t) = true := by
      cases hb : rest.getLast? with
      | none =>
        rw [List.getLast?_eq_none_iff.1 hb] at hend
        cases hend
      | some b => rw [isEndTagOf_append (hlast' b hb ▸ hb), hend]
    rw [List.append_assoc, List.append_assoc]
    refine .rawText ?_ hname hend' (first_congr hend hend' hfirst) (ih hlast' (htail.of_cons hrest))
    rw [← List.append_assoc]
    exact hleads.append t
  | @openRawText segment name content hleads hname hraw =>
    have hleads' := hleads.append t
    rw [List.append_assoc]
    cases hresumes with
    | tail htail => cases htail
    | @rawText _ content' rest n more _ hn ht hend hfirst hrest =>
      subst ht
      obtain rfl : n = name := Option.some.inj (hn.symm.trans hname)
      rw [← List.append_assoc content] at hleads' ⊢
      exact .rawText hleads' hname hend hfirst hrest
    | @openRawText _ n hn hraw' =>
      obtain rfl : n = name := Option.some.inj (hn.symm.trans hname)
      exact .openRawText hleads' hname hraw'

theorem Segmentation.not_isEndTagOf_open {s name opened : Bytes} {segments : List Segment}
    (h : Segmentation s segments (.openRawText opened))
    (hname : lastRawTextName? segments = some name) :
    ∀ u v, opened = u ++ v → isEndTagOf name v = false := by
  generalize hlast : Ending.openRawText opened = last at h
  induction h with
  | tail htail =>
    subst hlast
    cases htail
  | @segment segment rest segments last hleads hsegment hrest ih =>
    cases segments with
    | nil =>
      subst hlast
      cases hrest with
      | tail htail => cases htail
    | cons next segments => exact ih hname hlast
  | @rawText segment n content rest segments last hleads hsegment hend hfirst hrest ih =>
    cases segments with
    | nil => cases hname
    | cons next segments => exact ih hname hlast
  | @openRawText segment n content hleads hsegment hraw =>
    cases hlast
    obtain rfl : n = name := Option.some.inj (hsegment.symm.trans hname)
    exact hraw

/-! ### Texts in front of a tag -/

private theorem head?_before {s s' : Bytes} {before behind : List Segment} {t : StartTag}
    {ending : Ending} (h : Segmentation s (before ++ .tag t :: behind) ending)
    (hhead : s'.head? = some lessThan) :
    (before.flatMap Segment.written ++ s').head? = s.head? := by
  rw [← h.written, List.flatMap_append, List.append_assoc, List.head?_append, List.head?_append,
    hhead]
  rfl

private theorem isEndTagOf_before {name s s' : Bytes} {before behind : List Segment} {t : StartTag}
    {ending : Ending} (h : Segmentation s (before ++ .tag t :: behind) ending)
    (hend : isEndTagOf name s = true) :
    isEndTagOf name (before.flatMap Segment.written ++ s') = true := by
  rcases h.markup_of_isEndTagOf hend with ⟨hnil, -⟩ | ⟨body, rest, more, hsegments, rfl, -⟩
  · simp at hnil
  · cases before with
    | nil => cases hsegments
    | cons first before =>
      obtain ⟨rfl, -⟩ := List.cons.inj hsegments
      have hwritten : (Segment.markup body :: before).flatMap Segment.written ++ s' =
          lessThan :: (body ++ greaterThan :: (before.flatMap Segment.written ++ s')) := by
        simp [Segment.written]
      rw [hwritten, ← hend]
      exact isEndTagOf_congr (by decide) (by decide)

/-- What stands before a tag is cut independently of what takes the place of the tag, as long as
that starts with `<` too. -/
theorem Segmentation.exchange {s s' : Bytes} {before behind segments' : List Segment}
    {t : StartTag} {ending ending' : Ending}
    (h : Segmentation s (before ++ .tag t :: behind) ending)
    (h' : Segmentation s' segments' ending') (hhead : s'.head? = some lessThan) :
    Segmentation (before.flatMap Segment.written ++ s') (before ++ segments') ending' := by
  generalize hsegments : before ++ .tag t :: behind = segments at h
  induction h generalizing before with
  | tail htail => simp at hsegments
  | @segment segment rest segments ending hleads hname hrest ih =>
    rcases List.append_eq_cons_iff.1 hsegments with ⟨rfl, -⟩ | ⟨before, rfl, rfl⟩
    · exact h'
    · rw [List.flatMap_cons, List.append_assoc]
      exact .segment (hleads.congr (head?_before hrest hhead)) hname (ih rfl)
  | @rawText segment name content rest segments ending hleads hname hend hfirst hrest ih =>
    rcases List.append_eq_cons_iff.1 hsegments with ⟨rfl, -⟩ | ⟨before, rfl, htail⟩
    · exact h'
    rcases List.append_eq_cons_iff.1 htail.symm with ⟨-, hraw⟩ | ⟨before, rfl, rfl⟩
    · cases hraw
    · have hend' : isEndTagOf name (before.flatMap Segment.written ++ s') = true :=
        isEndTagOf_before hrest hend
      rw [List.flatMap_cons, List.flatMap_cons, Segment.written, List.append_assoc,
        List.append_assoc]
      refine .rawText (hleads.congr ?_) hname hend' (first_congr hend hend' hfirst) (ih rfl)
      rw [List.head?_append, head?_before hrest hhead, List.head?_append]
  | @openRawText segment name content hleads hname hraw =>
    rcases List.append_eq_cons_iff.1 hsegments with ⟨rfl, -⟩ | ⟨before, rfl, htail⟩
    · exact h'
    · simp at htail

end StyleHoist
