import StyleHoist.Proofs.Refill

/-!
Bytes that do not stand in for a tag.  They leave open a quote, a comment or a raw-text element that
the tag does not, or the other way round.  Main statement: some text behind the tag then holds no
styled tag, but holds one behind these bytes (`exists_separates`).
-/

set_option autoImplicit false
set_option relaxedAutoImplicit false

namespace StyleHoist

open Ascii Boundary

/-- A text that shows bytes not to stand in for a tag: behind the tag nothing in it is styled, but
something is when the bytes take the place of the tag. -/
structure Separates (t : StartTag) (bytes after : Bytes) : Prop where
  kept : ∃ behind ending, Segmentation (t.written ++ after) (.tag t :: behind) ending ∧
    ∀ segment ∈ behind, segment.IsKept
  styled : ∃ segments ending, Segmentation (bytes ++ after) segments ending ∧
    ∃ segment ∈ segments, ¬ segment.IsKept

/-! ### End tags -/

private theorem not_quote_of_isLetter {b : UInt8} (h : isLetter b = true) :
    isQuote b = false ∧ b ≠ greaterThan := by
  constructor
  · rw [← Bool.not_eq_true, isQuote, Bool.or_eq_true, beq_iff_eq, beq_iff_eq]
    rintro (rfl | rfl) <;> cases h
  · rintro rfl
    cases h

def endTag (name : Bytes) : Bytes := lessThan :: slash :: (name ++ [greaterThan])

def Segment.endTag (segment : Segment) : Bytes :=
  match Document.rawTextName? segment with
  | some name => StyleHoist.endTag name
  | none => []

private theorem isLetter_of_toLower {b : UInt8} (h : isLetter (toLower b) = true) :
    isLetter b = true := by
  simp only [toLower] at h
  split at h
  next hupper => rw [isLetter, hupper, Bool.true_or]
  next => exact h

theorem isLetter_of_isRawTextName {name : Bytes} (h : StartTag.isRawTextName name = true) :
    ∀ b ∈ name, isLetter b = true := by
  have hnames : ∀ n ∈ StartTag.rawTextNames, ∀ b ∈ n.map toLower, isLetter b = true := by
    decide +kernel
  rw [StartTag.isRawTextName, List.any_eq_true] at h
  obtain ⟨n, hn, hsame⟩ := h
  rw [sameIgnoringCase, beq_iff_eq] at hsame
  intro b hb
  apply isLetter_of_toLower
  apply hnames n hn
  rw [← hsame]
  exact List.mem_map_of_mem hb

theorem isLetter_of_rawTextName? {segment : Segment} {name : Bytes}
    (h : Document.rawTextName? segment = some name) : ∀ b ∈ name, isLetter b = true := by
  obtain ⟨t, -, hopens, rfl⟩ := Document.exists_of_rawTextName? h
  rw [StartTag.opensRawText, Bool.and_eq_true] at hopens
  exact isLetter_of_isRawTextName hopens.1

private theorem mem_endTag {segment : Segment} {b : UInt8} (h : b ∈ segment.endTag) :
    isLetter b = true ∨ b = lessThan ∨ b = slash ∨ b = greaterThan := by
  cases hname : Document.rawTextName? segment with
  | none => simp [Segment.endTag, hname] at h
  | some name =>
    simp only [Segment.endTag, hname, endTag, List.mem_cons, List.mem_append, List.not_mem_nil,
      or_false] at h
    rcases h with rfl | rfl | h | rfl
    · exact .inr (.inl rfl)
    · exact .inr (.inr (.inl rfl))
    · exact .inl (isLetter_of_rawTextName? hname b h)
    · exact .inr (.inr (.inr rfl))

private theorem not_mem_endTag {segment : Segment} {b : UInt8}
    (h : isLetter b = false ∧ b ∉ [lessThan, slash, greaterThan]) : b ∉ segment.endTag := by
  intro hb
  rcases mem_endTag hb with hletter | hother
  · rw [h.1] at hletter
    cases hletter
  · exact h.2 (by simpa using hother)

theorem isEndTagOf_endTag {name n : Bytes} (hn : ∀ b ∈ n, isLetter b = true) (rest : Bytes) :
    isEndTagOf name (endTag n ++ rest) = sameIgnoringCase n name := by
  have hopening : utf8 "</" = [lessThan, slash] := rfl
  have hbytes : ∀ b ∈ n, isNameByte b = true := fun b hb => by simp [isNameByte, hn b hb]
  have hstop : isNameByte greaterThan = false := by decide
  simp [isEndTagOf, endTag, hopening, List.isPrefixOf, List.takeWhile_append_of_pos hbytes, hstop]

private theorem length_le_of_isEndTagOf {name s t u v : Bytes} (hslash : slash ∉ s)
    (hlast : s.getLast? ≠ some lessThan) (huv : s ++ t = u ++ v)
    (hend : isEndTagOf name v = true) : s.length ≤ u.length := by
  obtain ⟨rest, rfl⟩ := exists_of_isEndTagOf hend
  rcases List.append_eq_append_iff.1 huv with ⟨w, rfl, -⟩ | ⟨w, rfl, hw⟩
  · rw [List.length_append]
    exact Nat.le_add_right _ _
  · rcases w with _ | ⟨b, _ | ⟨c, w⟩⟩
    · simp
    · obtain ⟨rfl, -⟩ := List.cons.inj hw
      simp at hlast
    · obtain ⟨rfl, htail⟩ := List.cons.inj hw
      obtain ⟨rfl, -⟩ := List.cons.inj htail
      simp at hslash

theorem Segment.Leads.of_tag {t : StartTag} {rest : Bytes} (h : Segment.Leads rest (.tag t))
    (rest' : Bytes) : Segment.Leads rest' (.tag t) := by
  cases h with
  | tag hletter hbody => exact .tag hletter hbody

theorem segmentation_endTag {name rest : Bytes} {segments : List Segment} {ending : Ending}
    (hname : ∀ b ∈ name, isLetter b = true) (h : Segmentation rest segments ending) :
    Segmentation (endTag name ++ rest) (.markup (slash :: name) :: segments) ending := by
  have hbalanced : Balanced (slash :: name) := by
    apply balanced_plain
    intro b hb
    rcases List.mem_cons.1 hb with rfl | hb
    · decide
    · exact not_quote_of_isLetter (hname b hb)
  have hcomment : ¬ utf8 "!--" <+: slash :: name := fun hcomment => by
    cases (List.cons_prefix_cons.1 hcomment).1
  exact .segment (.markup rfl rfl hcomment hbalanced) rfl h

theorem Segmentation.behind_endTag {segment : Segment} {rest : Bytes} {segments : List Segment}
    {ending : Ending} (hleads : ∀ rest, segment.Leads rest)
    (h : Segmentation rest segments ending) :
    ∃ closing, Segmentation (segment.written ++ (segment.endTag ++ rest))
        (segment :: (closing ++ segments)) ending ∧ ∀ next ∈ closing, next.IsKept := by
  cases hname : Document.rawTextName? segment with
  | none =>
    refine ⟨[], ?_, fun next hnext => absurd hnext List.not_mem_nil⟩
    rw [Segment.endTag, hname]
    exact .segment (hleads _) hname h
  | some name =>
    have hletters := isLetter_of_rawTextName? hname
    have hend : isEndTagOf name (StyleHoist.endTag name ++ rest) = true := by
      rw [isEndTagOf_endTag hletters, sameIgnoringCase, beq_iff_eq]
    refine ⟨[.rawText [], .markup (slash :: name)], ?_, ?_⟩
    · rw [Segment.endTag, hname]
      exact @Segmentation.rawText segment name [] _ _ _ (hleads _) hname hend
        (fun _ _ _ _ => Nat.zero_le _) (segmentation_endTag hletters h)
    · rw [List.forall_mem_cons, List.forall_mem_singleton]
      exact ⟨fun _ _ => rfl, fun _ _ => rfl⟩

private theorem exists_endTag_append (segment : Segment) (s : Bytes) :
    ∃ text, segment.endTag ++ lessThan :: s = lessThan :: text := by
  cases hname : Document.rawTextName? segment with
  | none => exact ⟨s, by rw [Segment.endTag, hname]; rfl⟩
  | some name => exact ⟨_, by rw [Segment.endTag, hname]; rfl⟩

/-! ### Texts behind a tag -/

private def bait : Segment := .tag (StartTag.ofBody (utf8 "p style=a"))

private theorem not_isKept_bait : ¬ bait.IsKept := by
  intro h
  exact absurd (h .first 1) (by decide +kernel)

private theorem segmentation_bait {s : Bytes} {segments : List Segment} {ending : Ending}
    (h : Segmentation s segments ending) :
    Segmentation (bait.written ++ s) (bait :: segments) ending := by
  have hbody : utf8 "p style=a" =
      [0x70, 0x20, 0x73, 0x74, 0x79, 0x6C, 0x65, 0x3D, 0x61] := rfl
  have hleads : Segment.Leads s bait := by
    rw [bait, hbody]
    exact .tag rfl (balanced_plain (by decide +kernel))
  exact .segment hleads (by decide +kernel) h

private theorem segmentation_comment {text : Bytes} (htext : hyphen ∉ text) :
    Segmentation (utf8 "<!--" ++ (lessThan :: text ++ utf8 "-->"))
      [.comment (lessThan :: text ++ utf8 "-->")] .complete := by
  have hcloses : ClosesComment ([] ++ lessThan :: text ++ utf8 "-->") :=
    closesComment_append (by decide) (by decide) (by decide) htext
  have hcomment := @Segmentation.segment _ [] [] .complete (.comment hcloses) rfl (.tail .complete)
  rwa [List.append_nil] at hcomment

private theorem segmentation_terminator :
    Segmentation (utf8 "-->") [.text hyphen, .text hyphen, .text greaterThan] .complete :=
  segmentation_iff.2 (by decide +kernel)

private theorem forall_isKept_comment (body : Bytes) :
    ∀ segment ∈ [Segment.comment body], segment.IsKept := by
  rw [List.forall_mem_singleton]
  exact fun _ _ => rfl

private theorem exists_leads_openTag {body : Bytes} (hbody : Ending.IsTail (.openTag body))
    (hend : body.getLast? = some greaterThan) :
    ∃ quote, isQuote quote = true ∧ ∀ inner, quote ∉ inner → ∃ lead : Segment,
      (∀ rest, lead.Leads rest) ∧
        lead.written = (Ending.openTag body).written ++ (inner ++ [quote, greaterThan]) := by
  cases hbody with
  | @openTag first body last hopens hcomment hquote =>
    obtain ⟨before, hbefore⟩ := List.getLast?_eq_some_iff.1 hend
    rw [hbefore] at hquote hcomment
    obtain ⟨quote, rfl, hquote'⟩ := exists_quote hquote
    refine ⟨quote, hquote', fun inner hinner => ?_⟩
    have hwhole : first :: (body ++ (inner ++ [quote])) =
        before ++ greaterThan :: (inner ++ [quote]) := by
      rw [← List.cons_append, hbefore, List.append_assoc, List.singleton_append]
    have hcomment' : ¬ utf8 "!--" <+: first :: (body ++ (inner ++ [quote])) := by
      rw [hwhole, prefix_append_cons_iff (by decide)]
      rwa [prefix_append_cons_iff (by decide)] at hcomment
    have hbalanced : Balanced (first :: (body ++ (inner ++ [quote]))) := by
      rw [balanced_iff, ← List.cons_append, hbefore, quoteBehind?_append, hquote,
        Option.bind_some, quoteBehind?_some hinner]
      simp [quoteBehind?, quoteAfter]
    cases hletter : isLetter first with
    | false =>
      refine ⟨_, fun rest => .markup hopens hletter hcomment' hbalanced, ?_⟩
      simp [Segment.written, Ending.written]
    | true =>
      refine ⟨_, fun rest => .tag hletter hbalanced, ?_⟩
      simp [Segment.written, StartTag.written, StartTag.body_ofBody, Ending.written]

private theorem not_mem_of_isQuote {quote : UInt8} (h : isQuote quote = true) :
    (∀ segment : Segment, quote ∉ segment.endTag) ∧ quote ∉ utf8 "<!--<" ∧ quote ≠ hyphen := by
  simp only [isQuote, Bool.or_eq_true, beq_iff_eq] at h
  rcases h with rfl | rfl <;> exact ⟨fun _ => not_mem_endTag (by decide), by decide, by decide⟩

private theorem length_le_opening {segment : Segment} {name rest u v : Bytes}
    (hname : ∀ n, Document.rawTextName? segment = some n → sameIgnoringCase n name = false)
    (huv : segment.endTag ++ utf8 "<!--" ++ rest = u ++ v) (hend : isEndTagOf name v = true) :
    (segment.endTag ++ utf8 "<!--").length ≤ u.length := by
  cases hn : Document.rawTextName? segment with
  | none =>
    rw [Segment.endTag, hn] at huv ⊢
    exact length_le_of_isEndTagOf (by decide) (by decide) huv hend
  | some n =>
    have hletters := isLetter_of_rawTextName? hn
    rw [Segment.endTag, hn] at huv ⊢
    rcases u with _ | ⟨b, _ | ⟨c, u⟩⟩
    · have hother := @isEndTagOf_endTag name n hletters (utf8 "<!--" ++ rest)
      rw [List.append_assoc, List.nil_append] at huv
      rw [huv, hend, hname n hn] at hother
      cases hother
    · obtain ⟨rest', rfl⟩ := exists_of_isEndTagOf hend
      obtain ⟨-, htail⟩ := List.cons.inj huv
      obtain ⟨hslash, -⟩ := List.cons.inj htail
      cases hslash
    · obtain ⟨-, htail⟩ := List.cons.inj huv
      obtain ⟨-, htail⟩ := List.cons.inj htail
      have hslash : slash ∉ n ++ [greaterThan] ++ utf8 "<!--" := by
        rw [List.mem_append, List.mem_append, not_or, not_or]
        refine ⟨⟨?_, by decide⟩, by decide⟩
        intro h
        cases hletters slash h
      have hlast : (n ++ [greaterThan] ++ utf8 "<!--").getLast? = some hyphen := by
        rw [List.getLast?_append]
        rfl
      have hle := length_le_of_isEndTagOf hslash (by rw [hlast]; decide) htail hend
      exact Nat.succ_le_succ (Nat.succ_le_succ hle)

private theorem lastRawTextName?_cons {segment : Segment} {segments : List Segment} {name : Bytes}
    (h : lastRawTextName? segments = some name) :
    lastRawTextName? (segment :: segments) = some name := by
  cases segments with
  | nil => cases h
  | cons next segments => exact h

private theorem isTail_or_openRawText {s : Bytes} {segments : List Segment} {last : Ending}
    (h : Segmentation s segments last) :
    last.IsTail ∨
      ∃ opened name, last = .openRawText opened ∧ lastRawTextName? segments = some name := by
  induction h with
  | tail htail => exact .inl htail
  | segment _ _ _ ih =>
    rcases ih with htail | ⟨opened, name, hlast, hname⟩
    · exact .inl htail
    · exact .inr ⟨opened, name, hlast, lastRawTextName?_cons hname⟩
  | rawText _ _ _ _ _ ih =>
    rcases ih with htail | ⟨opened, name, hlast, hname⟩
    · exact .inl htail
    · exact .inr ⟨opened, name, hlast, lastRawTextName?_cons (lastRawTextName?_cons hname)⟩
  | openRawText _ hname _ => exact .inr ⟨_, _, rfl, hname⟩

section Separates

variable {t : StartTag} {s : Bytes} {new : List Segment}
variable (hleads : ∀ rest, Segment.Leads rest (.tag t))
variable (hlast : ∀ b ∈ s.getLast?, b = greaterThan)

include hleads

private theorem separates_nil {last : Ending} (hs : Segmentation s new last)
    (hstyled : ∃ segment ∈ new, ¬ segment.IsKept) :
    Separates t s [] := by
  refine ⟨⟨[], ?_⟩, new, last, by rwa [List.append_nil], hstyled⟩
  have hnone : ∀ segment ∈ ([] : List Segment), segment.IsKept :=
    fun segment hsegment => absurd hsegment List.not_mem_nil
  cases hname : Document.rawTextName? (.tag t) with
  | none => exact ⟨.complete, .segment (hleads _) hname (.tail .complete), hnone⟩
  | some name =>
    refine ⟨.openRawText [], .openRawText (hleads _) hname fun u v huv => ?_, hnone⟩
    rw [(List.append_eq_nil_iff.1 huv.symm).2]
    rfl

include hlast

private theorem separates_complete (hraw : t.opensRawText = true)
    (hs : Segmentation s new .complete) : Separates t s bait.written := by
  -- Behind the tag a styled tag is raw text.
  have hbait := segmentation_bait (.tail .complete)
  rw [Ending.written, List.append_nil] at hbait
  refine ⟨⟨[], .openRawText bait.written, ?_, ?_⟩, new ++ [bait], .complete,
    hs.extend hlast (.complete hbait), bait, by simp, not_isKept_bait⟩
  · apply Segmentation.openRawText (hleads _) (if_pos hraw)
    intro u v huv
    rw [← Bool.not_eq_true]
    intro hend
    obtain ⟨rest, rfl⟩ := exists_of_isEndTagOf hend
    have hslash : slash ∈ bait.written := by
      rw [huv]
      simp
    exact absurd hslash (by decide +kernel)
  · intro segment hsegment
    cases hsegment

/-- A text that stays as it is behind the tag and its end tag, but brings a styled tag behind what
is open. -/
private theorem separates_of_resumes {last : Ending} {rest : Bytes} {behind more : List Segment}
    {ending ending' : Ending} (hs : Segmentation s new last)
    (hrest : Segmentation rest behind ending) (hbehind : ∀ segment ∈ behind, segment.IsKept)
    (hmore : Resumes (lastRawTextName? new) ((Segment.tag t).endTag ++ rest) last more ending')
    (hbait : bait ∈ more) : Separates t s ((Segment.tag t).endTag ++ rest) := by
  obtain ⟨closing, hclosing, hkept⟩ := Segmentation.behind_endTag hleads hrest
  refine ⟨⟨closing ++ behind, ending, hclosing, ?_⟩, new ++ more, ending', hs.extend hlast hmore,
    bait, List.mem_append_right _ hbait, not_isKept_bait⟩
  intro segment hsegment
  rcases List.mem_append.1 hsegment with hsegment | hsegment
  · exact hkept segment hsegment
  · exact hbehind segment hsegment

private theorem separates_openComment {body : Bytes} (hs : Segmentation s new (.openComment body))
    (hbody : Ending.IsTail (.openComment body)) : ∃ after, Separates t s after := by
  -- Behind the tag the terminator and the styled tag are raw text, behind the open comment the
  -- terminator ends it.
  have hxmp : Segmentation (utf8 "<xmp>--><p style=a></xmp>")
      [.tag (StartTag.ofBody (utf8 "xmp")), .rawText (utf8 "--><p style=a>"),
        .markup (utf8 "/xmp")] .complete :=
    segmentation_iff.2 (by decide +kernel)
  have hkept : ∀ segment ∈ [Segment.tag (StartTag.ofBody (utf8 "xmp")),
      .rawText (utf8 "--><p style=a>"), .markup (utf8 "/xmp")], segment.IsKept := by
    intro segment hsegment
    simp only [List.mem_cons, List.not_mem_nil, or_false] at hsegment
    rcases hsegment with rfl | rfl | rfl
    · exact isKept_of_style? (by decide +kernel)
    · exact fun _ _ => rfl
    · exact fun _ _ => rfl
  have hbait : Segmentation (utf8 "<p style=a></xmp>") [bait, .markup (utf8 "/xmp")] .complete :=
    segmentation_iff.2 (by decide +kernel)
  obtain ⟨text, htext⟩ := exists_endTag_append (.tag t) (utf8 "xmp>")
  have hhyphen : hyphen ∉ text := by
    intro h
    have hmem : hyphen ∈ (Segment.tag t).endTag ++ lessThan :: utf8 "xmp>" :=
      htext ▸ List.mem_cons_of_mem _ h
    rcases List.mem_append.1 hmem with hmem | hmem
    · exact not_mem_endTag (by decide) hmem
    · exact absurd hmem (by decide)
  have hwhole : (Ending.openComment body).written ++
        ((Segment.tag t).endTag ++ utf8 "<xmp>--><p style=a></xmp>") =
      (Segment.comment (body ++ lessThan :: text ++ utf8 "-->")).written ++
        utf8 "<p style=a></xmp>" := by
    have hparts : utf8 "<xmp>--><p style=a></xmp>" =
        lessThan :: utf8 "xmp>" ++ (utf8 "-->" ++ utf8 "<p style=a></xmp>") := rfl
    rw [hparts, ← List.append_assoc (Segment.tag t).endTag, htext]
    simp [Ending.written, Segment.written]
  cases hbody with
  | openComment habrupt hhyphen' hend =>
    have hmore : Resumes (lastRawTextName? new)
        ((Segment.tag t).endTag ++ utf8 "<xmp>--><p style=a></xmp>") (.openComment body)
        [.comment (body ++ lessThan :: text ++ utf8 "-->"), bait, .markup (utf8 "/xmp")]
        .complete := by
      refine .tail (.openComment habrupt hhyphen' hend) ?_
      rw [hwhole]
      exact .segment (.comment (closesComment_append habrupt hhyphen' hend hhyphen)) rfl hbait
    exact ⟨_, separates_of_resumes hleads hlast hs hxmp hkept hmore (by simp)⟩

private theorem separates_openTag {body : Bytes} (hs : Segmentation s new (.openTag body))
    (hbody : Ending.IsTail (.openTag body)) : ∃ after, Separates t s after := by
  -- Behind the tag all of it is a comment, behind the open tag the quote ends the open value and
  -- the bracket behind it the tag.
  have hend : body.getLast? = some greaterThan := by
    cases hb : body.getLast? with
    | none =>
      rw [List.getLast?_eq_none_iff.1 hb] at hbody
      cases hbody
    | some b =>
      rw [hs.last_ending hlast b (by rw [Ending.written, List.getLast?_cons, hb]; rfl)]
  obtain ⟨quote, hquote, hclose⟩ := exists_leads_openTag hbody hend
  obtain ⟨htags, hopening, hother⟩ := not_mem_of_isQuote hquote
  obtain ⟨lead, hlead, hwritten⟩ := hclose ((Segment.tag t).endTag ++ utf8 "<!--<") (by
    rw [List.mem_append, not_or]
    exact ⟨htags _, hopening⟩)
  have hhyphen : hyphen ∉ quote :: greaterThan :: (lead.endTag ++ bait.written) := by
    rw [List.mem_cons, List.mem_cons, List.mem_append, not_or, not_or, not_or]
    exact ⟨fun h => hother h.symm, by decide, not_mem_endTag (by decide), by decide +kernel⟩
  obtain ⟨closing, hclosing, -⟩ :=
    Segmentation.behind_endTag hlead (segmentation_bait segmentation_terminator)
  have hwhole : (Ending.openTag body).written ++ ((Segment.tag t).endTag ++ (utf8 "<!--" ++
        (lessThan :: (quote :: greaterThan :: (lead.endTag ++ bait.written)) ++ utf8 "-->"))) =
      lead.written ++ (lead.endTag ++ (bait.written ++ utf8 "-->")) := by
    have hparts : utf8 "<!--<" = utf8 "<!--" ++ [lessThan] := rfl
    rw [hwritten, hparts]
    simp
  refine ⟨_, separates_of_resumes hleads hlast hs (segmentation_comment hhyphen)
    (forall_isKept_comment _) (.tail hbody (hwhole ▸ hclosing)) (by simp)⟩

private theorem separates_openRawText {opened name : Bytes}
    (hs : Segmentation s new (.openRawText opened)) (hname : lastRawTextName? new = some name)
    (hother : ¬ (t.opensRawText = true ∧ sameIgnoringCase name t.name = true)) :
    ∃ after, Separates t s after := by
  -- Behind the tag the end tag stands in a comment, behind the open raw text it ends the element.
  have hletters : ∀ b ∈ name, isLetter b = true := by
    obtain ⟨segment, -, hsegment⟩ := Option.bind_eq_some_iff.1 hname
    exact isLetter_of_rawTextName? hsegment
  have hhyphen : hyphen ∉ slash :: (name ++ [greaterThan]) ++ bait.written := by
    rw [List.mem_append, List.mem_cons, List.mem_append, not_or, not_or, not_or]
    refine ⟨⟨by decide, fun h => ?_, by decide⟩, by decide +kernel⟩
    cases hletters hyphen h
  have hnames : ∀ n, Document.rawTextName? (.tag t) = some n → sameIgnoringCase n name = false := by
    intro n hn
    obtain ⟨t', ht, hopens, rfl⟩ := Document.exists_of_rawTextName? hn
    cases ht
    rw [← Bool.not_eq_true]
    intro hsame
    refine hother ⟨hopens, ?_⟩
    rw [sameIgnoringCase, beq_iff_eq] at hsame ⊢
    exact hsame.symm
  have hrest := segmentation_endTag hletters (segmentation_bait segmentation_terminator)
  have hend : isEndTagOf name (endTag name ++ (bait.written ++ utf8 "-->")) = true := by
    rw [isEndTagOf_endTag hletters, sameIgnoringCase, beq_iff_eq]
  have hfirst : ∀ u v, opened ++ ((Segment.tag t).endTag ++ utf8 "<!--") ++
      (endTag name ++ (bait.written ++ utf8 "-->")) = u ++ v → isEndTagOf name v = true →
      (opened ++ ((Segment.tag t).endTag ++ utf8 "<!--")).length ≤ u.length := by
    intro u v huv hv
    rw [List.append_assoc] at huv
    obtain ⟨w, rfl, hw⟩ := exists_of_open (hs.not_isEndTagOf_open hname)
      (hs.last_ending hlast) huv hv
    have hle := length_le_opening hnames hw hv
    simp only [List.length_append] at hle ⊢
    omega
  have hwhole : (Segment.tag t).endTag ++ utf8 "<!--" ++
        (endTag name ++ (bait.written ++ utf8 "-->")) =
      (Segment.tag t).endTag ++ (utf8 "<!--" ++
        (lessThan :: (slash :: (name ++ [greaterThan]) ++ bait.written) ++ utf8 "-->")) := by
    simp [endTag]
  have hmore := Resumes.rawText hname rfl hend hfirst hrest
  rw [hwhole] at hmore
  exact ⟨_, separates_of_resumes hleads hlast hs (segmentation_comment hhyphen)
    (forall_isKept_comment _) hmore (by simp)⟩

end Separates

/-- Bytes that do not stand in for a tag, or hold a styled tag themselves, are told from the tag by
some text behind them. -/
theorem exists_separates {t : StartTag} {s rest : Bytes} {new : List Segment} {last : Ending}
    (hleads : Segment.Leads rest (.tag t)) (hlast : ∀ b ∈ s.getLast?, b = greaterThan)
    (hs : Segmentation s new last)
    (h : ¬ (StandsIn t s new last ∧ ∀ segment ∈ new, segment.IsKept)) :
    ∃ after, Separates t s after := by
  have hleads' := hleads.of_tag
  by_cases hkept : ∀ segment ∈ new, segment.IsKept
  · have hstands : ¬ StandsIn t s new last := fun hstands => h ⟨hstands, hkept⟩
    rcases isTail_or_openRawText hs with htail | ⟨opened, name, rfl, hname⟩
    · cases htail with
      | complete =>
        cases hraw : t.opensRawText with
        | false => exact absurd (.complete hraw hs) hstands
        | true => exact ⟨_, separates_complete hleads' hlast hraw hs⟩
      | loneBracket => cases hs.last_ending hlast lessThan rfl
      | openComment habrupt hhyphen hend =>
        exact separates_openComment hleads' hlast hs (.openComment habrupt hhyphen hend)
      | openTag hopens hcomment hquote =>
        exact separates_openTag hleads' hlast hs (.openTag hopens hcomment hquote)
    · apply separates_openRawText hleads' hlast hs hname
      rintro ⟨hraw, hsame⟩
      exact hstands (.rawText hraw hs hname hsame)
  · exact ⟨[], separates_nil hleads' hs (by simpa using hkept)⟩

end StyleHoist
