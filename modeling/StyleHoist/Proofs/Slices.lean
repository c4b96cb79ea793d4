import StyleHoist.Proofs.Characters
import StyleHoist.Proofs.Layout

/-!
Slices that are refused where a range does not lie in its text, or where it cuts a character.  Main
statement: in a well-formed text every range of the layout of a start tag is made of whole
characters (`whole_layout`), since an ASCII byte stands on one side of each of its ends.
-/

set_option autoImplicit false
set_option relaxedAutoImplicit false

namespace StyleHoist

open Ascii

/-! ### Slices -/

namespace Utf8

/-- Whether an offset falls between two characters, by the byte that stands there. -/
def isBoundary (text : Bytes) (offset : Nat) : Bool :=
  offset == 0 ||
    match text[offset]? with
    | none => offset == text.length
    | some b => !isContinuation b

/-- An offset that cuts a text into well-formed parts. -/
structure Between (text : Bytes) (offset : Nat) : Prop where
  le_length : offset ≤ text.length
  front : WellFormed (text.take offset)
  behind : WellFormed (text.drop offset)

variable {text s rest : Bytes} {offset : Nat} {b : UInt8}

theorem between_zero (h : WellFormed text) : Between text 0 :=
  ⟨Nat.zero_le _, ⟨[], rfl⟩, h⟩

theorem between_length (h : WellFormed text) : Between text text.length where
  le_length := Nat.le_refl _
  front := by rwa [List.take_length]
  behind := by
    rw [List.drop_length]
    exact ⟨[], rfl⟩

theorem between_of_drop (h : WellFormed text) (hdrop : text.drop offset = b :: rest)
    (hb : isContinuation b = false) : Between text offset := by
  have hle : offset < text.length := by
    have := congrArg List.length hdrop
    simp only [List.length_drop, List.length_cons] at this
    omega
  have hwhole : text = text.take offset ++ b :: rest := by
    rw [← hdrop, List.take_append_drop]
  rw [hwhole] at h
  obtain ⟨hfront, hbehind⟩ := h.split hb
  exact ⟨Nat.le_of_lt hle, hfront, by rwa [hdrop]⟩

theorem Between.forward (h : Between text offset) (hdrop : text.drop offset = s ++ rest)
    (hs : WellFormed s) : Between text (offset + s.length) where
  le_length := Span.le_length_of_drop h.le_length hdrop
  front := by
    rw [List.take_add, hdrop, List.take_left]
    exact h.front.append hs
  behind := by
    have hbehind := h.behind
    rw [hdrop] at hbehind
    rw [Span.drop_of_drop hdrop]
    exact hs.of_append hbehind

theorem Between.isBoundary_eq (h : Between text offset) : isBoundary text offset = true := by
  rw [isBoundary, Bool.or_eq_true]
  refine .inr ?_
  rw [← List.head?_drop]
  cases hdrop : text.drop offset with
  | nil =>
    have hend := List.drop_eq_nil_iff.1 hdrop
    exact beq_of_eq (Nat.le_antisymm h.le_length hend)
  | cons b rest =>
    have hhead := h.behind
    rw [hdrop] at hhead
    exact congrArg (!·) hhead.isContinuation_head

end Utf8

/-- The bytes from an offset on, if it lies in the text. -/
def Bytes.from? (text : Bytes) (offset : Nat) : Option Bytes :=
  if offset ≤ text.length then some (text.drop offset) else none

theorem Bytes.from?_eq {text : Bytes} {offset : Nat} (h : offset ≤ text.length) :
    text.from? offset = some (text.drop offset) :=
  if_pos h

namespace Span

/-- The bytes of a range, if it lies in the text. -/
def bytes? (text : Bytes) (span : Span) : Option Bytes :=
  if span.start ≤ span.stop ∧ span.stop ≤ text.length then some (span.bytes text) else none

/-- The characters of a range, if it lies in the text and cuts none of them. -/
def chars? (text : Bytes) (span : Span) : Option Bytes :=
  if Utf8.isBoundary text span.start && Utf8.isBoundary text span.stop then span.bytes? text
  else none

/-- A range of whole characters. -/
structure Whole (text : Bytes) (span : Span) : Prop where
  start_le_stop : span.start ≤ span.stop
  between_start : Utf8.Between text span.start
  between_stop : Utf8.Between text span.stop

variable {text s rest : Bytes} {start : Nat} {span : Span}

theorem bytes?_eq (hstart : span.start ≤ span.stop) (hstop : span.stop ≤ text.length) :
    span.bytes? text = some (span.bytes text) :=
  if_pos ⟨hstart, hstop⟩

theorem Whole.bytes?_eq (h : span.Whole text) : span.bytes? text = some (span.bytes text) :=
  Span.bytes?_eq h.start_le_stop h.between_stop.le_length

theorem Whole.chars?_eq (h : span.Whole text) : span.chars? text = some (span.bytes text) := by
  rw [chars?, h.between_start.isBoundary_eq, h.between_stop.isBoundary_eq, h.bytes?_eq]
  rfl

theorem whole_covering (h : Utf8.Between text start) (hdrop : text.drop start = s ++ rest)
    (hs : Utf8.WellFormed s) : (covering start s).Whole text :=
  ⟨Nat.le_add_right start _, h, h.forward hdrop hs⟩

end Span

/-! ### Parts of a tag -/

namespace Utf8.WellFormed

variable {p : UInt8 → Bool} {s : Bytes}

theorem skip (h : WellFormed s) (hp : ∀ b, p b = true → b.toNat < 128) :
    WellFormed (s.takeWhile p) ∧ WellFormed (s.dropWhile p) := by
  have hfront : WellFormed (s.takeWhile p) :=
    of_ascii fun b hb => hp b (List.all_eq_true.1 List.all_takeWhile b hb)
  refine ⟨hfront, hfront.of_append ?_⟩
  rwa [List.takeWhile_append_dropWhile]

theorem stop (front : Bytes) (h : WellFormed (front ++ s)) (hp : ∀ b, p b = false → b.toNat < 128) :
    WellFormed (front ++ s.takeWhile p) ∧ WellFormed (s.dropWhile p) := by
  have hwhole := List.takeWhile_append_dropWhile (p := p) (l := s)
  cases hdrop : s.dropWhile p with
  | nil =>
    rw [hdrop, List.append_nil] at hwhole
    exact ⟨by rwa [hwhole], [], rfl⟩
  | cons b rest =>
    rw [← hwhole, hdrop, ← List.append_assoc] at h
    exact h.split (isContinuation_of_lt (hp b (Bytes.stop_of_dropWhile_cons hdrop)))

theorem tail {b : UInt8} (h : WellFormed (b :: s)) (hb : b.toNat < 128) : WellFormed s :=
  (singleton hb).of_append h

end Utf8.WellFormed

theorem lt_of_isBlank {b : UInt8} (h : isBlank b = true) : b.toNat < 128 := by
  rcases isBlank_iff.1 h with rfl | rfl | rfl | rfl | rfl <;> decide

theorem lt_of_isGap {b : UInt8} (h : isGap b = true) : b.toNat < 128 := by
  rcases isGap_iff.1 h with rfl | rfl | rfl | rfl | rfl | rfl <;> decide

theorem lt_of_isQuote {b : UInt8} (h : isQuote b = true) : b.toNat < 128 := by
  rw [isQuote, Bool.or_eq_true, beq_iff_eq, beq_iff_eq] at h
  rcases h with rfl | rfl <;> decide

theorem lt_of_isNameTail {b : UInt8} (h : isNameTail b = false) : b.toNat < 128 := by
  rw [isNameTail, Bool.and_eq_false_iff, Bool.not_eq_false', bne_eq_false_iff_eq] at h
  rcases h with h | rfl
  · exact lt_of_isGap h
  · decide

structure Value.WellFormed (v : Value) : Prop where
  lead : Utf8.WellFormed v.lead
  text : Utf8.WellFormed v.text
  closing : Utf8.WellFormed v.quoting.closing

structure Attribute.WellFormed (a : Attribute) : Prop where
  gap : Utf8.WellFormed a.gap
  name : Utf8.WellFormed a.name
  value : ∀ v ∈ a.value, v.WellFormed

private theorem wellFormed_content {s : Bytes} (hs : Utf8.WellFormed s) :
    Utf8.WellFormed (Value.content s).1.opening ∧ Utf8.WellFormed (Value.content s).2.1 ∧
      Utf8.WellFormed (Value.content s).1.closing ∧ Utf8.WellFormed (Value.content s).2.2 := by
  have hnil : Utf8.WellFormed [] := ⟨[], rfl⟩
  cases s with
  | nil => exact ⟨hnil, hnil, hnil, hnil⟩
  | cons b s =>
    simp only [Value.content]
    split
    next hb =>
      have hquote : Utf8.WellFormed [b] := .singleton (lt_of_isQuote hb)
      have hs := hs.tail (lt_of_isQuote hb)
      have hstop : ∀ c, (c != b) = false → c.toNat < 128 := by
        intro c hc
        rw [bne_eq_false_iff_eq.1 hc]
        exact lt_of_isQuote hb
      obtain ⟨htext, hrest⟩ := Utf8.WellFormed.stop [] hs hstop
      split
      · exact ⟨hquote, hs, hnil, hnil⟩
      next q rest hdrop =>
        have hq : q = b := by simpa using Bytes.stop_of_dropWhile_cons hdrop
        rw [hdrop, hq] at hrest
        exact ⟨hquote, htext, hquote, hrest.tail (lt_of_isQuote hb)⟩
    · have hstop : ∀ c, (!isBlank c) = false → c.toNat < 128 := by
        intro c hc
        exact lt_of_isBlank (by simpa using hc)
      obtain ⟨htext, hrest⟩ := Utf8.WellFormed.stop [] hs hstop
      exact ⟨hnil, htext, hnil, hrest⟩

theorem Value.WellFormed.written {v : Value} (h : v.WellFormed) : Utf8.WellFormed v.written :=
  (h.lead.append h.text).append h.closing

theorem Attribute.WellFormed.written {a : Attribute} (h : a.WellFormed) :
    Utf8.WellFormed a.written := by
  cases hvalue : a.value with
  | none => simpa [Attribute.written, hvalue] using h.name
  | some v =>
    have hv := (h.value v hvalue).written
    simpa [Attribute.written, hvalue] using h.name.append hv

theorem Value.wellFormed_of_split? {s rest : Bytes} {v : Value} (hs : Utf8.WellFormed s)
    (h : Value.split? s = some (v, rest)) : v.WellFormed ∧ Utf8.WellFormed rest := by
  obtain ⟨hbefore, hs⟩ := hs.skip fun _ => lt_of_isBlank
  simp only [Value.split?] at h
  split at h
  · cases h
  next b t hdrop =>
    rw [hdrop] at hs
    split at h
    next hb =>
      subst hb
      obtain ⟨hafter, ht⟩ := (hs.tail (by decide)).skip fun _ => lt_of_isBlank
      obtain ⟨hopening, htext, hclosing, hrest⟩ := wellFormed_content ht
      cases h
      have hequals : Utf8.WellFormed [equals] := .singleton (by decide)
      exact ⟨⟨((hbefore.append (hequals.append hafter)).append hopening), htext, hclosing⟩, hrest⟩
    · cases h

theorem Attribute.wellFormed_of_split? {s rest : Bytes} {a : Attribute} (hs : Utf8.WellFormed s)
    (h : Attribute.split? s = some (a, rest)) : a.WellFormed ∧ Utf8.WellFormed rest := by
  obtain ⟨hgap, hs⟩ := hs.skip fun _ => lt_of_isGap
  simp only [Attribute.split?] at h
  split at h
  · cases h
  next first t hdrop =>
    rw [hdrop] at hs
    obtain ⟨hname, hrest⟩ := Utf8.WellFormed.stop [first] hs fun _ => lt_of_isNameTail
    split at h
    · cases h
      exact ⟨⟨hgap, hname, by simp⟩, hrest⟩
    next value after hvalue =>
      cases h
      obtain ⟨hvalue, hafter⟩ := Value.wellFormed_of_split? hrest hvalue
      exact ⟨⟨hgap, hname, fun v hv => Option.some.inj hv ▸ hvalue⟩, hafter⟩

theorem StartTag.wellFormed_readAttributes {s : Bytes} (hs : Utf8.WellFormed s) :
    ∀ a ∈ (readAttributes s).1, a.WellFormed := by
  fun_induction readAttributes s with
  | case1 =>
    intro a ha
    cases ha
  | case2 s a rest h attributes trail hrest ih =>
    obtain ⟨ha, hrest'⟩ := Attribute.wellFormed_of_split? hs h
    rw [hrest] at ih
    exact List.forall_mem_cons.2 ⟨ha, ih hrest'⟩

theorem StartTag.wellFormed_ofBody {body : Bytes} (h : Utf8.WellFormed body) :
    Utf8.WellFormed (ofBody body).name ∧ ∀ a ∈ (ofBody body).attributes, a.WellFormed := by
  have hstop : ∀ b, (!isGap b) = false → b.toNat < 128 := by
    intro b hb
    exact lt_of_isGap (by simpa using hb)
  obtain ⟨hname, hregion⟩ := Utf8.WellFormed.stop [] h hstop
  exact ⟨hname, wellFormed_readAttributes hregion⟩

/-! ### Layouts -/

structure AttributeLayout.Whole (text : Bytes) (l : AttributeLayout) : Prop where
  name : l.name.Whole text
  value : ∀ v ∈ l.value, v.Whole text
  whole : l.whole.Whole text

variable {text rest : Bytes} {start : Nat}

private theorem whole_attribute {a : Attribute} (ha : a.WellFormed)
    (hstart : Utf8.Between text start) (h : text.drop start = a.written ++ rest) :
    (a.layout start).Whole text := by
  have hname : text.drop start = a.name ++ ((a.value.map Value.written).getD [] ++ rest) := by
    rw [h, Attribute.written, List.append_assoc]
  refine ⟨Span.whole_covering hstart hname ha.name, ?_, Span.whole_covering hstart h ha.written⟩
  intro span hspan
  obtain ⟨v, hv, rfl⟩ := Option.map_eq_some_iff.1 hspan
  have hvalue := Span.drop_of_drop hname
  simp only [hv, Option.map_some, Option.getD_some, Value.written, List.append_assoc] at hvalue
  have hlead := (hstart.forward hname ha.name).forward hvalue (ha.value v hv).lead
  exact Span.whole_covering hlead (Span.drop_of_drop hvalue) (ha.value v hv).text

private theorem whole_layouts {attributes : List Attribute}
    (hattributes : ∀ a ∈ attributes, a.WellFormed) (hstart : Utf8.Between text start)
    (h : text.drop start = attributes.flatMap (fun a => a.gap ++ a.written) ++ rest) :
    ∀ l ∈ StartTag.layouts start attributes, l.Whole text := by
  induction attributes generalizing start with
  | nil =>
    intro l hl
    cases hl
  | cons a attributes ih =>
    obtain ⟨ha, hattributes⟩ := List.forall_mem_cons.1 hattributes
    simp only [List.flatMap_cons, List.append_assoc] at h
    have hgap := hstart.forward h ha.gap
    have hwritten := Span.drop_of_drop h
    have hnext := hgap.forward hwritten ha.written
    exact List.forall_mem_cons.2 ⟨whole_attribute ha hgap hwritten,
      ih hattributes hnext (Span.drop_of_drop hwritten)⟩

structure TagLayout.Whole (text : Bytes) (layout : TagLayout) : Prop where
  name : layout.name.Whole text
  attributes : ∀ l ∈ layout.attributes, l.Whole text
  between_contentStop : Utf8.Between text layout.contentStop

/-- The ranges that are read off a start tag in a well-formed text are made of whole characters. -/
theorem whole_layout {t : StartTag} (htext : Utf8.WellFormed text)
    (ht : StartTag.ofBody t.body = t) (h : text.drop start = t.written ++ rest) :
    (t.layout (start + 1)).Whole text := by
  have hstart : Utf8.Between text (start + 1) :=
    (Utf8.between_of_drop htext h (by decide)).forward (s := [lessThan]) h (.singleton (by decide))
  have hbody := drop_body h
  have hparts := hstart.behind
  rw [hbody] at hparts
  obtain ⟨hname, hattributes⟩ := StartTag.wellFormed_ofBody (hparts.split (by decide)).1
  rw [ht] at hname hattributes
  have hregion : text.drop (start + 1) =
      t.name ++ (t.content ++ (t.closing ++ greaterThan :: rest)) := by
    rw [← List.append_assoc t.content, t.content_append_closing, ← List.append_assoc]
    exact hbody
  have hcontent := Span.drop_of_drop (Span.drop_of_drop hregion)
  obtain ⟨b, s, hcons, hb⟩ := t.exists_closing_cons rest
  rw [hcons] at hcontent
  have hascii : b.toNat < 128 := by
    rcases hb with hgap | rfl
    · exact lt_of_isGap hgap
    · decide
  have hnameStop := hstart.forward hregion hname
  -- the attributes stand in the region, whose end is told by the closing part
  have hlist : text.drop (start + 1 + t.name.length) =
      t.attributes.flatMap (fun a => a.gap ++ a.written) ++ (t.trail ++ greaterThan :: rest) := by
    rw [Span.drop_of_drop hregion, ← List.append_assoc t.content, t.content_append_closing,
      StartTag.region, List.append_assoc]
  exact ⟨Span.whole_covering hstart hregion hname, whole_layouts hattributes hnameStop hlist,
    Utf8.between_of_drop htext hcontent (Utf8.isContinuation_of_lt hascii)⟩

end StyleHoist
