import StyleHoist.Extraction.Sweep

/-!
Ranges of a text and the bytes that stand in them.  Main statement: the record that is cut out of
a text by the layout of a tag is the record of that tag (`record_layout`).
-/

set_option autoImplicit false
set_option relaxedAutoImplicit false

namespace StyleHoist

open Ascii

namespace Span

theorem bytes_of_drop {text s rest : Bytes} {start : Nat} (h : text.drop start = s ++ rest) :
    Span.bytes text ⟨start, start + s.length⟩ = s := by
  simp [Span.bytes, h]

theorem bytes_covering {text s rest : Bytes} {start : Nat} (h : text.drop start = s ++ rest) :
    (Span.covering start s).bytes text = s :=
  bytes_of_drop h

theorem drop_of_drop {text s rest : Bytes} {start : Nat} (h : text.drop start = s ++ rest) :
    text.drop (start + s.length) = rest := by
  rw [← List.drop_drop, h, List.drop_left]

theorem le_length_of_drop {text s rest : Bytes} {start : Nat} (hstart : start ≤ text.length)
    (h : text.drop start = s ++ rest) : start + s.length ≤ text.length := by
  have := congrArg List.length h
  simp only [List.length_drop, List.length_append] at this
  omega

theorem bytes_append_bytes (text : Bytes) {a b c : Nat} (hab : a ≤ b) (hbc : b ≤ c) :
    Span.bytes text ⟨a, b⟩ ++ Span.bytes text ⟨b, c⟩ = Span.bytes text ⟨a, c⟩ := by
  simp only [Span.bytes]
  rw [show c - a = (b - a) + (c - b) by omega, List.take_add, List.drop_drop,
    show a + (b - a) = b by omega]

theorem bytes_append_drop (text : Bytes) {a b : Nat} (h : a ≤ b) :
    Span.bytes text ⟨a, b⟩ ++ text.drop b = text.drop a := by
  obtain ⟨n, rfl⟩ := Nat.exists_eq_add_of_le h
  rw [Span.bytes, Nat.add_sub_cancel_left, ← List.drop_drop, List.take_append_drop]

theorem take_append_bytes {text : Bytes} {a b : Nat} (hab : a ≤ b) :
    text.take a ++ Span.bytes text ⟨a, b⟩ = text.take b := by
  simpa [Span.bytes] using bytes_append_bytes text (Nat.zero_le a) hab

theorem length_bytes {text : Bytes} {start stop : Nat} (h : stop ≤ text.length) :
    (bytes text ⟨start, stop⟩).length = stop - start := by
  simp only [bytes, List.length_take, List.length_drop]
  omega

theorem mem_bytes_of_getElem? {text : Bytes} {start stop offset : Nat} {b : UInt8}
    (hstart : start ≤ offset) (hstop : offset < stop) (h : text[offset]? = some b) :
    b ∈ bytes text ⟨start, stop⟩ := by
  refine List.mem_iff_getElem?.2 ⟨offset - start, ?_⟩
  rw [bytes, List.getElem?_take_of_lt (Nat.sub_lt_sub_right hstart hstop), List.getElem?_drop,
    Nat.add_sub_of_le hstart, h]

theorem getElem?_of_drop {text rest : Bytes} {offset : Nat} {b : UInt8}
    (h : text.drop offset = b :: rest) : text[offset]? = some b := by
  rw [← List.head?_drop, h]
  rfl

theorem drop_succ_of_drop {text rest : Bytes} {offset : Nat} {b : UInt8}
    (h : text.drop offset = b :: rest) : text.drop (offset + 1) = rest := by
  rw [← List.drop_drop, h]
  rfl

end Span

private def Attribute.parts (a : Attribute) : Bytes × Option Bytes × Bytes :=
  (a.name, a.value.map Value.text, a.written)

private def AttributeLayout.parts (text : Bytes) (l : AttributeLayout) :
    Bytes × Option Bytes × Bytes :=
  (l.name.bytes text, l.value.map (Span.bytes text), l.whole.bytes text)

private theorem parts_layout {text rest : Bytes} {start : Nat} {a : Attribute}
    (h : text.drop start = a.written ++ rest) : (a.layout start).parts text = a.parts := by
  obtain ⟨gap, name, value⟩ := a
  have hwhole := Span.bytes_covering h
  cases value with
  | none =>
    simp only [Attribute.written, Option.map_none, Option.getD_none, List.append_nil] at h hwhole
    simp [AttributeLayout.parts, Attribute.parts, Attribute.layout, Attribute.written,
      Span.bytes_covering h]
  | some v =>
    simp only [Attribute.written, Option.map_some, Option.getD_some, Value.written,
      List.append_assoc] at h
    have hvalue := Span.drop_of_drop (Span.drop_of_drop h)
    simp only [AttributeLayout.parts, Attribute.parts, Attribute.layout, Option.map_some,
      Span.bytes_covering h, Span.bytes_covering hvalue]
    exact congrArg (fun w => (name, some v.text, w)) hwhole

private theorem parts_layouts {text rest : Bytes} {start : Nat} {attributes : List Attribute}
    (h : text.drop start = attributes.flatMap (fun a => a.gap ++ a.written) ++ rest) :
    (StartTag.layouts start attributes).map (AttributeLayout.parts text) =
      attributes.map Attribute.parts := by
  induction attributes generalizing start with
  | nil => rfl
  | cons a attributes ih =>
    simp only [List.flatMap_cons, List.append_assoc] at h
    have hwritten := Span.drop_of_drop h
    have hrest := Span.drop_of_drop hwritten
    simp only [StartTag.layouts, List.map_cons, parts_layout hwritten, ih hrest]

section Layout

variable {text rest : Bytes} {start : Nat} {t : StartTag}

theorem drop_body (h : text.drop start = t.written ++ rest) :
    text.drop (start + 1) = t.body ++ greaterThan :: rest := by
  rw [← List.drop_drop, h]
  simp [StartTag.written]

private theorem parts_attributes (h : text.drop start = t.body ++ rest) :
    (t.layout start).attributes.map (AttributeLayout.parts text) =
      t.attributes.map Attribute.parts := by
  simp only [StartTag.body, StartTag.region, List.append_assoc] at h
  exact parts_layouts (Span.drop_of_drop h)

theorem name_layout (h : text.drop start = t.body ++ rest) :
    (t.layout start).name.bytes text = t.name := by
  rw [StartTag.body, List.append_assoc] at h
  exact Span.bytes_covering h

theorem valueOf?_layout (h : text.drop start = t.body ++ rest) (name : Bytes) :
    (t.layout start).valueOf? text name = t.valueOf? name := by
  have hfind := congrArg (List.find? fun p => sameIgnoringCase p.1 name) (parts_attributes h)
  have hvalue := congrArg (fun p => p.bind fun q => q.2.1) hfind
  simpa only [List.find?_map, Option.bind_map, TagLayout.valueOf?, TagLayout.find?,
    StartTag.valueOf?, StartTag.find?, Attribute.parts, AttributeLayout.parts,
    Function.comp_def] using hvalue

private theorem kept_layout (h : text.drop start = t.body ++ rest) :
    ((t.layout start).attributes.filter fun a => !isReplacedName (a.name.bytes text)).map
        (fun a => a.whole.bytes text) = t.kept.map Attribute.written := by
  have hfilter := congrArg (List.filter fun p => !isReplacedName p.1) (parts_attributes h)
  have hwritten := congrArg (List.map fun p => p.2.2) hfilter
  simpa only [List.filter_map, List.map_map, StartTag.kept, Attribute.parts,
    AttributeLayout.parts, Function.comp_def] using hwritten

/-- What is cut out of the text is the record of the tag that stands there. -/
theorem record_layout (h : text.drop start = t.body ++ rest) (style : Bytes) (line : Nat)
    (token : Bytes) :
    (t.layout start).record text style line token = t.record style line token := by
  simp only [TagLayout.record, StartTag.record, name_layout h, valueOf?_layout h, kept_layout h]

end Layout

end StyleHoist
