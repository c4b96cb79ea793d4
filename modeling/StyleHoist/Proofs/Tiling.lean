import StyleHoist.Proofs.Boundary
import StyleHoist.Proofs.Layout
import StyleHoist.Proofs.Reading

/-!
Every byte of a tag has its place.  A tag ends at the one `>` in front of which all quotes are
closed, whatever stands around it (`tag_stop_grammar`).  The layout of a start tag divides the bytes
up to there among the name, the attributes and what separates them, and none of them is lost or
counted twice (`accounts_layout`).
-/

set_option autoImplicit false
set_option relaxedAutoImplicit false

namespace StyleHoist

open Ascii

/-! ### Ranges -/

namespace Span

def Covers (span : Span) (offset : Nat) : Prop := span.start ≤ offset ∧ offset < span.stop

/-- Ranges that are not empty and stand one behind the other from one offset up to another, with
only blanks and slashes in front of each. -/
def Tiles (text : Bytes) : Nat → List Span → Nat → Prop
  | start, [], stop => start = stop
  | start, span :: spans, stop =>
    start ≤ span.start ∧ (∀ b ∈ bytes text ⟨start, span.start⟩, isGap b = true) ∧
      span.start < span.stop ∧ Tiles text span.stop spans stop

namespace Tiles

variable {text : Bytes} {start stop : Nat} {spans : List Span}

theorem le (h : Tiles text start spans stop) : start ≤ stop := by
  induction spans generalizing start with
  | nil => exact Nat.le_of_eq h
  | cons span spans ih =>
    obtain ⟨hbefore, -, hsome, hrest⟩ := h
    have := ih hrest
    omega

theorem inside (h : Tiles text start spans stop) :
    ∀ span ∈ spans, start ≤ span.start ∧ span.start < span.stop ∧ span.stop ≤ stop := by
  induction spans generalizing start with
  | nil => exact fun span hspan => absurd hspan List.not_mem_nil
  | cons first spans ih =>
    obtain ⟨hbefore, -, hsome, hrest⟩ := h
    intro span hspan
    rcases List.mem_cons.1 hspan with rfl | hspan
    · exact ⟨hbefore, hsome, hrest.le⟩
    · obtain ⟨hstart, hlt, hstop⟩ := ih hrest span hspan
      exact ⟨by omega, hlt, hstop⟩

theorem pairwise (h : Tiles text start spans stop) :
    spans.Pairwise fun first second => first.stop ≤ second.start := by
  induction spans generalizing start with
  | nil => exact .nil
  | cons span spans ih =>
    obtain ⟨-, -, -, hrest⟩ := h
    exact .cons (fun second hsecond => (hrest.inside second hsecond).1) (ih hrest)

theorem isGap_of_not_covers (h : Tiles text start spans stop) {offset : Nat} {b : UInt8}
    (hstart : start ≤ offset) (hstop : offset < stop) (hb : text[offset]? = some b)
    (houtside : ∀ span ∈ spans, ¬ span.Covers offset) : isGap b = true := by
  induction spans generalizing start with
  | nil =>
    have : start = stop := h
    omega
  | cons span spans ih =>
    obtain ⟨-, hgap, -, hrest⟩ := h
    rw [List.forall_mem_cons] at houtside
    obtain ⟨hspan, hspans⟩ := houtside
    by_cases hbefore : offset < span.start
    · exact hgap b (mem_bytes_of_getElem? hstart hbefore hb)
    · have hbehind : span.stop ≤ offset := by
        unfold Covers at hspan
        omega
      exact ih hrest hbehind hspans

theorem exists_covers_last (h : Tiles text start spans stop) (hlt : start < stop) :
    ∃ span ∈ spans, span.Covers (stop - 1) := by
  induction spans generalizing start with
  | nil =>
    have : start = stop := h
    omega
  | cons span spans ih =>
    obtain ⟨-, -, hsome, hrest⟩ := h
    by_cases hlast : span.stop < stop
    · obtain ⟨other, hother, hcovers⟩ := ih hrest hlast
      exact ⟨other, List.mem_cons_of_mem span hother, hcovers⟩
    · have hstop := hrest.le
      refine ⟨span, List.mem_cons_self, ?_⟩
      unfold Covers
      omega

end Tiles

end Span

/-! ### The end of a tag -/

namespace Boundary

/-- Whether the tag that starts at an offset ends at another: with a `>` in front of which all
quotes are closed, and no `>` stands outside quotes. -/
structure EndsTag (text : Bytes) (start stop : Nat) : Prop where
  lt : start < stop
  bracket : text[stop]? = some greaterThan
  balanced : Balanced (Span.bytes text ⟨start + 1, stop⟩)

theorem tagStop?_eq_some_iff {text : Bytes} {start stop : Nat} :
    tagStop? text start = some stop ↔
      ∃ body rest, text.drop (start + 1) = body ++ greaterThan :: rest ∧ Balanced body ∧
        stop = start + 1 + body.length := by
  simp only [tagStop?, Option.map_eq_some_iff, Prod.exists, splitTag?_eq_some_iff, balanced_iff,
    and_assoc, @eq_comm _ stop]

private theorem endsTag_iff {text : Bytes} {start stop : Nat} :
    EndsTag text start stop ↔ tagStop? text start = some stop := by
  rw [tagStop?_eq_some_iff]
  constructor
  · rintro ⟨hlt, hbracket, hbalanced⟩
    obtain ⟨hinside, hbyte⟩ := List.getElem?_eq_some_iff.1 hbracket
    have hstop : text.drop stop = greaterThan :: text.drop (stop + 1) := by
      rw [List.drop_eq_getElem_cons hinside, hbyte]
    refine ⟨_, text.drop (stop + 1), ?_, hbalanced, ?_⟩
    · rw [← hstop, Span.bytes_append_drop text hlt]
    · rw [Span.length_bytes (Nat.le_of_lt hinside)]
      omega
  · rintro ⟨body, rest, hbody, hbalanced, rfl⟩
    refine ⟨by omega, Span.getElem?_of_drop (Span.drop_of_drop hbody), ?_⟩
    rwa [Span.bytes_of_drop hbody]

/-- A tag ends exactly where the grammar of its bytes says, so at most at one offset, and nowhere
just if no offset will do; the bytes from behind its opening through its end decide alone where
that is. -/
theorem tag_stop_grammar (text : Bytes) (start : Nat) :
    (∀ stop, tagStop? text start = some stop ↔ EndsTag text start stop) ∧
    (∀ stop stop', EndsTag text start stop ∧ EndsTag text start stop' → stop = stop') ∧
    (tagStop? text start = none ↔ ¬ ∃ stop, EndsTag text start stop) ∧
    (text.length ≤ start → tagStop? text start = none) ∧
    ∀ stop opening before after, tagStop? text start = some stop →
      tagStop? (before ++ opening :: (Span.bytes text ⟨start + 1, stop + 1⟩ ++ after))
        before.length = some (before.length + (stop - start)) := by
  refine ⟨fun stop => endsTag_iff.symm, ?_, ?_, ?_, ?_⟩
  · rintro stop stop' ⟨h, h'⟩
    rw [endsTag_iff] at h h'
    exact Option.some.inj (h.symm.trans h')
  · simp only [endsTag_iff, Option.eq_none_iff_forall_ne_some, not_exists, ne_eq]
  · intro hbeyond
    rw [tagStop?, List.drop_eq_nil_of_le (by omega)]
    rfl
  · intro stop opening before after h
    obtain ⟨body, rest, hbody, hbalanced, rfl⟩ := tagStop?_eq_some_iff.1 h
    have hsplit : text.drop (start + 1) = (body ++ [greaterThan]) ++ rest := by
      rw [hbody, List.append_assoc, List.singleton_append]
    have hwhole := Span.bytes_of_drop hsplit
    rw [List.length_append, List.length_singleton, ← Nat.add_assoc] at hwhole
    refine tagStop?_eq_some_iff.2 ⟨body, after, ?_, hbalanced, by omega⟩
    rw [hwhole, ← List.drop_drop, List.drop_left]
    simp

example : tagStop? (utf8 "<a title=\"1 > 0\" href='x>y'>rest") 0 = some 27 := by decide +kernel

end Boundary

/-! ### The parts of a start tag -/

namespace AttributeLayout

/-- How a value is delimited, from the offset where its delimiter or else its first byte stands up
to the one where its attribute stops, in a tag that ends at an offset. -/
inductive Delimits (text : Bytes) (tagStop opening : Nat) (value : Span) (stop : Nat) : Prop where
  | quoted {quote : UInt8} :
      text[opening]? = some quote → isQuote quote = true → value.start = opening + 1 →
      quote ∉ value.bytes text → text[value.stop]? = some quote → stop = value.stop + 1 →
      Delimits text tagStop opening value stop
  | unclosed {quote : UInt8} :
      text[opening]? = some quote → isQuote quote = true → value.start = opening + 1 →
      quote ∉ value.bytes text → value.stop = tagStop → stop = tagStop →
      Delimits text tagStop opening value stop
  | unquoted :
      value.start = opening → (∀ b ∈ value.bytes text, isBlank b = false) →
      (∀ b ∈ (value.bytes text).head?, isQuote b = false) →
      (value.start = value.stop → value.stop = tagStop) → stop = value.stop →
      (∀ b ∈ (Span.bytes text ⟨stop, tagStop⟩).head?, isBlank b = true) →
      Delimits text tagStop opening value stop

/-- How the ranges of an attribute spell it in a tag that ends at an offset. -/
structure Spelled (text : Bytes) (tagStop : Nat) (l : AttributeLayout) : Prop where
  start_eq : l.name.start = l.whole.start
  name : ∃ first tail, l.name.bytes text = first :: tail ∧ isGap first = false ∧
    ∀ b ∈ tail, isGap b = false ∧ b ≠ equals
  bare : l.value = none → l.name.stop = l.whole.stop ∧
    (∀ b ∈ (Span.bytes text ⟨l.whole.stop, tagStop⟩).head?, isGap b = true) ∧
    ((Span.bytes text ⟨l.whole.stop, tagStop⟩).dropWhile isBlank).head? ≠ some equals
  valued : ∀ value ∈ l.value, ∃ sign opening,
    l.name.stop ≤ sign ∧ (∀ b ∈ Span.bytes text ⟨l.name.stop, sign⟩, isBlank b = true) ∧
    text[sign]? = some equals ∧
    sign < opening ∧ (∀ b ∈ Span.bytes text ⟨sign + 1, opening⟩, isBlank b = true) ∧
    value.start ≤ value.stop ∧ Delimits text tagStop opening value l.whole.stop

end AttributeLayout

/-- How a layout accounts for the bytes of a tag between the brackets at two offsets. -/
structure TagLayout.Accounts (text : Bytes) (start stop : Nat) (selfClosing : Bool)
    (layout : TagLayout) : Prop where
  name_start : layout.name.start = start + 1
  name_stop : layout.name.start ≤ layout.name.stop ∧ layout.name.stop ≤ stop
  name : ∀ b ∈ layout.name.bytes text, isGap b = false
  separated : ∀ b ∈ (Span.bytes text ⟨layout.name.stop, stop⟩).head?, isGap b = true
  inside : ∀ l ∈ layout.attributes, layout.name.stop ≤ l.whole.start ∧
    l.whole.start < l.whole.stop ∧ l.whole.stop ≤ stop
  ordered : layout.attributes.Pairwise fun l l' => l.whole.stop ≤ l'.whole.start
  between : ∀ offset, layout.name.stop ≤ offset → offset < stop →
    (∀ l ∈ layout.attributes, ¬ l.whole.Covers offset) →
    ∃ b, text[offset]? = some b ∧ isGap b = true
  spelled : ∀ l ∈ layout.attributes, l.Spelled text stop
  closes : selfClosing = true ↔ layout.name.stop < stop ∧ text[stop - 1]? = some slash ∧
    ∀ l ∈ layout.attributes, ¬ l.whole.Covers (stop - 1)
  content : layout.name.stop ≤ layout.contentStop ∧ layout.contentStop ≤ stop ∧
    ∃ blanks, (∀ b ∈ blanks, isBlank b = true) ∧
      Span.bytes text ⟨layout.contentStop, stop⟩ =
        blanks ++ if selfClosing then [slash] else []

section Attributes

variable {text tail : Bytes} {start : Nat}

private theorem add_length_spell_cons (start : Nat) (a : Attribute) (attributes : List Attribute) :
    start + (StartTag.spell (a :: attributes)).length =
      start + a.gap.length + a.written.length + (StartTag.spell attributes).length := by
  simp only [StartTag.spell_cons, List.length_append]
  omega

private theorem delimits_of_delimited {quoting : Quoting} {value rest : Bytes}
    (hdelimited : Delimited rest quoting value)
    (h : text.drop start = quoting.opening ++ (value ++ (quoting.closing ++ (rest ++ tail)))) :
    let stop := start + quoting.opening.length + value.length + quoting.closing.length
    AttributeLayout.Delimits text (stop + rest.length) start
      (.covering (start + quoting.opening.length) value) stop := by
  intro stop
  have hvalue := Span.drop_of_drop h
  have hclosing := Span.drop_of_drop hvalue
  have hrest := Span.bytes_of_drop (Span.drop_of_drop hclosing)
  have hbytes := Span.bytes_covering hvalue
  cases hdelimited with
  | empty hnil =>
    subst hnil
    refine .unquoted rfl ?_ ?_ (fun _ => rfl) rfl ?_
    · simp [hbytes]
    · simp [hbytes]
    · rw [hrest]
      simp
  | unquoted hquote hblank hnext =>
    refine .unquoted rfl ?_ ?_ ?_ rfl ?_
    · rwa [hbytes]
    · rintro b hb
      rw [hbytes] at hb
      cases hb
      exact hquote
    · intro hempty
      simp [Span.covering] at hempty
    · rwa [hrest]
  | @closed quote value hquote htext =>
    exact .quoted (Span.getElem?_of_drop h) hquote rfl (by rwa [hbytes])
      (Span.getElem?_of_drop hclosing) rfl
  | @unclosed quote value hquote htext hnil =>
    subst hnil
    exact .unclosed (Span.getElem?_of_drop h) hquote rfl (by rwa [hbytes]) rfl rfl

private theorem spelled_layout {a : Attribute} {rest : Bytes} (hstands : a.Stands rest)
    (h : text.drop start = a.written ++ (rest ++ tail)) :
    (a.layout start).Spelled text (start + a.written.length + rest.length) := by
  have hrest : Span.bytes text ⟨(a.layout start).whole.stop,
      start + a.written.length + rest.length⟩ = rest :=
    Span.bytes_of_drop (Span.drop_of_drop h)
  have hname : text.drop start = a.name ++ ((a.value.map Value.written).getD [] ++
      (rest ++ tail)) := by
    rw [h, Attribute.written, List.append_assoc]
  refine ⟨rfl, ?name, ?bare, ?valued⟩
  case name =>
    obtain ⟨first, tail, hsplit, hfirst, htail⟩ := hstands.name
    refine ⟨first, tail, (Span.bytes_covering hname).trans hsplit, hfirst, fun b hb => ?_⟩
    simpa [isNameTail] using htail b hb
  case bare =>
    intro hbare
    have hnone : a.value = none := by simpa [Attribute.layout] using hbare
    obtain ⟨hnext, hequals⟩ := hstands.bare hnone
    rw [hrest]
    refine ⟨?_, fun b hb => ?_, hequals⟩
    · simp [Attribute.layout, Span.covering, Attribute.written, hnone]
    · by_contra hgap
      have heq : b = equals := by
        simpa [isNameTail, eq_false_of_ne_true hgap] using hnext b hb
      cases rest with
      | nil => cases hb
      | cons c rest =>
        cases hb
        subst heq
        exact hequals rfl
  case valued =>
    intro value hvalue
    obtain ⟨v, hv, rfl⟩ := Option.map_eq_some_iff.1 hvalue
    obtain ⟨hbefore, hafter, hdelimited⟩ := hstands.value v hv
    have hlead := Span.drop_of_drop hname
    simp only [hv, Option.map_some, Option.getD_some, Value.written, Value.lead,
      List.append_assoc, List.cons_append] at hlead
    have hsign := Span.drop_of_drop hlead
    have hbehind := Span.drop_succ_of_drop hsign
    have hopening := Span.drop_of_drop hbehind
    refine ⟨start + a.name.length + v.before.length,
      start + a.name.length + v.before.length + 1 + v.after.length, Nat.le_add_right _ _, ?_,
      Span.getElem?_of_drop hsign, by omega, ?_, Nat.le_add_right _ _, ?_⟩
    · exact (Span.bytes_of_drop hlead).symm ▸ hbefore
    · exact (Span.bytes_of_drop hbehind).symm ▸ hafter
    · have hstart : start + a.name.length + v.lead.length =
          start + a.name.length + v.before.length + 1 + v.after.length +
            v.quoting.opening.length := by
        simp only [Value.lead, List.length_append, List.length_cons]
        omega
      have hstop : start + a.written.length =
          start + a.name.length + v.before.length + 1 + v.after.length +
            v.quoting.opening.length + v.text.length + v.quoting.closing.length := by
        simp only [Attribute.written, hv, Option.map_some, Option.getD_some, Value.written,
          List.length_append]
        omega
      show AttributeLayout.Delimits text (start + a.written.length + rest.length) _
        (.covering (start + a.name.length + v.lead.length) v.text) (start + a.written.length)
      rw [hstart, hstop]
      exact delimits_of_delimited hdelimited hopening

private theorem tiles_layouts {attributes : List Attribute} {trail : Bytes}
    (hstanding : StartTag.Standing trail attributes)
    (h : text.drop start = StartTag.spell attributes ++ tail) :
    Span.Tiles text start ((StartTag.layouts start attributes).map AttributeLayout.whole)
      (start + (StartTag.spell attributes).length) := by
  induction attributes generalizing start with
  | nil => rfl
  | cons a attributes ih =>
    obtain ⟨hstands, hstanding⟩ := hstanding
    rw [StartTag.spell_cons, List.append_assoc, List.append_assoc] at h
    have hbehind := Span.drop_of_drop (Span.drop_of_drop h)
    have hsome := List.length_pos_iff.2 hstands.written_ne_nil
    rw [add_length_spell_cons]
    refine ⟨Nat.le_add_right _ _, ?_, ?_, ih hstanding hbehind⟩
    · exact (Span.bytes_of_drop h).symm ▸ hstands.gap
    · exact Nat.lt_add_of_pos_right hsome

private theorem spelled_of_mem_layouts {attributes : List Attribute} {trail : Bytes}
    (hstanding : StartTag.Standing trail attributes)
    (h : text.drop start = StartTag.spell attributes ++ (trail ++ tail)) :
    ∀ l ∈ StartTag.layouts start attributes,
      l.Spelled text (start + (StartTag.spell attributes).length + trail.length) := by
  induction attributes generalizing start with
  | nil => exact fun l hl => absurd hl List.not_mem_nil
  | cons a attributes ih =>
    obtain ⟨hstands, hstanding⟩ := hstanding
    rw [StartTag.spell_cons, List.append_assoc, List.append_assoc,
      ← List.append_assoc (StartTag.spell attributes)] at h
    have hwritten := Span.drop_of_drop h
    have hbehind := Span.drop_of_drop hwritten
    rw [List.append_assoc] at hbehind
    rw [add_length_spell_cons]
    intro l hl
    rcases List.mem_cons.1 hl with rfl | hl
    · have hspelled := spelled_layout hstands hwritten
      rwa [List.length_append, ← Nat.add_assoc] at hspelled
    · exact ih hstanding hbehind l hl

end Attributes

section Tag

variable {text rest : Bytes} {start : Nat} {t : StartTag}

private theorem drop_region (h : text.drop start = t.body ++ greaterThan :: rest) :
    text.drop (start + t.name.length) = t.region ++ greaterThan :: rest := by
  rw [StartTag.body, List.append_assoc] at h
  exact Span.drop_of_drop h

private theorem drop_attributes (h : text.drop start = t.body ++ greaterThan :: rest) :
    text.drop (start + t.name.length) =
      StartTag.spell t.attributes ++ (t.trail ++ greaterThan :: rest) := by
  rw [drop_region h, StartTag.region, List.append_assoc]
  rfl

private theorem length_body :
    t.body.length = t.name.length + (StartTag.spell t.attributes).length + t.trail.length := by
  simp only [StartTag.body, StartTag.region, StartTag.spell, List.length_append]
  omega

private theorem isGap_trail {trail : Bytes} {attributes : List Attribute}
    (h : StartTag.Standing trail attributes) : ∀ b ∈ trail, isGap b = true := by
  induction attributes with
  | nil => exact h
  | cons a attributes ih => exact ih h.2

private theorem isSelfClosing_iff (hstands : t.Stands)
    (h : text.drop start = t.body ++ greaterThan :: rest) :
    t.isSelfClosing = true ↔
      start + t.name.length < start + t.body.length ∧
        text[start + t.body.length - 1]? = some slash ∧
        ∀ l ∈ (t.layout start).attributes, ¬ l.whole.Covers (start + t.body.length - 1) := by
  have hattributes := drop_attributes h
  have htiles := tiles_layouts hstands.attributes hattributes
  have htrail := Span.drop_of_drop hattributes
  have hlength := @length_body t
  rw [StartTag.isSelfClosing, beq_iff_eq]
  rcases List.eq_nil_or_concat t.trail with hnil | ⟨before, last, hlast⟩
  · rw [hnil, List.length_nil] at hlength
    rw [hnil]
    refine iff_of_false (by simp) ?_
    rintro ⟨hlt, -, houtside⟩
    obtain ⟨span, hspan, hcovers⟩ := htiles.exists_covers_last (by omega)
    obtain ⟨l, hl, rfl⟩ := List.mem_map.1 hspan
    have hend : start + t.name.length + (StartTag.spell t.attributes).length =
        start + t.body.length := by omega
    rw [hend] at hcovers
    exact houtside l hl hcovers
  · rw [hlast, List.concat_eq_append, List.append_assoc] at htrail
    rw [hlast, List.concat_eq_append, List.length_append, List.length_singleton] at hlength
    have hend : start + t.body.length - 1 =
        start + t.name.length + (StartTag.spell t.attributes).length + before.length := by omega
    have hbyte := Span.getElem?_of_drop (Span.drop_of_drop htrail)
    have houtside : ∀ l ∈ (t.layout start).attributes,
        ¬ l.whole.Covers (start + t.body.length - 1) := by
      intro l hl hcovers
      obtain ⟨-, -, hstop⟩ := htiles.inside l.whole (List.mem_map_of_mem hl)
      unfold Span.Covers at hcovers
      omega
    rw [hlast, List.concat_eq_append, List.getLast?_append, hend, hbyte]
    simp only [List.getLast?_singleton, Option.some_or]
    refine ⟨fun hslash => ⟨by omega, hslash, ?_⟩, fun hslash => hslash.2.1⟩
    rwa [← hend]

private theorem add_length_body (start : Nat) :
    start + t.body.length =
      start + t.name.length + (StartTag.spell t.attributes).length + t.trail.length := by
  rw [length_body]
  omega

private theorem exists_isGap_of_outside (hstands : t.Stands)
    (h : text.drop start = t.body ++ greaterThan :: rest) {offset : Nat}
    (hstart : start + t.name.length ≤ offset) (hstop : offset < start + t.body.length)
    (houtside : ∀ l ∈ (t.layout start).attributes, ¬ l.whole.Covers offset) :
    ∃ b, text[offset]? = some b ∧ isGap b = true := by
  have hattributes := drop_attributes h
  have hinside : offset < text.length := by
    have := congrArg List.length h
    simp only [List.length_drop, List.length_append, List.length_cons] at this
    omega
  have hbyte := List.getElem?_eq_getElem hinside
  refine ⟨text[offset], hbyte, ?_⟩
  by_cases hattribute : offset < start + t.name.length + (StartTag.spell t.attributes).length
  · exact (tiles_layouts hstands.attributes hattributes).isGap_of_not_covers hstart hattribute hbyte
      (List.forall_mem_map.2 houtside)
  · have htrail := Span.bytes_of_drop (Span.drop_of_drop hattributes)
    rw [← add_length_body] at htrail
    have hmem := Span.mem_bytes_of_getElem? (Nat.le_of_not_lt hattribute) hstop hbyte
    rw [htrail] at hmem
    exact isGap_trail hstands.attributes _ hmem

private theorem bytes_closing (h : text.drop start = t.body ++ greaterThan :: rest) :
    Span.bytes text ⟨(t.layout start).contentStop, start + t.body.length⟩ = t.closing := by
  have hcontent : text.drop (start + t.name.length) =
      t.content ++ (t.closing ++ greaterThan :: rest) := by
    rw [drop_region h, ← t.content_append_closing, List.append_assoc]
  have hclosing := Span.bytes_of_drop (Span.drop_of_drop hcontent)
  have hend : start + t.name.length + t.content.length + t.closing.length =
      start + t.body.length := by
    rw [Nat.add_assoc _ t.content.length, ← List.length_append, t.content_append_closing,
      StartTag.body, List.length_append, Nat.add_assoc]
  rwa [hend] at hclosing

private theorem accounts_of_stands (hstands : t.Stands)
    (h : text.drop (start + 1) = t.body ++ greaterThan :: rest) :
    (t.layout (start + 1)).Accounts text start (start + 1 + t.body.length) t.isSelfClosing := by
  have hattributes := drop_attributes h
  have htiles := tiles_layouts hstands.attributes hattributes
  have hregion : t.name.length + t.region.length = t.body.length := List.length_append.symm
  have hcontent : t.content.length ≤ t.region.length := by
    rw [← t.content_append_closing, List.length_append]
    exact Nat.le_add_right _ _
  constructor
  · rfl
  · refine ⟨Nat.le_add_right _ _, ?_⟩
    show start + 1 + t.name.length ≤ start + 1 + t.body.length
    omega
  · rw [name_layout h]
    exact hstands.name
  · have hbytes := Span.bytes_of_drop (drop_region h)
    rw [Nat.add_assoc (start + 1), hregion] at hbytes
    exact hbytes.symm ▸ hstands.separated
  · intro l hl
    obtain ⟨hstart, hsome, hend⟩ := htiles.inside l.whole (List.mem_map_of_mem hl)
    refine ⟨hstart, hsome, Nat.le_trans hend ?_⟩
    rw [add_length_body]
    exact Nat.le_add_right _ _
  · exact List.pairwise_map.1 htiles.pairwise
  · intro offset hstart hlt houtside
    exact exists_isGap_of_outside hstands h hstart hlt houtside
  · rw [add_length_body]
    exact spelled_of_mem_layouts hstands.attributes hattributes
  · exact isSelfClosing_iff hstands h
  · refine ⟨Nat.le_add_right _ _, ?_, Bytes.trailing isBlank t.openRegion,
      Bytes.all_trailing isBlank t.openRegion, bytes_closing h⟩
    show start + 1 + t.name.length + t.content.length ≤ start + 1 + t.body.length
    omega

end Tag

/-- The layout of the start tag between two brackets accounts for each byte between them. -/
theorem accounts_layout {text : Bytes} {start stop : Nat}
    (h : Boundary.tagStop? text start = some stop) :
    let t := StartTag.ofBody (Span.bytes text ⟨start + 1, stop⟩)
    (t.layout (start + 1)).Accounts text start stop t.isSelfClosing := by
  intro t
  obtain ⟨body, rest, hbody, -, rfl⟩ := Boundary.tagStop?_eq_some_iff.1 h
  have ht : t = StartTag.ofBody body := congrArg StartTag.ofBody (Span.bytes_of_drop hbody)
  have haccounts := accounts_of_stands (StartTag.ofBody_eq_iff.1 rfl).2
    (hbody.trans (by rw [StartTag.body_ofBody]))
  rwa [StartTag.body_ofBody, ← ht] at haccounts

/-- Quotes inside names open nothing for the reader of attributes, and a value that is opened by the
last quote goes on through the slash and up to the `>`. -/
theorem accounts_layout_across_quotes :
    let text := utf8 "x<a\"b /=c = 'y>'d e=/f/ g=\" />z"
    let t := StartTag.ofBody (Span.bytes text ⟨2, 29⟩)
    Boundary.tagStop? text 1 = some 29 ∧
      (t.layout 2).attributes.map AttributeLayout.whole = [⟨7, 16⟩, ⟨16, 17⟩, ⟨18, 23⟩, ⟨24, 29⟩] ∧
      (t.layout 2).Accounts text 1 29 t.isSelfClosing ∧ t.isSelfClosing = false := by
  intro text t
  have hstop : Boundary.tagStop? text 1 = some 29 := by decide +kernel
  exact ⟨hstop, by decide +kernel, accounts_layout hstop, by decide +kernel⟩

end StyleHoist
