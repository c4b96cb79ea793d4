import Mathlib.Data.List.TakeWhile
import StyleHoist.Markup.StartTag

/-!
Reading a start tag back.  An attribute stands in front of a text when nothing of that text would
be read as a part of it.  Main statements: the attributes that are read off a text are those that
stand in it (`readAttributes_eq_iff`), so that a tag is read back from its body exactly when it
stands (`ofBody_eq_iff`).
-/

set_option autoImplicit false
set_option relaxedAutoImplicit false

namespace StyleHoist

open Ascii

namespace Bytes

variable {p : UInt8 → Bool} {s t : Bytes}

theorem takeWhile_append_stop (hs : ∀ b ∈ s, p b = true) (ht : ∀ b ∈ t.head?, p b = false) :
    (s ++ t).takeWhile p = s := by
  rw [List.takeWhile_append_of_pos hs]
  cases t with
  | nil => simp
  | cons b t => simp [ht b rfl]

theorem dropWhile_append_stop (hs : ∀ b ∈ s, p b = true) (ht : ∀ b ∈ t.head?, p b = false) :
    (s ++ t).dropWhile p = t := by
  rw [List.dropWhile_append_of_pos hs]
  cases t with
  | nil => rfl
  | cons b t => simp [ht b rfl]

theorem stop_of_dropWhile (p : UInt8 → Bool) (s : Bytes) :
    ∀ b ∈ (s.dropWhile p).head?, p b = false := by
  intro b hb
  have hstop := List.head?_dropWhile_not p s
  rw [Option.mem_def.1 hb] at hstop
  simpa using hstop

end Bytes

/-! ### Values -/

/-- The texts of values, by their delimiters and by what follows.  Only at the end of a tag can
a value be empty without quotes, or its quote be unclosed. -/
inductive Delimited (rest : Bytes) : Quoting → Bytes → Prop where
  | empty : rest = [] → Delimited rest .unquoted []
  | unquoted {first : UInt8} {text : Bytes} :
      isQuote first = false → (∀ b ∈ first :: text, isBlank b = false) →
      (∀ b ∈ rest.head?, isBlank b = true) → Delimited rest .unquoted (first :: text)
  | closed {quote : UInt8} {text : Bytes} :
      isQuote quote = true → quote ∉ text → Delimited rest (.closed quote) text
  | unclosed {quote : UInt8} {text : Bytes} :
      isQuote quote = true → quote ∉ text → rest = [] → Delimited rest (.unclosed quote) text

structure Value.Stands (rest : Bytes) (v : Value) : Prop where
  before : ∀ b ∈ v.before, isBlank b = true
  after : ∀ b ∈ v.after, isBlank b = true
  text : Delimited rest v.quoting v.text

structure Attribute.Stands (rest : Bytes) (a : Attribute) : Prop where
  gap : ∀ b ∈ a.gap, isGap b = true
  name : ∃ first tail, a.name = first :: tail ∧ isGap first = false ∧
    ∀ b ∈ tail, isNameTail b = true
  bare : a.value = none →
    (∀ b ∈ rest.head?, isNameTail b = false) ∧ (rest.dropWhile isBlank).head? ≠ some equals
  value : ∀ v ∈ a.value, v.Stands rest

private theorem ne_of_not_mem {quote : UInt8} {text : Bytes} (h : quote ∉ text) :
    ∀ b ∈ text, (b != quote) = true := by
  intro b hb
  rw [bne_iff_ne]
  rintro rfl
  exact h hb

theorem content_of_delimited {rest text : Bytes} {quoting : Quoting}
    (h : Delimited rest quoting text) :
    Value.content (quoting.opening ++ text ++ quoting.closing ++ rest) = (quoting, text, rest) := by
  cases h with
  | empty hrest =>
    subst hrest
    rfl
  | @unquoted first text hquote hblank hrest =>
    have hstop : ∀ b ∈ rest.head?, (!isBlank b) = false := fun b hb => by simp [hrest b hb]
    have htext : ∀ b ∈ first :: text, (!isBlank b) = true := fun b hb => by simp [hblank b hb]
    simp only [Quoting.opening, Quoting.closing, List.nil_append, List.append_nil,
      List.cons_append, Value.content, hquote, Bool.false_eq_true, if_false]
    rw [← List.cons_append, Bytes.takeWhile_append_stop htext hstop,
      Bytes.dropWhile_append_stop htext hstop]
  | @closed quote text hquote htext =>
    have hstop : ∀ b ∈ (quote :: rest).head?, (b != quote) = false := by simp
    simp only [Quoting.opening, Quoting.closing, List.cons_append, List.nil_append,
      List.append_assoc, Value.content, hquote, if_true]
    rw [Bytes.dropWhile_append_stop (ne_of_not_mem htext) hstop,
      Bytes.takeWhile_append_stop (ne_of_not_mem htext) hstop]
  | @unclosed quote text hquote htext hrest =>
    subst hrest
    simp only [Quoting.opening, Quoting.closing, List.cons_append, List.nil_append,
      List.append_nil, Value.content, hquote, if_true]
    rw [List.dropWhile_eq_nil_iff.2 (ne_of_not_mem htext)]

theorem delimited_content {s : Bytes} (h : ∀ b ∈ s.head?, isBlank b = false) :
    Delimited (Value.content s).2.2 (Value.content s).1 (Value.content s).2.1 := by
  cases s with
  | nil => exact .empty rfl
  | cons b s =>
    simp only [Value.content]
    split
    next hquote =>
      split
      next hnone =>
        refine .unclosed hquote (fun hmem => ?_) rfl
        simpa using List.dropWhile_eq_nil_iff.1 hnone b hmem
      next rest hrest =>
        apply Delimited.closed hquote
        intro hmem
        simpa using List.mem_takeWhile_imp hmem
    next hquote =>
      have hb : isBlank b = false := h b rfl
      have htext (c : UInt8) (hc : c ∈ b :: s.takeWhile (!isBlank ·)) : isBlank c = false := by
        rcases List.mem_cons.1 hc with rfl | hc
        · exact hb
        · simpa using List.mem_takeWhile_imp hc
      simp only [List.takeWhile_cons, List.dropWhile_cons, hb, Bool.not_false, if_true]
      apply Delimited.unquoted (by simpa using hquote) htext
      intro c hc
      simpa using Bytes.stop_of_dropWhile (!isBlank ·) s c hc

private theorem Delimited.head_not_blank {rest text : Bytes} {quoting : Quoting}
    (h : Delimited rest quoting text) :
    ∀ b ∈ (quoting.opening ++ text ++ quoting.closing ++ rest).head?, isBlank b = false := by
  have hquoted {quote : UInt8} (hquote : isQuote quote = true) : isBlank quote = false := by
    rw [isQuote, Bool.or_eq_true, beq_iff_eq, beq_iff_eq] at hquote
    rcases hquote with rfl | rfl <;> rfl
  cases h with
  | empty hrest =>
    subst hrest
    intro b hb
    exact absurd hb (by simp [Quoting.opening, Quoting.closing])
  | unquoted hquote hblank hrest =>
    rintro b ⟨⟩
    exact hblank _ List.mem_cons_self
  | closed hquote htext =>
    rintro b ⟨⟩
    exact hquoted hquote
  | unclosed hquote htext hrest =>
    rintro b ⟨⟩
    exact hquoted hquote

theorem Value.split?_eq_some_iff {s rest : Bytes} {v : Value} :
    Value.split? s = some (v, rest) ↔ s = v.written ++ rest ∧ v.Stands rest := by
  constructor
  · intro h
    refine ⟨(Value.written_of_split? h).symm, ?_⟩
    simp only [Value.split?] at h
    split at h
    · cases h
    next b t hb =>
      split at h
      · cases h
        exact ⟨fun _ => List.mem_takeWhile_imp, fun _ => List.mem_takeWhile_imp,
          delimited_content (Bytes.stop_of_dropWhile isBlank t)⟩
      · cases h
  · rintro ⟨rfl, hbefore, hafter, htext⟩
    have hwritten : v.written ++ rest = v.before ++ equals ::
        (v.after ++ (v.quoting.opening ++ v.text ++ v.quoting.closing ++ rest)) := by
      simp [Value.written, Value.lead]
    have hequals : ∀ b ∈ (equals :: (v.after ++
        (v.quoting.opening ++ v.text ++ v.quoting.closing ++ rest))).head?, isBlank b = false := by
      rintro b ⟨⟩
      rfl
    have hstop := htext.head_not_blank
    rw [hwritten, Value.split?, Bytes.dropWhile_append_stop hbefore hequals]
    simp only [if_true, Bytes.takeWhile_append_stop hbefore hequals,
      Bytes.dropWhile_append_stop hafter hstop, Bytes.takeWhile_append_stop hafter hstop,
      content_of_delimited htext]

theorem Value.split?_eq_none_iff {s : Bytes} :
    Value.split? s = none ↔ (s.dropWhile isBlank).head? ≠ some equals := by
  simp only [Value.split?]
  split
  next h => simp [h]
  next b t h =>
    split
    next hb => simp [h, hb]
    next hb => simp [h, hb]

/-! ### Attributes -/

private theorem stop_of_value {rest : Bytes} {v : Value} (h : v.Stands rest) :
    ∀ b ∈ (v.written ++ rest).head?, isNameTail b = false := by
  intro b hb
  have hequals : isNameTail equals = false := by decide
  rw [Value.written, Value.lead] at hb
  cases hbefore : v.before with
  | nil =>
    rw [hbefore] at hb
    cases hb
    exact hequals
  | cons c before =>
    rw [hbefore] at hb
    cases hb
    have hblank : isBlank b = true := h.before b (by rw [hbefore]; exact List.mem_cons_self)
    simp [isNameTail, isGap, hblank]

theorem Attribute.split?_eq_some_iff {s rest : Bytes} {a : Attribute} :
    Attribute.split? s = some (a, rest) ↔ s = a.gap ++ a.written ++ rest ∧ a.Stands rest := by
  constructor
  · intro h
    refine ⟨(Attribute.written_of_split? h).symm, ?_⟩
    simp only [Attribute.split?] at h
    split at h
    · cases h
    next first t hfirst =>
      have hgap : isGap first = false :=
        Bytes.stop_of_dropWhile isGap s first (by rw [hfirst]; rfl)
      split at h
      next hnone =>
        cases h
        refine ⟨fun _ => List.mem_takeWhile_imp, ?_, fun _ => ⟨?_, ?_⟩, ?_⟩
        · exact ⟨first, _, rfl, hgap, fun _ => List.mem_takeWhile_imp⟩
        · exact Bytes.stop_of_dropWhile isNameTail t
        · exact Value.split?_eq_none_iff.1 hnone
        · intro v hv
          exact absurd hv (by simp)
      next value after hvalue =>
        cases h
        refine ⟨fun _ => List.mem_takeWhile_imp, ?_, fun hnone => ?_, ?_⟩
        · exact ⟨first, _, rfl, hgap, fun _ => List.mem_takeWhile_imp⟩
        · cases hnone
        · rintro v ⟨⟩
          exact (Value.split?_eq_some_iff.1 hvalue).2
  · rintro ⟨rfl, hgap, ⟨first, tail, hname, hfirst, htail⟩, hbare, hvalue⟩
    obtain ⟨gap, name, value⟩ := a
    subst hname
    have hstart : ∀ b ∈ (first :: (tail ++ ((value.map Value.written).getD [] ++ rest))).head?,
        isGap b = false := by
      rintro b ⟨⟩
      exact hfirst
    have hwhole : gap ++ (Attribute.mk gap (first :: tail) value).written ++ rest =
        gap ++ first :: (tail ++ ((value.map Value.written).getD [] ++ rest)) := by
      simp [Attribute.written]
    simp only [hwhole, Attribute.split?, Bytes.dropWhile_append_stop hgap hstart,
      Bytes.takeWhile_append_stop hgap hstart]
    cases value with
    | none =>
      obtain ⟨hstop, hequals⟩ := hbare rfl
      simp only [Option.map_none, Option.getD_none, List.nil_append,
        Bytes.takeWhile_append_stop htail hstop, Bytes.dropWhile_append_stop htail hstop,
        Value.split?_eq_none_iff.2 hequals]
    | some v =>
      have hv := hvalue v rfl
      have hstop := stop_of_value hv
      simp only [Option.map_some, Option.getD_some, Bytes.takeWhile_append_stop htail hstop,
        Bytes.dropWhile_append_stop htail hstop, Value.split?_eq_some_iff.2 ⟨rfl, hv⟩]

theorem Attribute.Stands.written_ne_nil {a : Attribute} {rest : Bytes} (h : a.Stands rest) :
    a.written ≠ [] := by
  obtain ⟨first, tail, hname, -⟩ := h.name
  rw [Attribute.written, hname]
  exact List.cons_ne_nil _ _

theorem Attribute.split?_eq_none_iff {s : Bytes} :
    Attribute.split? s = none ↔ ∀ b ∈ s, isGap b = true := by
  rw [← List.dropWhile_eq_nil_iff]
  simp only [Attribute.split?]
  split
  next h => simp [h]
  next first t h =>
    simp only [h, reduceCtorEq, iff_false]
    split <;> exact Option.some_ne_none _

/-! ### Tags -/

namespace StartTag

/-- The bytes of attributes with the bytes that separate them. -/
def spell (attributes : List Attribute) : Bytes :=
  attributes.flatMap fun a => a.gap ++ a.written

theorem spell_cons (a : Attribute) (attributes : List Attribute) :
    spell (a :: attributes) = a.gap ++ (a.written ++ spell attributes) := by
  rw [spell, List.flatMap_cons, List.append_assoc]
  rfl

/-- Attributes that stand one behind the other in front of a trail of blanks and slashes. -/
def Standing (trail : Bytes) : List Attribute → Prop
  | [] => ∀ b ∈ trail, isGap b = true
  | a :: attributes => a.Stands (spell attributes ++ trail) ∧ Standing trail attributes

theorem readAttributes_of_none {s : Bytes} (h : Attribute.split? s = none) :
    readAttributes s = ([], s) := by
  rw [readAttributes]
  split
  · rfl
  next a rest hsome =>
    rw [h] at hsome
    cases hsome

theorem readAttributes_of_some {s rest : Bytes} {a : Attribute}
    (h : Attribute.split? s = some (a, rest)) :
    readAttributes s = (a :: (readAttributes rest).1, (readAttributes rest).2) := by
  rw [readAttributes]
  split
  next hnone =>
    rw [h] at hnone
    cases hnone
  next a' rest' hsome =>
    rw [h] at hsome
    cases hsome
    rfl

private theorem standing_readAttributes (s : Bytes) :
    s = spell (readAttributes s).1 ++ (readAttributes s).2 ∧
      Standing (readAttributes s).2 (readAttributes s).1 := by
  fun_induction readAttributes s with
  | case1 s hnone => exact ⟨rfl, Attribute.split?_eq_none_iff.1 hnone⟩
  | case2 s a rest hsome attributes trail hrest ih =>
    rw [hrest] at ih
    obtain ⟨hwritten, hstands⟩ := Attribute.split?_eq_some_iff.1 hsome
    obtain ⟨hrest, hstanding⟩ := ih
    refine ⟨?_, ?_, hstanding⟩
    · rw [hwritten, spell, List.flatMap_cons, List.append_assoc (a.gap ++ a.written), ← spell,
        ← hrest]
    · rwa [← hrest]

theorem readAttributes_eq_iff {s trail : Bytes} {attributes : List Attribute} :
    readAttributes s = (attributes, trail) ↔
      s = spell attributes ++ trail ∧ Standing trail attributes := by
  constructor
  · intro h
    have hread := standing_readAttributes s
    rwa [h] at hread
  · rintro ⟨rfl, h⟩
    induction attributes with
    | nil => exact readAttributes_of_none (Attribute.split?_eq_none_iff.2 h)
    | cons a attributes ih =>
      have hsplit : Attribute.split? (spell (a :: attributes) ++ trail) =
          some (a, spell attributes ++ trail) := by
        refine Attribute.split?_eq_some_iff.2 ⟨?_, h.1⟩
        rw [spell, List.flatMap_cons, List.append_assoc]
        rfl
      rw [readAttributes_of_some hsplit, ih h.2]

/-- A tag that is read back from its body. -/
structure Stands (t : StartTag) : Prop where
  name : ∀ b ∈ t.name, isGap b = false
  separated : ∀ b ∈ t.region.head?, isGap b = true
  attributes : Standing t.trail t.attributes

theorem ofBody_append {name region : Bytes} (hname : ∀ b ∈ name, isGap b = false)
    (hregion : ∀ b ∈ region.head?, isGap b = true) :
    ofBody (name ++ region) = ⟨name, (readAttributes region).1, (readAttributes region).2⟩ := by
  have hname' : ∀ b ∈ name, (!isGap b) = true := fun b hb => by simp [hname b hb]
  have hstop : ∀ b ∈ region.head?, (!isGap b) = false := fun b hb => by simp [hregion b hb]
  rw [ofBody, Bytes.takeWhile_append_stop hname' hstop, Bytes.dropWhile_append_stop hname' hstop]

theorem ofBody_eq_iff {body : Bytes} {t : StartTag} :
    ofBody body = t ↔ body = t.body ∧ t.Stands := by
  constructor
  · rintro rfl
    obtain ⟨hregion, hstanding⟩ := standing_readAttributes (body.dropWhile (!isGap ·))
    refine ⟨(body_ofBody body).symm, fun b hb => ?_, fun b hb => ?_, hstanding⟩
    · simpa using List.mem_takeWhile_imp hb
    · have hhead : b ∈ (body.dropWhile (!isGap ·)).head? := by
        rw [hregion]
        exact hb
      simpa using Bytes.stop_of_dropWhile _ _ b hhead
  · rintro ⟨rfl, hname, hseparated, hstanding⟩
    have hread : readAttributes t.region = (t.attributes, t.trail) :=
      readAttributes_eq_iff.2 ⟨rfl, hstanding⟩
    rw [body, ofBody_append hname hseparated, hread]

end StartTag

end StyleHoist
