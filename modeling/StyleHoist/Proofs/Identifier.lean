import StyleHoist.Proofs.Key
import StyleHoist.Proofs.Preservation

/-!
Keys as names.  A key is one word of the characters that keys keep, and the number at its end tells
it apart (`Record.key_distinct`).  But a key starts as its scope does, and behind the dot of a
selector a name must not start as a number.  Main statement: a key is an identifier just if its
scope does not start as a number (`Record.isIdentifier_key_iff`).
-/

set_option autoImplicit false
set_option relaxedAutoImplicit false

namespace StyleHoist

open Ascii

/-- Whether a text starts with a digit, or with a hyphen and a digit. -/
def startsAsNumber : Bytes → Bool
  | [] => false
  | b :: s => isDigit b || (b == hyphen && s.head?.any isDigit)

/-- A name that can stand behind the dot of a selector as it is. -/
structure IsIdentifier (s : Bytes) : Prop where
  ne_nil : s ≠ []
  characters : ∃ cs, Utf8.decode? s = some cs ∧
    ∀ c ∈ cs, c = '-' ∨ c = '_' ∨ isAlphanumeric c = true
  start : startsAsNumber s = false

def Record.NamedByLetter (r : Record) : Prop := ∃ b ∈ r.name.head?, isLetter b = true

/-! ### Where a key starts -/

/-- The bytes that a key starts with only if the text that it is made of does. -/
private def LeadsKey (b : UInt8) : Prop :=
  b.toNat < 128 ∧ isKeyCharacter (Char.ofNat b.toNat) = true ∧ b ≠ underscore

private instance (b : UInt8) : Decidable (LeadsKey b) :=
  inferInstanceAs (Decidable (b.toNat < 128 ∧ _ ∧ b ≠ underscore))

private theorem forall_byte {P : UInt8 → Prop} (h : ∀ n : Fin 256, P (UInt8.ofNat n)) (b : UInt8) :
    P b := by
  have hb := h ⟨b.toNat, b.toNat_lt⟩
  rwa [UInt8.ofNat_toNat] at hb

private theorem leadsKey_of_isDigit {b : UInt8} : isDigit b = true → LeadsKey b :=
  @forall_byte (fun b => isDigit b = true → LeadsKey b) (by decide +kernel) b

private theorem leadsKey_hyphen : LeadsKey hyphen := by decide

private theorem of_isLetter {b : UInt8} :
    isLetter b = true → isGap b = false ∧ isDigit b = false ∧ b ≠ hyphen :=
  @forall_byte (fun b => isLetter b = true → isGap b = false ∧ isDigit b = false ∧ b ≠ hyphen)
    (by decide +kernel) b

private theorem keyOf_eq_cons_iff {b : UInt8} {s t : Bytes} (hb : LeadsKey b) :
    keyOf s = b :: t ↔ ∃ rest, s = b :: rest ∧ keyOf rest = t := by
  obtain ⟨hascii, hkept, hne⟩ := hb
  have hnil : keyOf [] = [] := by simp [keyOf, Utf8.characters, Utf8.encode]
  have hcons (rest : Bytes) : keyOf (b :: rest) = b :: keyOf rest := by
    have h := keyOf_append_cons hascii hkept [] rest
    rwa [hnil] at h
  constructor
  · intro h
    cases hs : Utf8.characters s with
    | nil =>
      rw [keyOf, hs] at h
      cases h
    | cons c cs =>
      -- the first form of the key is that of an ASCII character other than an underscore
      obtain ⟨lead, tail, hform, -⟩ := Utf8.exists_form (if isKeyCharacter c then c else '_')
      have hlead : lead = b := by
        rw [keyOf, hs, List.map_cons, Utf8.encode_cons, hform] at h
        exact (List.cons.inj h).1
      have hmem : b ∈ String.utf8EncodeChar (if isKeyCharacter c then c else '_') := by
        rw [hform, hlead]
        exact List.mem_cons_self
      have hcode := Utf8.toNat_of_mem_utf8EncodeChar hascii hmem
      have hc : c.toNat = b.toNat := by
        split at hcode
        · exact hcode
        · exact absurd (UInt8.toNat_inj.1 hcode.symm) hne
      obtain ⟨rest, rfl, -⟩ := Utf8.exists_cons_of_characters hascii hc hs
      rw [hcons] at h
      exact ⟨rest, rfl, (List.cons.inj h).2⟩
  · rintro ⟨rest, rfl, rfl⟩
    exact hcons rest

private theorem startsAsNumber_iff {s : Bytes} :
    startsAsNumber s = true ↔
      ∃ b t, isDigit b = true ∧ (s = b :: t ∨ s = hyphen :: b :: t) := by
  constructor
  · intro h
    rcases s with _ | ⟨b, s⟩
    · cases h
    · simp only [startsAsNumber, Bool.or_eq_true, Bool.and_eq_true, beq_iff_eq,
        Option.any_eq_true] at h
      rcases h with hdigit | ⟨rfl, d, hd, hdigit⟩
      · exact ⟨b, s, hdigit, .inl rfl⟩
      · obtain ⟨t, rfl⟩ := List.head?_eq_some_iff.1 hd
        exact ⟨d, t, hdigit, .inr rfl⟩
  · rintro ⟨b, t, hdigit, rfl | rfl⟩ <;> simp [startsAsNumber, hdigit]

private theorem startsAsNumber_keyOf (s : Bytes) : startsAsNumber (keyOf s) = startsAsNumber s := by
  rw [Bool.eq_iff_iff, startsAsNumber_iff, startsAsNumber_iff]
  constructor
  · rintro ⟨b, t, hdigit, h | h⟩
    · obtain ⟨rest, rfl, -⟩ := (keyOf_eq_cons_iff (leadsKey_of_isDigit hdigit)).1 h
      exact ⟨b, rest, hdigit, .inl rfl⟩
    · obtain ⟨rest, rfl, hrest⟩ := (keyOf_eq_cons_iff leadsKey_hyphen).1 h
      obtain ⟨rest, rfl, -⟩ := (keyOf_eq_cons_iff (leadsKey_of_isDigit hdigit)).1 hrest
      exact ⟨b, rest, hdigit, .inr rfl⟩
  · rintro ⟨b, rest, hdigit, rfl | rfl⟩
    · have hkey := (keyOf_eq_cons_iff (leadsKey_of_isDigit hdigit)).2 ⟨rest, rfl, rfl⟩
      exact ⟨b, _, hdigit, .inl hkey⟩
    · have hkey := (keyOf_eq_cons_iff (leadsKey_of_isDigit hdigit)).2 ⟨rest, rfl, rfl⟩
      exact ⟨b, _, hdigit, .inr ((keyOf_eq_cons_iff leadsKey_hyphen).2 ⟨_, rfl, hkey⟩)⟩

private theorem startsAsNumber_append_underscore (s t : Bytes) :
    startsAsNumber (s ++ underscore :: t) = startsAsNumber s := by
  have hunderscore : isDigit underscore = false := by decide
  have hother : (underscore == hyphen) = false := by decide
  rcases s with _ | ⟨b, _ | ⟨c, s⟩⟩ <;> simp [startsAsNumber, hunderscore, hother]

namespace Record

variable {scope : Bytes} {number : Nat} {r : Record}

private theorem startsAsNumber_key :
    startsAsNumber (r.key scope number) =
      startsAsNumber (if scope = [] then r.name else scope) := by
  have hline : utf8 "_line_" = underscore :: utf8 "line_" := rfl
  have hseparator : utf8 "_" = [underscore] := rfl
  rw [key, startsAsNumber_keyOf]
  by_cases hscope : scope = []
  · simp only [hscope, if_true, List.nil_append, List.append_assoc, hline, List.cons_append,
      startsAsNumber_append_underscore]
  · simp only [hscope, if_false, hseparator, List.append_assoc, List.cons_append,
      startsAsNumber_append_underscore]

private theorem NamedByLetter.startsAsNumber_name (h : r.NamedByLetter) :
    startsAsNumber r.name = false := by
  obtain ⟨b, hb, hletter⟩ := h
  obtain ⟨s, hname⟩ := List.head?_eq_some_iff.1 hb
  obtain ⟨-, hdigit, hhyphen⟩ := of_isLetter hletter
  simp [hname, startsAsNumber, hdigit, hhyphen]

private theorem exists_characters_key (scope : Bytes) (number : Nat) (r : Record) :
    ∃ cs, Utf8.decode? (r.key scope number) = some cs ∧
      ∀ c ∈ cs, c = '-' ∨ c = '_' ∨ isAlphanumeric c = true := by
  refine ⟨_, Utf8.decode?_eq_some_iff.2 rfl, ?_⟩
  rw [List.forall_mem_map]
  intro c _
  split
  next hc => simpa only [isKeyCharacter, Bool.or_eq_true, beq_iff_eq, or_assoc] using hc
  next => exact .inr (.inl rfl)

theorem namedByLetter_of_mem_scan {mode : Mode} {stamp : Stamp} {text : Bytes}
    (h : r ∈ (scan mode stamp text).records) : r.NamedByLetter := by
  rw [records_scan, List.mem_map] at h
  obtain ⟨t, ht, rfl⟩ := h
  obtain ⟨hmem, -⟩ := tag_of_mem_styledTags ht
  obtain ⟨rest, hleads⟩ := leads_of_mem (segmentation_iff.2 rfl) hmem
  obtain ⟨first, body, hletter, -, htag⟩ := hleads.exists_body
  refine ⟨first, ?_, hletter⟩
  simp [StyledTag.record, StartTag.record, htag, StartTag.ofBody, (of_isLetter hletter).1]

/-- Keys of different numbers are different, whatever else goes into them, and a key is a single
word of letters and numbers of any script, hyphens and underscores. -/
theorem key_distinct (scope other : Bytes) (m n : Nat) (r r' : Record) :
    (m ≠ n → r.key scope m ≠ r'.key other n) ∧
      (∃ cs, Utf8.decode? (r.key scope m) = some cs ∧
        ∀ c ∈ cs, c = '-' ∨ c = '_' ∨ isAlphanumeric c = true) ∧
      words (r.key scope m) = [r.key scope m] := by
  refine ⟨fun hne hsame => hne (key_injective hsame), exists_characters_key scope m r, ?_⟩
  exact words_eq_singleton (key_ne_nil scope m r) fun _ hb => isBlank_of_mem_key scope m r hb

/-- A scope that reads like the key of another tag. -/
theorem key_distinct_scope :
    let r : Record := ⟨utf8 "a.b", [], [], [], [], 3, []⟩
    let r' : Record := ⟨utf8 "a:b", [], [], [], [], 1, []⟩
    r.key [] 11 = utf8 "a_b_line_3_11" ∧
      r'.key (utf8 "a_b_line_3") 1 = utf8 "a_b_line_3_a_b_line_1_1" ∧ 11 ≠ 1 ∧
      r.key [] 11 ≠ r'.key (utf8 "a_b_line_3") 1 := by
  intro r r'
  exact ⟨by decide +kernel, by decide +kernel, by decide,
    (key_distinct [] (utf8 "a_b_line_3") 11 1 r r').1 (by decide)⟩

/-- A key of a tag whose name starts with a letter, as the names of all scanned tags do, is an
identifier just if its scope does not start as a number. -/
theorem isIdentifier_key_iff (mode : Mode) (stamp : Stamp) (text scope : Bytes) :
    (∀ r ∈ (scan mode stamp text).records, r.NamedByLetter) ∧
      ∀ (r : Record) (number : Nat), r.NamedByLetter →
        (IsIdentifier (r.key scope number) ↔ startsAsNumber scope = false) := by
  refine ⟨fun r hr => namedByLetter_of_mem_scan hr, fun r number hname => ?_⟩
  have hstart : startsAsNumber (r.key scope number) = startsAsNumber scope := by
    rw [startsAsNumber_key]
    split
    next hscope => rw [hscope, hname.startsAsNumber_name, startsAsNumber]
    next => rfl
  constructor
  · intro h
    rw [← hstart]
    exact h.start
  · intro hscope
    exact ⟨key_ne_nil scope number r, exists_characters_key scope number r,
      by rw [hstart, hscope]⟩

/-- A scope of a hyphen only. -/
theorem isIdentifier_key_hyphen :
    let r : Record := ⟨utf8 "svg:rect", [], [], [], [], 2, []⟩
    r.NamedByLetter ∧ r.key (utf8 "-") 1 = utf8 "-_svg_rect_line_2_1" ∧
      IsIdentifier (r.key (utf8 "-") 1) := by
  intro r
  have hname : r.NamedByLetter := ⟨0x73, rfl, by decide⟩
  obtain ⟨-, hkey⟩ := isIdentifier_key_iff .strict (Stamp.ofSeed 0) [] (utf8 "-")
  exact ⟨hname, by decide +kernel, (hkey r 1 hname).2 (by decide)⟩

/-- A scope of digits, as in the name of a document `404`. -/
theorem numbered_scope_no_identifier :
    let r : Record := ⟨utf8 "p", [], [], [], [], 1, []⟩
    r.NamedByLetter ∧ r.key (utf8 "404") 1 = utf8 "404_p_line_1_1" ∧
      ¬ IsIdentifier (r.key (utf8 "404") 1) := by
  intro r
  refine ⟨⟨0x70, rfl, by decide⟩, by decide +kernel, fun h => ?_⟩
  exact absurd h.start (by decide +kernel)

end Record

end StyleHoist
