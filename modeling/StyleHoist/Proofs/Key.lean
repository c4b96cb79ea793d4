import StyleHoist.Proofs.Characters
import StyleHoist.Proofs.Words
import StyleHoist.Stylesheet.Rule

/-!
What the class names of rewritten tags are made of.  Main statements: an ASCII byte of a key is one
that keys keep (`isKeyCharacter_of_mem_keyOf`), so that the classes of a rewritten tag hold a double
quote only if those of the tag did or its id does (`doubleQuote_not_mem_classAttribute`); and a key
ends with the number of its record, so that no two records of a document share one
(`Record.key_injective`).
-/

set_option autoImplicit false
set_option relaxedAutoImplicit false

namespace StyleHoist

open Ascii

theorem isKeyCharacter_of_mem_keyOf {b : UInt8} {s : Bytes} (hb : b.toNat < 128)
    (h : b ∈ keyOf s) : isKeyCharacter (Char.ofNat b.toNat) = true := by
  obtain ⟨c, hc, hcode⟩ := Utf8.exists_of_mem_encode hb h
  rw [← hcode, Char.ofNat_toNat]
  rw [List.mem_map] at hc
  obtain ⟨d, -, rfl⟩ := hc
  split
  next hd => exact hd
  next => rfl

theorem Record.not_mem_key {b : UInt8} (hb : b.toNat < 128)
    (hdropped : isKeyCharacter (Char.ofNat b.toNat) = false) (scope : Bytes) (number : Nat)
    (r : Record) : b ∉ r.key scope number := by
  intro h
  rw [isKeyCharacter_of_mem_keyOf hb h] at hdropped
  cases hdropped

theorem keyOf_append_cons {b : UInt8} (hb : b.toNat < 128)
    (hkept : isKeyCharacter (Char.ofNat b.toNat) = true) (s t : Bytes) :
    keyOf (s ++ b :: t) = keyOf s ++ b :: keyOf t := by
  simp [keyOf, Utf8.characters_append_cons hb, Utf8.characters_cons hb, Utf8.encode, hkept,
    Utf8.utf8EncodeChar_ofNat hb]

theorem keyOf_decimal (number : Nat) : keyOf (Numeral.decimal number) = Numeral.decimal number := by
  have table : ∀ i : Fin 10, (Numeral.digit i).toNat < 128 ∧
      isKeyCharacter (Char.ofNat (Numeral.digit i).toNat) = true := by decide
  have hdigits : ∀ b ∈ Numeral.decimal number, b.toNat < 128 ∧
      isKeyCharacter (Char.ofNat b.toNat) = true := by
    intro b hb
    obtain ⟨i, hi, rfl⟩ := Numeral.exists_of_mem_decimal hb
    exact table ⟨i, hi⟩
  generalize Numeral.decimal number = s at hdigits
  induction s with
  | nil => simp [keyOf, Utf8.characters, Utf8.encode]
  | cons b s ih =>
    obtain ⟨⟨hb, hkept⟩, hs⟩ := List.forall_mem_cons.1 hdigits
    have h := keyOf_append_cons hb hkept [] s
    rw [ih hs] at h
    simpa [keyOf, Utf8.characters, Utf8.encode] using h

namespace Record

variable (scope : Bytes) (number : Nat) (r : Record)

theorem exists_key_eq : ∃ start, r.key scope number =
    start ++ underscore :: Numeral.decimal number := by
  have hfront (front : Bytes) : keyOf (front ++ utf8 "_" ++ Numeral.decimal number) =
      keyOf front ++ underscore :: Numeral.decimal number := by
    rw [List.append_assoc, show utf8 "_" = [underscore] from rfl, List.singleton_append,
      keyOf_append_cons (by decide) (by decide), keyOf_decimal]
  exact ⟨_, hfront _⟩

theorem key_ne_nil : r.key scope number ≠ [] := by
  obtain ⟨start, hkey⟩ := exists_key_eq scope number r
  simp [hkey]

/-- No two keys of different numbers are equal, whatever else goes into them. -/
theorem key_injective {scope other : Bytes} {m n : Nat} {r r' : Record}
    (h : r.key scope m = r'.key other n) : m = n := by
  have hlast (scope : Bytes) (number : Nat) (r : Record) :
      Bytes.trailing (· != underscore) (r.key scope number) = Numeral.decimal number := by
    obtain ⟨start, hkey⟩ := exists_key_eq scope number r
    rw [hkey]
    refine Bytes.trailing_append_cons start (by decide) ?_
    intro b hb
    have table : ∀ i : Fin 10, (Numeral.digit i != underscore) = true := by decide
    obtain ⟨i, hi, rfl⟩ := Numeral.exists_of_mem_decimal hb
    exact table ⟨i, hi⟩
  apply Numeral.decimal_injective
  rw [← hlast scope m r, h, hlast]

theorem doubleQuote_not_mem_key : doubleQuote ∉ r.key scope number :=
  not_mem_key (by decide) (by decide +kernel) scope number r

theorem isBlank_of_mem_key {b : UInt8} (h : b ∈ r.key scope number) : isBlank b = false := by
  rw [← Bool.not_eq_true]
  intro hblank
  revert h
  rcases isBlank_iff.1 hblank with rfl | rfl | rfl | rfl | rfl <;>
    exact not_mem_key (by decide) (by decide +kernel) scope number r

theorem dot_not_mem_key : dot ∉ r.key scope number :=
  not_mem_key (by decide) (by decide +kernel) scope number r

theorem forall_mem_classNames_iff {P : UInt8 → Prop} {scope : Bytes} {number : Nat} {r : Record}
    (hkey : ∀ b ∈ r.key scope number, P b) :
    (∀ name ∈ r.classNames scope number, ∀ b ∈ name, P b) ↔
      (∀ b ∈ r.classes, isBlank b = false → P b) ∧ (words r.classes = [] → ∀ b ∈ r.id, P b) := by
  have hclasses : (∀ b ∈ r.classes, isBlank b = false → P b) ↔
      ∀ word ∈ words r.classes, ∀ b ∈ word, P b := by
    constructor
    · intro h word hword b hb
      obtain ⟨hmem, hblank⟩ := (mem_words hword).2 b hb
      exact h b hmem hblank
    · intro h b hb hblank
      obtain ⟨word, hword, hmem⟩ := exists_word_of_mem hb hblank
      exact h word hword b hmem
  rw [hclasses]
  unfold classNames
  split
  next hwords =>
    rw [hwords]
    by_cases hid : r.id = []
    · simpa [hid] using hkey
    · simp [hid]
  next hne =>
    simp only [List.mem_append, List.mem_singleton, or_imp, forall_and, forall_eq]
    constructor
    · rintro ⟨hsource, -⟩
      exact ⟨hsource, fun hnil => absurd hnil hne⟩
    · rintro ⟨hsource, -⟩
      exact ⟨hsource, hkey⟩

end Record

theorem doubleQuote_not_mem_classAttribute {scope : Bytes} {number : Nat} {r : Record}
    (hid : doubleQuote ∉ r.id) (hclasses : doubleQuote ∉ r.classes) :
    doubleQuote ∉ (r.rule scope number).classAttribute := by
  have hkey : ∀ b ∈ r.key scope number, b ≠ doubleQuote :=
    fun _ hb => ne_of_mem_of_not_mem hb (r.doubleQuote_not_mem_key scope number)
  have hnames : ∀ name ∈ r.classNames scope number, ∀ b ∈ name, b ≠ doubleQuote :=
    (Record.forall_mem_classNames_iff hkey).2
      ⟨fun _ hb _ => ne_of_mem_of_not_mem hb hclasses, fun _ _ hb => ne_of_mem_of_not_mem hb hid⟩
  intro h
  rcases Bytes.mem_join h with hseparator | ⟨name, hname, hmem⟩
  · exact absurd hseparator (by decide)
  · exact hnames name hname doubleQuote hmem rfl

end StyleHoist
