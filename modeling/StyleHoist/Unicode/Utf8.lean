import StyleHoist.Bytes

/-!
Reading characters out of bytes.  A form is read as the number that its bits spell, and it counts
only if that number is a character whose own form it is, so overlong forms and surrogates are
refused.  What is no form is refused or else repaired.  Main statement: exactly the encoded texts
are read, each as the characters that it encodes (`decode?_eq_some_iff`).
-/

set_option autoImplicit false
set_option relaxedAutoImplicit false

namespace StyleHoist.Utf8

def encode (cs : List Char) : Bytes := cs.flatMap String.utf8EncodeChar

theorem encode_cons (c : Char) (cs : List Char) :
    encode (c :: cs) = String.utf8EncodeChar c ++ encode cs := rfl

/-- The length of a form that starts with a byte. -/
def width (lead : UInt8) : Nat :=
  if lead < 0x80 then 1 else if lead < 0xE0 then 2 else if lead < 0xF0 then 3 else 4

/-- The part of a first byte that belongs to the number of its character. -/
def payload (lead : UInt8) : Nat :=
  match width lead with
  | 1 => lead.toNat
  | 2 => lead.toNat % 32
  | 3 => lead.toNat % 16
  | _ => lead.toNat % 8

/-- The character that the first bytes of a text are the form of. -/
def first? : Bytes → Option Char
  | [] => none
  | lead :: s =>
    let form := s.take (width lead - 1)
    let c := Char.ofNat (form.foldl (fun n b => n * 64 + b.toNat % 64) (payload lead))
    if String.utf8EncodeChar c = lead :: form then some c else none

/-- Whether a form starts with some bytes, filled up with the least byte that goes on with one. -/
def startsForm (lead : UInt8) (s : Bytes) : Bool :=
  (first? (lead :: (s ++ List.replicate (width lead - 1 - s.length) 0x80))).isSome

/-- What is left behind a first byte without a form and the bytes that go on with one from there. -/
def resume (lead : UInt8) (s : Bytes) : Bytes :=
  if startsForm lead (s.take 2) then s.drop 2
  else if startsForm lead (s.take 1) then s.drop 1
  else s

theorem resume_suffix (lead : UInt8) (s : Bytes) : resume lead s <:+ s := by
  simp only [resume]
  split
  · exact List.drop_suffix 2 s
  split
  · exact List.drop_suffix 1 s
  · exact List.suffix_refl s

theorem length_resume (lead : UInt8) (s : Bytes) : (resume lead s).length ≤ s.length :=
  (resume_suffix lead s).length_le

/-- The characters of a text.  The longest start of a form that does not go on counts as U+FFFD. -/
def characters : Bytes → List Char
  | [] => []
  | lead :: s =>
    match first? (lead :: s) with
    | some c => c :: characters (s.drop (width lead - 1))
    | none => '\uFFFD' :: characters (resume lead s)
termination_by s => s.length
decreasing_by
  · simp only [List.length_drop, List.length_cons]
    omega
  · exact Nat.lt_succ_of_le (length_resume lead s)

/-- The text with U+FFFD wherever no form stands. -/
def repaired (s : Bytes) : Bytes := encode (characters s)

/-- The characters of a text, if it is well formed. -/
def decode? (s : Bytes) : Option (List Char) :=
  if encode (characters s) = s then some (characters s) else none

private theorem exists_lead (c : Char) : ∃ lead form, String.utf8EncodeChar c = lead :: form ∧
    form.length = width lead - 1 ∧
    form.foldl (fun n b => n * 64 + b.toNat % 64) (payload lead) = c.toNat := by
  have hc : c.val.toNat < 0x110000 := by
    have := c.valid
    simp only [UInt32.isValidChar, Nat.isValidChar] at this
    omega
  simp only [String.utf8EncodeChar, Char.toNat]
  generalize c.val.toNat = v at hc
  split
  next h =>
    have hw : width (UInt8.ofNat v) = 1 := by
      simp only [width, UInt8.lt_iff_toNat_lt, UInt8.toNat_ofNat', UInt8.reduceToNat]
      rw [if_pos (by omega)]
    refine ⟨_, _, rfl, by simp only [hw, List.length_nil], ?_⟩
    simp only [payload, hw, List.foldl_nil, UInt8.toNat_ofNat']
    omega
  split
  next h =>
    have hw : width (UInt8.ofNat (v / 64 % 32 + 192)) = 2 := by
      simp only [width, UInt8.lt_iff_toNat_lt, UInt8.toNat_ofNat', UInt8.reduceToNat]
      rw [if_neg (by omega), if_pos (by omega)]
    refine ⟨_, _, rfl, by simp only [hw, List.length_cons, List.length_nil], ?_⟩
    simp only [payload, hw, List.foldl_cons, List.foldl_nil, UInt8.toNat_ofNat']
    omega
  split
  next h =>
    have hw : width (UInt8.ofNat (v / 4096 % 16 + 224)) = 3 := by
      simp only [width, UInt8.lt_iff_toNat_lt, UInt8.toNat_ofNat', UInt8.reduceToNat]
      rw [if_neg (by omega), if_neg (by omega), if_pos (by omega)]
    refine ⟨_, _, rfl, by simp only [hw, List.length_cons, List.length_nil], ?_⟩
    simp only [payload, hw, List.foldl_cons, List.foldl_nil, UInt8.toNat_ofNat']
    omega
  next =>
    have hw : width (UInt8.ofNat (v / 262144 % 8 + 240)) = 4 := by
      simp only [width, UInt8.lt_iff_toNat_lt, UInt8.toNat_ofNat', UInt8.reduceToNat]
      rw [if_neg (by omega), if_neg (by omega), if_neg (by omega)]
    refine ⟨_, _, rfl, by simp only [hw, List.length_cons, List.length_nil], ?_⟩
    simp only [payload, hw, List.foldl_cons, List.foldl_nil, UInt8.toNat_ofNat']
    omega

/-- A character is read exactly where its form stands. -/
theorem first?_eq_some_iff {s : Bytes} {c : Char} :
    first? s = some c ↔ String.utf8EncodeChar c <+: s := by
  constructor
  · intro h
    cases s with
    | nil => cases h
    | cons b s =>
      simp only [first?] at h
      split at h
      next hform =>
        cases h
        rw [hform]
        exact List.cons_prefix_cons.2 ⟨rfl, List.take_prefix _ _⟩
      · cases h
  · rintro ⟨rest, rfl⟩
    obtain ⟨lead, form, henc, hlen, hval⟩ := exists_lead c
    rw [henc, List.cons_append]
    simp [first?, ← hlen, hval, henc, Char.ofNat_toNat]

theorem characters_utf8EncodeChar_append (c : Char) (s : Bytes) :
    characters (String.utf8EncodeChar c ++ s) = c :: characters s := by
  obtain ⟨lead, form, henc, hlen, -⟩ := exists_lead c
  have hfirst := first?_eq_some_iff.2 (List.prefix_append (String.utf8EncodeChar c) s)
  rw [henc, List.cons_append] at hfirst ⊢
  rw [characters, hfirst]
  simp [← hlen]

theorem characters_encode (cs : List Char) : characters (encode cs) = cs := by
  induction cs with
  | nil => simp [encode, characters]
  | cons c cs ih => rw [encode_cons, characters_utf8EncodeChar_append, ih]

theorem decode?_eq_some_iff {s : Bytes} {cs : List Char} : decode? s = some cs ↔ s = encode cs := by
  constructor
  · intro h
    simp only [decode?] at h
    split at h <;> simp_all
  · rintro rfl
    simp [decode?, characters_encode]

end StyleHoist.Utf8
