import StyleHoist.Unicode.Utf8

/-!
Where the characters of a text are cut apart.  An ASCII byte is a character of its own wherever it
stands, so what stands before and behind it is read apart (`characters_append_cons`), and repairing
a text neither adds nor drops one (`repaired_append_cons`, `mem_of_mem_repaired`).  A well-formed
text can be cut in front of each byte that starts a character (`WellFormed.split`), and behind each
part that is well formed (`WellFormed.of_append`).
-/

set_option autoImplicit false
set_option relaxedAutoImplicit false

namespace StyleHoist.Utf8

variable {b : UInt8} {c : Char} {cs : List Char} {s t : Bytes}

theorem toNat_of_mem_utf8EncodeChar (hb : b.toNat < 128) (h : b ∈ String.utf8EncodeChar c) :
    c.toNat = b.toNat := by
  simp only [String.utf8EncodeChar, Char.toNat] at h ⊢
  generalize c.val.toNat = v at h ⊢
  split at h
  next hv =>
    rw [List.mem_singleton] at h
    rw [h, UInt8.toNat_ofNat']
    omega
  -- in a longer form every byte has its highest bit set
  exfalso
  split at h
  next hv =>
    simp only [List.mem_cons, List.not_mem_nil, or_false] at h
    rcases h with rfl | rfl <;> simp only [UInt8.toNat_ofNat'] at hb <;> omega
  split at h
  next hv =>
    simp only [List.mem_cons, List.not_mem_nil, or_false] at h
    rcases h with rfl | rfl | rfl <;> simp only [UInt8.toNat_ofNat'] at hb <;> omega
  next hv =>
    simp only [List.mem_cons, List.not_mem_nil, or_false] at h
    rcases h with rfl | rfl | rfl | rfl <;> simp only [UInt8.toNat_ofNat'] at hb <;> omega

theorem utf8EncodeChar_of_toNat (hb : b.toNat < 128) (hc : c.toNat = b.toNat) :
    String.utf8EncodeChar c = [b] := by
  simp only [Char.toNat] at hc
  simp [String.utf8EncodeChar, hc, Nat.le_of_lt_succ hb]

theorem exists_of_mem_encode (hb : b.toNat < 128) (h : b ∈ encode cs) :
    ∃ c ∈ cs, c.toNat = b.toNat := by
  rw [encode, List.mem_flatMap] at h
  obtain ⟨c, hc, hmem⟩ := h
  exact ⟨c, hc, toNat_of_mem_utf8EncodeChar hb hmem⟩

theorem utf8EncodeChar_ofNat (hb : b.toNat < 128) :
    String.utf8EncodeChar (Char.ofNat b.toNat) = [b] := by
  have table : ∀ n : Fin 128, (Char.ofNat n).toNat = n := by decide
  exact utf8EncodeChar_of_toNat hb (table ⟨b.toNat, hb⟩)

theorem characters_cons (hb : b.toNat < 128) (s : Bytes) :
    characters (b :: s) = Char.ofNat b.toNat :: characters s := by
  have h := characters_utf8EncodeChar_append (Char.ofNat b.toNat) s
  rwa [utf8EncodeChar_ofNat hb] at h

theorem first?_append (c : Char) (s : Bytes) : first? (String.utf8EncodeChar c ++ s) = some c :=
  first?_eq_some_iff.2 (List.prefix_append _ s)

theorem prefix_of_prefix_append_cons (hb : b.toNat < 128) (hs : s ≠ [])
    (h : String.utf8EncodeChar c <+: s ++ b :: t) : String.utf8EncodeChar c <+: s := by
  obtain ⟨rest, hrest⟩ := h
  by_cases hlength : s.length < (String.utf8EncodeChar c).length
  · exfalso
    obtain ⟨d, w, hform, hd⟩ := Bytes.exists_cons_of_append_eq hrest hlength
    obtain ⟨rfl, -⟩ := List.cons.inj hd
    have hcode : c.toNat = b.toNat :=
      toNat_of_mem_utf8EncodeChar hb (hform ▸ List.mem_append_right s List.mem_cons_self)
    rw [utf8EncodeChar_of_toNat hb hcode] at hlength
    exact hs (List.eq_nil_of_length_eq_zero (Nat.lt_one_iff.1 hlength))
  · exact List.prefix_of_prefix_length_le ⟨rest, hrest⟩ (List.prefix_append s _) (by omega)

theorem first?_append_cons_eq_none {lead : UInt8} (hb : b.toNat < 128)
    (h : first? (lead :: s) = none) : first? (lead :: (s ++ b :: t)) = none := by
  rw [← Option.not_isSome_iff_eq_none, Option.isSome_iff_exists]
  rintro ⟨c, hc⟩
  have hform := prefix_of_prefix_append_cons hb (List.cons_ne_nil lead s)
    (first?_eq_some_iff.1 hc)
  rw [first?_eq_some_iff.2 hform] at h
  cases h

theorem resume_append_cons {lead : UInt8} (hb : b.toNat < 128) (h : first? (lead :: s) = none)
    (t : Bytes) : resume lead (s ++ b :: t) = resume lead s ++ b :: t := by
  have hstart {p : Bytes} (hp : p <+: s) (u : Bytes) : startsForm lead (p ++ b :: u) = false := by
    have hnone : first? (lead :: p) = none := by
      obtain ⟨rest, rfl⟩ := hp
      rw [← Option.not_isSome_iff_eq_none, Option.isSome_iff_exists] at h ⊢
      rintro ⟨c, hc⟩
      exact h ⟨c, first?_eq_some_iff.2
        ((first?_eq_some_iff.1 hc).trans (List.prefix_append (lead :: p) rest))⟩
    rw [startsForm, List.append_assoc, List.cons_append, first?_append_cons_eq_none hb hnone]
    rfl
  rcases s with _ | ⟨d, _ | ⟨e, s⟩⟩
  · have htwo := hstart (List.nil_prefix) (t.take 1)
    have hone := hstart (List.nil_prefix) []
    simp only [List.nil_append] at htwo hone
    simp [resume, htwo, hone]
  · have htwo := hstart (List.prefix_refl [d]) []
    simp only [List.singleton_append] at htwo
    cases hone : startsForm lead [d] <;> simp [resume, htwo, hone]
  · simp only [resume, List.cons_append, List.take_succ_cons, List.take_zero, List.drop_succ_cons,
      List.drop_zero]
    split
    · rfl
    split <;> rfl

theorem characters_append_cons (hb : b.toNat < 128) (s t : Bytes) :
    characters (s ++ b :: t) = characters s ++ characters (b :: t) := by
  cases s with
  | nil => simp [characters]
  | cons lead s =>
    cases hfirst : first? (lead :: s) with
    | some c =>
      obtain ⟨rest, hrest⟩ := first?_eq_some_iff.1 hfirst
      have hshorter := congrArg List.length hrest
      have hform := String.length_utf8EncodeChar c
      have hsize := c.utf8Size_pos
      have ih := characters_append_cons hb rest t
      rw [← hrest, List.append_assoc, characters_utf8EncodeChar_append,
        characters_utf8EncodeChar_append, ih, List.cons_append]
    | none =>
      have ih := characters_append_cons hb (resume lead s) t
      rw [List.cons_append, characters, first?_append_cons_eq_none hb hfirst, characters, hfirst]
      simp only [resume_append_cons hb hfirst, ih, List.cons_append]
termination_by s.length
decreasing_by
  · exact Nat.lt_succ_of_le (length_resume lead s)
  · simp only [List.length_append, List.length_cons] at hshorter ⊢
    omega

theorem exists_cons_of_characters (hb : b.toNat < 128) (hc : c.toNat = b.toNat)
    (h : characters s = c :: cs) : ∃ rest, s = b :: rest ∧ characters rest = cs := by
  cases s with
  | nil =>
    rw [characters] at h
    cases h
  | cons lead s =>
    cases hfirst : first? (lead :: s) with
    | some d =>
      have hd : d = c := by
        rw [characters, hfirst] at h
        exact (List.cons.inj h).1
      have hprefix := first?_eq_some_iff.1 hfirst
      rw [hd, utf8EncodeChar_of_toNat hb hc] at hprefix
      obtain ⟨rfl, -⟩ := List.cons_prefix_cons.1 hprefix
      rw [characters_cons hb] at h
      exact ⟨s, rfl, (List.cons.inj h).2⟩
    | none =>
      rw [characters, hfirst] at h
      obtain ⟨rfl, -⟩ := List.cons.inj h
      have hreplacement : ('\uFFFD').toNat = 0xFFFD := rfl
      omega

/-! ### Repaired texts -/

theorem repaired_append_cons (hb : b.toNat < 128) (s t : Bytes) :
    repaired (s ++ b :: t) = repaired s ++ b :: repaired t := by
  simp only [repaired, characters_append_cons hb, characters_cons hb, encode, List.flatMap_append,
    List.flatMap_cons, utf8EncodeChar_ofNat hb, List.singleton_append]

theorem repaired_eq_nil_iff : repaired s = [] ↔ s = [] := by
  constructor
  · intro h
    cases s with
    | nil => rfl
    | cons lead s =>
      rw [repaired, characters] at h
      split at h <;> simp [encode] at h
  · rintro rfl
    simp [repaired, characters, encode]

theorem mem_of_mem_repaired (hb : b.toNat < 128) (h : b ∈ repaired s) : b ∈ s := by
  rw [repaired] at h
  fun_induction characters s with
  | case1 => exact h
  | case2 lead s c hfirst ih =>
    rcases List.mem_append.1 h with h | h
    · exact (first?_eq_some_iff.1 hfirst).subset h
    · exact List.mem_cons_of_mem lead ((List.drop_subset _ s) (ih h))
  | case3 lead s hfirst ih =>
    rcases List.mem_append.1 h with h | h
    · have hcode := toNat_of_mem_utf8EncodeChar hb h
      have hreplacement : ('\uFFFD').toNat = 0xFFFD := rfl
      omega
    · exact List.mem_cons_of_mem lead ((resume_suffix lead s).subset (ih h))

example : repaired [0x41, 0xE2, 0x82, 0x2E, 0xFF, 0xFE] = utf8 "A\uFFFD.\uFFFD\uFFFD" := by
  decide +kernel

/-! ### Well-formed texts -/

/-- A byte that stands in the form of a character behind the first byte. -/
def isContinuation (b : UInt8) : Bool := 0x80 ≤ b && b < 0xC0

def WellFormed (s : Bytes) : Prop := ∃ cs, s = encode cs

theorem wellFormed_utf8 (s : String) : WellFormed (utf8 s) := by
  obtain ⟨cs, hcs⟩ := s.isValidUTF8
  refine ⟨cs, ?_⟩
  simp [utf8, hcs, List.utf8Encode, encode]

theorem isContinuation_iff : isContinuation b = true ↔ 128 ≤ b.toNat ∧ b.toNat < 192 := by
  simp [isContinuation, UInt8.le_iff_toNat_le, UInt8.lt_iff_toNat_lt]

theorem isContinuation_of_lt (hb : b.toNat < 128) : isContinuation b = false := by
  rw [← Bool.not_eq_true, isContinuation_iff]
  omega

theorem exists_form (c : Char) : ∃ lead tail, String.utf8EncodeChar c = lead :: tail ∧
    isContinuation lead = false ∧ ∀ b ∈ tail, isContinuation b = true := by
  have hc : c.val.toNat < 0x110000 := by
    have := c.valid
    simp only [UInt32.isValidChar, Nat.isValidChar] at this
    omega
  simp only [String.utf8EncodeChar, ← Bool.not_eq_true, isContinuation_iff]
  generalize c.val.toNat = v at hc
  (repeat' split) <;> refine ⟨_, _, rfl, ?_, ?_⟩ <;>
    simp [UInt8.toNat_ofNat'] <;> omega

namespace WellFormed

theorem append (hs : WellFormed s) (ht : WellFormed t) : WellFormed (s ++ t) := by
  obtain ⟨cs, rfl⟩ := hs
  obtain ⟨ds, rfl⟩ := ht
  exact ⟨cs ++ ds, List.flatMap_append.symm⟩

theorem of_ascii (h : ∀ b ∈ s, b.toNat < 128) : WellFormed s := by
  induction s with
  | nil => exact ⟨[], rfl⟩
  | cons b s ih =>
    obtain ⟨hb, hs⟩ := List.forall_mem_cons.1 h
    obtain ⟨cs, rfl⟩ := ih hs
    refine ⟨Char.ofNat b.toNat :: cs, ?_⟩
    rw [encode_cons, utf8EncodeChar_ofNat hb, List.singleton_append]

theorem singleton (hb : b.toNat < 128) : WellFormed [b] :=
  of_ascii (List.forall_mem_singleton.2 hb)

theorem isContinuation_head (h : WellFormed (b :: s)) : isContinuation b = false := by
  obtain ⟨cs, hcs⟩ := h
  cases cs with
  | nil => cases hcs
  | cons c cs =>
    obtain ⟨lead, tail, hform, hlead, -⟩ := exists_form c
    rw [encode_cons, hform] at hcs
    rwa [(List.cons.inj hcs).1]

theorem split (h : WellFormed (s ++ b :: t)) (hb : isContinuation b = false) :
    WellFormed s ∧ WellFormed (b :: t) := by
  obtain ⟨cs, hcs⟩ := h
  induction cs generalizing s with
  | nil => simp [encode] at hcs
  | cons c cs ih =>
    cases s with
    | nil => exact ⟨⟨[], rfl⟩, ⟨c :: cs, hcs⟩⟩
    | cons d s =>
      obtain ⟨lead, tail, hform, -, htail⟩ := exists_form c
      rw [encode_cons, hform, List.cons_append, List.cons_append, List.cons.injEq] at hcs
      obtain ⟨rfl, hcs⟩ := hcs
      rcases List.append_eq_append_iff.1 hcs with ⟨w, rfl, hw⟩ | ⟨w, rfl, hw⟩
      · cases w with
        | nil => exact ⟨⟨[c], by simp [encode, hform]⟩, ⟨cs, hw⟩⟩
        | cons e w =>
          -- the byte would stand inside a form
          obtain ⟨rfl, -⟩ := List.cons.inj hw
          rw [htail b (List.mem_append_right s List.mem_cons_self)] at hb
          cases hb
      · obtain ⟨⟨ds, rfl⟩, hbehind⟩ := ih hw.symm
        exact ⟨⟨c :: ds, by simp [encode, hform]⟩, hbehind⟩

theorem of_append (hs : WellFormed s) (h : WellFormed (s ++ t)) : WellFormed t := by
  obtain ⟨cs, rfl⟩ := hs
  obtain ⟨ds, hds⟩ := h
  induction cs generalizing ds with
  | nil => exact ⟨ds, hds⟩
  | cons c cs ih =>
    rw [encode_cons, List.append_assoc] at hds
    cases ds with
    | nil =>
      obtain ⟨lead, tail, hform, -⟩ := exists_form c
      simp [hform, encode] at hds
    | cons d ds =>
      -- both readings start with the same character, since no form is the beginning of another
      have hfirst := congrArg first? hds
      rw [encode_cons, first?_append, first?_append, Option.some.injEq] at hfirst
      subst hfirst
      rw [encode_cons] at hds
      exact ih ds (List.append_cancel_left hds)

end WellFormed

end StyleHoist.Utf8
