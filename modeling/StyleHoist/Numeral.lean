import StyleHoist.Bytes

/-!
Numerals as bytes: decimal without leading zeros, and hexadecimal of a fixed width.  Main
statements: decimal numerals tell numbers apart (`decimal_injective`), and a fixed width is kept
(`length_hexadecimal`) and tells small numbers apart (`hexadecimal_injective`).
-/

set_option autoImplicit false
set_option relaxedAutoImplicit false

namespace StyleHoist.Numeral

def digit (n : Nat) : UInt8 := if n < 10 then 0x30 + n.toUInt8 else 0x57 + n.toUInt8

def decimal (n : Nat) : Bytes :=
  if n < 10 then [digit n] else decimal (n / 10) ++ [digit (n % 10)]

/-- The last hexadecimal digits of a number, as many as the width says. -/
def hexadecimal : Nat → Nat → Bytes
  | 0, _ => []
  | width + 1, n => hexadecimal width (n / 16) ++ [digit (n % 16)]

private theorem digit_injective {m n : Nat} (hm : m < 16) (hn : n < 16) (h : digit m = digit n) :
    m = n := by
  have table : ∀ i j : Fin 16, digit i = digit j → i = j := by decide
  exact Fin.mk.inj (table ⟨m, hm⟩ ⟨n, hn⟩ h)

theorem exists_of_mem_decimal {b : UInt8} {n : Nat} (h : b ∈ decimal n) :
    ∃ i < 10, b = digit i := by
  fun_induction decimal n with
  | case1 n hn => exact ⟨n, hn, List.mem_singleton.1 h⟩
  | case2 n hn ih =>
    rcases List.mem_append.1 h with h | h
    · exact ih h
    · exact ⟨n % 10, Nat.mod_lt n (by decide), List.mem_singleton.1 h⟩

private theorem decimal_of_lt {n : Nat} (h : n < 10) : decimal n = [digit n] := by
  rw [decimal, if_pos h]

private theorem decimal_of_le {n : Nat} (h : 10 ≤ n) :
    decimal n = decimal (n / 10) ++ [digit (n % 10)] := by
  rw [decimal, if_neg (Nat.not_lt.2 h)]

private theorem one_lt_length_decimal {n : Nat} (h : 10 ≤ n) : 1 < (decimal n).length := by
  have hhigh : 0 < (decimal (n / 10)).length := by
    rcases Nat.lt_or_ge (n / 10) 10 with hn | hn
    · simp [decimal_of_lt hn]
    · simp [decimal_of_le hn]
  rw [decimal_of_le h, List.length_append]
  exact Nat.lt_add_of_pos_left hhigh

theorem decimal_injective {m n : Nat} (h : decimal m = decimal n) : m = n := by
  induction m using Nat.strongRecOn generalizing n with
  | ind m ih =>
    rcases Nat.lt_or_ge m 10 with hm | hm <;> rcases Nat.lt_or_ge n 10 with hn | hn
    · rw [decimal_of_lt hm, decimal_of_lt hn] at h
      exact digit_injective (by omega) (by omega) (List.cons.inj h).1
    · have := one_lt_length_decimal hn
      simp [← h, decimal_of_lt hm] at this
    · have := one_lt_length_decimal hm
      simp [h, decimal_of_lt hn] at this
    · rw [decimal_of_le hm, decimal_of_le hn] at h
      obtain ⟨high, low⟩ := List.append_inj' h rfl
      have hlow := digit_injective (by omega) (by omega) (List.cons.inj low).1
      have hhigh := ih (m / 10) (by omega) high
      omega

theorem length_hexadecimal (width n : Nat) : (hexadecimal width n).length = width := by
  induction width generalizing n with
  | zero => rfl
  | succ width ih => simp [hexadecimal, ih]

/-- Two numbers that fit into the width and have the same numeral are equal. -/
theorem hexadecimal_injective {width m n : Nat} (hm : m >>> (4 * width) = 0)
    (hn : n >>> (4 * width) = 0) (h : hexadecimal width m = hexadecimal width n) : m = n := by
  induction width generalizing m n with
  | zero => exact hm.trans hn.symm
  | succ width ih =>
    obtain ⟨high, low⟩ := List.append_inj h (by simp [length_hexadecimal])
    have hlow := digit_injective (Nat.mod_lt m (by decide)) (Nat.mod_lt n (by decide))
      (List.head_eq_of_cons_eq low)
    have hshift (k : Nat) : (k / 16) >>> (4 * width) = k >>> (4 * (width + 1)) := by
      have hfour : k >>> 4 = k / 16 := Nat.shiftRight_eq_div_pow k 4
      rw [Nat.mul_succ, Nat.add_comm, Nat.shiftRight_add, hfour]
    have hhigh := ih (by rw [hshift, hm]) (by rw [hshift, hn]) high
    omega

end StyleHoist.Numeral
