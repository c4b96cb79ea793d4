import StyleHoist.Bytes
import StyleHoist.Numeral

/-!
Tokens that stand for styled tags while a document is being rewritten.  A token is the stamp of
its scan followed by a counter.  A stamp is 32 hexadecimal digits, chosen so that they do not occur
in the scanned text.  Main statements: a chosen stamp has the form of a random identifier of version
four (`isVersionFour_ofSeed`), and the tokens of one stamp tell their counters apart
(`token_injective`).
-/

set_option autoImplicit false
set_option relaxedAutoImplicit false

namespace StyleHoist

/-- The digits of hexadecimal numerals, in lower case. -/
def isHexDigit (b : UInt8) : Bool := (0x30 ≤ b && b ≤ 0x39) || (0x61 ≤ b && b ≤ 0x66)

structure Stamp where
  digits : Bytes
  length_digits : digits.length = 32
  all_digits : digits.all isHexDigit
  deriving DecidableEq

namespace Stamp

private theorem all_hexadecimal (width n : Nat) :
    (Numeral.hexadecimal width n).all isHexDigit := by
  have table : ∀ i : Fin 16, isHexDigit (Numeral.digit i) := by decide
  induction width generalizing n with
  | zero => rfl
  | succ width ih =>
    simp only [Numeral.hexadecimal, List.all_append, ih, List.all_cons, List.all_nil]
    simpa using table ⟨n % 16, Nat.mod_lt n (by decide)⟩

/-- The stamp of a seed.  Of its 122 free bits the variant digit takes two. -/
def ofSeed (seed : Nat) : Stamp where
  digits :=
    Numeral.hexadecimal 12 (seed >>> 74) ++ utf8 "4" ++ Numeral.hexadecimal 3 (seed >>> 62) ++
      Numeral.hexadecimal 1 (8 + (seed >>> 60) % 4) ++ Numeral.hexadecimal 15 seed
  length_digits := by simp [Numeral.length_hexadecimal, show (utf8 "4").length = 1 from rfl]
  all_digits := by
    simp only [List.all_append, all_hexadecimal, Bool.true_and, Bool.and_true]
    decide

/-- Whether the variant and version digits are those of a random identifier. -/
def IsVersionFour (stamp : Stamp) : Prop :=
  stamp.digits[12]? = some 0x34 ∧ ∃ variant ∈ utf8 "89ab", stamp.digits[16]? = some variant

theorem isVersionFour_ofSeed (seed : Nat) : (ofSeed seed).IsVersionFour := by
  have table : ∀ i : Fin 4, Numeral.digit ((8 + i) % 16) ∈ utf8 "89ab" := by decide
  refine ⟨?_, _, table ⟨(seed >>> 60) % 4, Nat.mod_lt _ (by decide)⟩, ?_⟩
  · simp [ofSeed, Numeral.length_hexadecimal, show utf8 "4" = [0x34] from rfl]
  · simp [ofSeed, Numeral.hexadecimal, show utf8 "4" = [0x34] from rfl]

/-- The stamp of the first seed from a given one on that does not occur in a text.  A text has
fewer places for a stamp than it has bytes, so one of the seeds tried is good. -/
def fresh (seed : Nat) (text : Bytes) : Stamp :=
  let candidate? (i : Nat) : Option Stamp :=
    let stamp := ofSeed (seed + i)
    if Bytes.occurs stamp.digits text then none else some stamp
  ((List.range (text.length + 1)).findSome? candidate?).getD (ofSeed seed)

/-- The token of the tag with a number: the stamp and at least eight digits. -/
def token (stamp : Stamp) (number : Nat) : Bytes :=
  stamp.digits ++ Numeral.hexadecimal (max 8 (number.log2 / 4 + 1)) number

theorem all_token (stamp : Stamp) (number : Nat) : (stamp.token number).all isHexDigit := by
  rw [token, List.all_append, stamp.all_digits, all_hexadecimal]
  rfl

theorem token_injective (stamp : Stamp) {m n : Nat} (h : stamp.token m = stamp.token n) :
    m = n := by
  have hcounter := List.append_cancel_left h
  have hwidth := congrArg List.length hcounter
  have fits (k : Nat) : k >>> (4 * max 8 (k.log2 / 4 + 1)) = 0 := by
    have hlog : k < 2 ^ (k.log2 + 1) := Nat.lt_log2_self
    rw [Nat.shiftRight_eq_div_pow]
    apply Nat.div_eq_of_lt
    apply Nat.lt_of_lt_of_le hlog
    exact Nat.pow_le_pow_right (by decide) (by omega)
  simp only [Numeral.length_hexadecimal] at hwidth
  have hm := fits m
  have hn := fits n
  rw [hwidth] at hcounter hm
  exact Numeral.hexadecimal_injective hm hn hcounter

end Stamp

end StyleHoist
