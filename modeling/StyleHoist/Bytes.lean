/-!
Texts as the bytes of their UTF-8 form.  Every offset and every length in this library counts
these bytes.  Main statements: cutting at the first occurrence of a pattern loses nothing
(`eq_of_splitFirst?`), and the bytes taken off an end are exactly those that were there
(`dropTrailing_append_trailing`).
-/

set_option autoImplicit false
set_option relaxedAutoImplicit false

namespace StyleHoist

/-- A text in its UTF-8 form. -/
abbrev Bytes := List UInt8

def utf8 (s : String) : Bytes := s.toUTF8.data.toList

namespace Bytes

/-- What stands before and after the first occurrence of a pattern.  The empty pattern occurs at
the very start. -/
def splitFirst? (pattern : Bytes) : Bytes → Option (Bytes × Bytes)
  | [] => if pattern = [] then some ([], []) else none
  | b :: s =>
    if pattern.isPrefixOf (b :: s) then some ([], (b :: s).drop pattern.length)
    else (splitFirst? pattern s).map fun (before, after) => (b :: before, after)

def occurs (pattern s : Bytes) : Bool := (splitFirst? pattern s).isSome

/-- The longest end of a text whose bytes are all of a class. -/
def trailing (p : UInt8 → Bool) (s : Bytes) : Bytes := (s.reverse.takeWhile p).reverse

/-- A text without the longest end whose bytes are all of a class. -/
def dropTrailing (p : UInt8 → Bool) (s : Bytes) : Bytes := (s.reverse.dropWhile p).reverse

def join (separator : Bytes) (pieces : List Bytes) : Bytes := separator.intercalate pieces

theorem eq_of_splitFirst? {pattern s before after : Bytes}
    (h : splitFirst? pattern s = some (before, after)) : s = before ++ pattern ++ after := by
  induction s generalizing before after with
  | nil =>
    simp only [splitFirst?] at h
    split at h <;> simp_all
  | cons b s ih =>
    simp only [splitFirst?] at h
    split at h
    next hp =>
      obtain ⟨t, ht⟩ := List.isPrefixOf_iff_prefix.1 hp
      simp only [Option.some.injEq, Prod.mk.injEq] at h
      rw [← ht] at h ⊢
      simp [← h.1, ← h.2]
    next =>
      obtain ⟨⟨u, v⟩, hu, huv⟩ := Option.map_eq_some_iff.1 h
      simp only [Prod.mk.injEq] at huv
      rw [← huv.1, ← huv.2, ih hu]
      simp

theorem splitFirst?_eq_none_iff {pattern s : Bytes} :
    splitFirst? pattern s = none ↔ ¬ pattern <:+: s := by
  induction s with
  | nil => simp [splitFirst?]
  | cons b s ih =>
    by_cases hp : pattern <+: b :: s
    · simp [splitFirst?, List.infix_cons_iff, hp]
    · simp [splitFirst?, List.infix_cons_iff, hp, ih]

theorem occurs_eq_false_iff {pattern s : Bytes} : occurs pattern s = false ↔ ¬ pattern <:+: s := by
  rw [← splitFirst?_eq_none_iff, ← Option.isNone_iff_eq_none, occurs]
  cases splitFirst? pattern s <;> simp

theorem length_le_of_splitFirst? {pattern s before after u v : Bytes}
    (h : splitFirst? pattern s = some (before, after)) (huv : s = u ++ pattern ++ v) :
    before.length ≤ u.length := by
  induction s generalizing before u with
  | nil =>
    rw [eq_comm, List.append_assoc, List.append_eq_nil_iff] at huv
    have hwhole := congrArg List.length (eq_of_splitFirst? h)
    simp only [List.length_nil, List.length_append] at hwhole
    omega
  | cons b s ih =>
    simp only [splitFirst?] at h
    split at h
    next =>
      simp only [Option.some.injEq, Prod.mk.injEq] at h
      simp [← h.1]
    next hp =>
      obtain ⟨⟨u', v'⟩, hu, hcons⟩ := Option.map_eq_some_iff.1 h
      simp only [Prod.mk.injEq] at hcons
      obtain ⟨rfl, rfl⟩ := hcons
      cases u with
      | nil => exact absurd (List.isPrefixOf_iff_prefix.2 ⟨v, by simpa using huv.symm⟩) hp
      | cons c u =>
        have htail : s = u ++ pattern ++ v := by
          simp only [List.cons_append, List.cons.injEq] at huv
          exact huv.2
        exact Nat.succ_le_succ (ih hu htail)

theorem splitFirst?_eq_some_iff {pattern s before after : Bytes} :
    splitFirst? pattern s = some (before, after) ↔
      s = before ++ pattern ++ after ∧
        ∀ u v, s = u ++ pattern ++ v → before.length ≤ u.length := by
  constructor
  · intro h
    exact ⟨eq_of_splitFirst? h, fun _ _ huv => length_le_of_splitFirst? h huv⟩
  · rintro ⟨hwhole, hfirst⟩
    cases hsplit : splitFirst? pattern s with
    | none =>
      rw [splitFirst?_eq_none_iff] at hsplit
      exact absurd ⟨before, after, hwhole.symm⟩ hsplit
    | some parts =>
      obtain ⟨u, v⟩ := parts
      have hfound := eq_of_splitFirst? hsplit
      have hlength : u.length = before.length :=
        Nat.le_antisymm (length_le_of_splitFirst? hsplit hwhole) (hfirst u v hfound)
      rw [hwhole, List.append_assoc, List.append_assoc] at hfound
      obtain ⟨hu, hv⟩ := List.append_inj hfound hlength.symm
      rw [hu, List.append_cancel_left hv]

theorem exists_cons_of_append_eq {s t u v : Bytes} (h : s ++ t = u ++ v)
    (hlt : u.length < s.length) : ∃ b w, s = u ++ b :: w ∧ v = b :: w ++ t := by
  rcases List.append_eq_append_iff.1 h with ⟨w, rfl, -⟩ | ⟨w, rfl, rfl⟩
  · rw [List.length_append] at hlt
    omega
  · cases w with
    | nil =>
      rw [List.append_nil] at hlt
      omega
    | cons b w => exact ⟨b, w, rfl, rfl⟩

theorem dropTrailing_append_trailing (p : UInt8 → Bool) (s : Bytes) :
    dropTrailing p s ++ trailing p s = s := by
  rw [dropTrailing, trailing, ← List.reverse_append, List.takeWhile_append_dropWhile,
    List.reverse_reverse]

theorem all_trailing (p : UInt8 → Bool) (s : Bytes) :
    ∀ b ∈ trailing p s, p b = true := by
  intro b hb
  rw [trailing, List.mem_reverse] at hb
  exact List.all_eq_true.1 List.all_takeWhile b hb

theorem trailing_append_cons {p : UInt8 → Bool} {t : Bytes} {b : UInt8} (s : Bytes)
    (hb : p b = false) (ht : ∀ c ∈ t, p c = true) : trailing p (s ++ b :: t) = t := by
  rw [trailing, List.reverse_append, List.reverse_cons, List.append_assoc,
    List.takeWhile_append_of_pos (by simpa using ht), List.singleton_append,
    List.takeWhile_cons_of_neg (by simp [hb]), List.append_nil, List.reverse_reverse]

theorem stop_of_dropWhile_cons {p : UInt8 → Bool} {s rest : Bytes} {b : UInt8}
    (h : s.dropWhile p = b :: rest) : p b = false := by
  have hstop := List.head?_dropWhile_not p s
  simpa [h] using hstop

end Bytes

end StyleHoist
