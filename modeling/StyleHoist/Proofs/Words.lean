import Mathlib.Data.List.Basic
import StyleHoist.Ascii

/-!
Words of texts that are put together.  A blank separates what stands on both sides of it, so a text
joined of names by spaces has just the words of the names (`words_join`), and a name without a blank
is one word (`words_eq_singleton`).  So names come apart alike at dots and at blanks only if they
hold neither (`flatMap_splitOnP_eq_words_iff`).
-/

set_option autoImplicit false
set_option relaxedAutoImplicit false

namespace StyleHoist

open Ascii

variable {p : UInt8 → Bool} {b : UInt8} {s piece word : Bytes} {pieces names : List Bytes}

namespace Bytes

theorem mem_of_mem_splitOnP (h : piece ∈ s.splitOnP p) : ∀ b ∈ piece, b ∈ s ∧ p b = false := by
  induction s generalizing piece with
  | nil =>
    rw [List.splitOnP_nil, List.mem_singleton] at h
    subst h
    intro b hb
    cases hb
  | cons c s ih =>
    have inside {piece : Bytes} (h : piece ∈ s.splitOnP p) :
        ∀ b ∈ piece, b ∈ c :: s ∧ p b = false :=
      fun b hb => ⟨List.mem_cons_of_mem c (ih h b hb).1, (ih h b hb).2⟩
    rw [List.splitOnP_cons_eq_if_modifyHead] at h
    split at h
    · rcases List.mem_cons.1 h with rfl | h
      · intro b hb
        cases hb
      · exact inside h
    next hc =>
      obtain ⟨first, others, hsplit⟩ := List.exists_cons_of_ne_nil (List.splitOnP_ne_nil p s)
      rw [hsplit] at inside h
      rcases List.mem_cons.1 h with rfl | h
      · intro b hb
        rcases List.mem_cons.1 hb with rfl | hb
        · exact ⟨List.mem_cons_self, eq_false_of_ne_true hc⟩
        · exact inside List.mem_cons_self b hb
      · exact inside (List.mem_cons_of_mem first h)

theorem exists_piece_of_mem (hb : b ∈ s) (hp : p b = false) :
    ∃ piece ∈ s.splitOnP p, b ∈ piece := by
  induction s with
  | nil => cases hb
  | cons c s ih =>
    rw [List.splitOnP_cons_eq_if_modifyHead]
    split
    next hc =>
      rcases List.mem_cons.1 hb with rfl | hb
      · exact absurd hc (by simp [hp])
      · obtain ⟨piece, hpiece, hmem⟩ := ih hb
        exact ⟨piece, List.mem_cons_of_mem [] hpiece, hmem⟩
    next hc =>
      obtain ⟨first, others, hsplit⟩ := List.exists_cons_of_ne_nil (List.splitOnP_ne_nil p s)
      rw [hsplit] at ih ⊢
      rcases List.mem_cons.1 hb with rfl | hb
      · exact ⟨b :: first, List.mem_cons_self, List.mem_cons_self⟩
      · obtain ⟨piece, hpiece, hmem⟩ := ih hb
        rcases List.mem_cons.1 hpiece with rfl | hpiece
        · exact ⟨c :: piece, List.mem_cons_self, List.mem_cons_of_mem c hmem⟩
        · exact ⟨piece, List.mem_cons_of_mem _ hpiece, hmem⟩

theorem mem_join {separator : Bytes} (h : b ∈ join separator pieces) :
    b ∈ separator ∨ ∃ piece ∈ pieces, b ∈ piece := by
  induction pieces with
  | nil => cases h
  | cons piece pieces ih =>
    cases pieces with
    | nil =>
      rw [join, List.intercalate_singleton] at h
      exact .inr ⟨piece, List.mem_cons_self, h⟩
    | cons next pieces =>
      rw [join, List.intercalate_cons_cons, List.mem_append, List.mem_append] at h
      rcases h with (h | h) | h
      · exact .inr ⟨piece, List.mem_cons_self, h⟩
      · exact .inl h
      · rcases ih h with h | ⟨other, hother, hmem⟩
        · exact .inl h
        · exact .inr ⟨other, List.mem_cons_of_mem piece hother, hmem⟩

theorem splitOnP_of_not_mem (h : b ∉ s) : s.splitOnP (· == b) = [s] := by
  apply List.splitOnP_eq_singleton
  intro c hc
  apply beq_false_of_ne
  rintro rfl
  exact h hc

theorem splitOnP_append_flatMap {c : UInt8} (hc : p c = true) (s : Bytes) (pieces : List Bytes) :
    (s ++ pieces.flatMap (c :: ·)).splitOnP p =
      s.splitOnP p ++ pieces.flatMap (·.splitOnP p) := by
  induction pieces generalizing s with
  | nil => simp
  | cons piece pieces ih =>
    rw [List.flatMap_cons, List.cons_append, List.splitOnP_append_cons s _ hc, ih,
      List.flatMap_cons]

end Bytes

theorem mem_words (h : word ∈ words s) : word ≠ [] ∧ ∀ b ∈ word, b ∈ s ∧ isBlank b = false := by
  obtain ⟨hsplit, hword⟩ := List.mem_filter.1 h
  exact ⟨of_decide_eq_true hword, Bytes.mem_of_mem_splitOnP hsplit⟩

theorem exists_word_of_mem (hb : b ∈ s) (hblank : isBlank b = false) :
    ∃ word ∈ words s, b ∈ word := by
  obtain ⟨word, hword, hmem⟩ := Bytes.exists_piece_of_mem hb hblank
  exact ⟨word, List.mem_filter.2 ⟨hword, decide_eq_true (List.ne_nil_of_mem hmem)⟩, hmem⟩

theorem words_append_blank (hb : isBlank b = true) (s t : Bytes) :
    words (s ++ b :: t) = words s ++ words t := by
  rw [words, List.splitOnP_append_cons s t hb, List.filter_append]
  rfl

theorem words_eq_singleton (hs : s ≠ []) (hblank : ∀ b ∈ s, isBlank b = false) :
    words s = [s] := by
  rw [words, List.splitOnP_eq_singleton hblank]
  simp [hs]

theorem words_join (names : List Bytes) :
    words (Bytes.join [space] names) = names.flatMap words := by
  induction names with
  | nil => rfl
  | cons name names ih =>
    cases names with
    | nil => simp [Bytes.join]
    | cons next names =>
      rw [Bytes.join, List.intercalate_cons_cons, List.append_assoc, List.singleton_append,
        words_append_blank (by decide), List.flatMap_cons, ← ih]
      rfl

/-- Names put together at dots come apart at the dots into the words that they come apart into at
blanks, just if they hold neither. -/
theorem flatMap_splitOnP_eq_words_iff (hne : ∀ name ∈ names, name ≠ []) :
    names.flatMap (·.splitOnP (· == dot)) = names.flatMap words ↔
      ∀ name ∈ names, ∀ b ∈ name, b ≠ dot ∧ isBlank b = false := by
  have whole (hdot : ∀ name ∈ names, dot ∉ name) :
      names.flatMap (·.splitOnP (· == dot)) = names := by
    rw [List.flatMap_congr fun name hname => Bytes.splitOnP_of_not_mem (hdot name hname),
      List.flatMap_singleton']
  constructor
  · intro h
    have hdot : ∀ name ∈ names, dot ∉ name := by
      intro name hname hmem
      -- a dot is not blank, so it stands in a word, and no piece between dots holds one
      obtain ⟨word, hword, hdot⟩ := exists_word_of_mem hmem (by decide)
      have hpiece : word ∈ names.flatMap words := List.mem_flatMap.2 ⟨name, hname, hword⟩
      rw [← h] at hpiece
      obtain ⟨other, -, hpiece⟩ := List.mem_flatMap.1 hpiece
      exact absurd (Bytes.mem_of_mem_splitOnP hpiece dot hdot).2 (by decide)
    intro name hname b hb
    refine ⟨fun heq => hdot name hname (heq ▸ hb), ?_⟩
    rw [whole hdot] at h
    rw [h] at hname
    obtain ⟨other, -, hword⟩ := List.mem_flatMap.1 hname
    exact ((mem_words hword).2 b hb).2
  · intro h
    have hword : ∀ name ∈ names, words name = [name] :=
      fun name hname => words_eq_singleton (hne name hname) fun b hb => (h name hname b hb).2
    rw [whole fun name hname hmem => (h name hname dot hmem).1 rfl,
      List.flatMap_congr hword, List.flatMap_singleton']

end StyleHoist
