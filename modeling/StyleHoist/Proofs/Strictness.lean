import StyleHoist.Session
import StyleHoist.Proofs.Sweep

/-!
The two modes of a scan.  A strict pass takes the steps of a permissive one, until it comes to a tag
that never ends: there it refuses where the other leaves the rest alone (`step_permissive`,
`exists_refused_iff`).  Main statement: the scans agree unless the permissive pass stops at such a
tag, and then the strict one still keeps the same records and reports (`scan_strict_agrees`).
-/

set_option autoImplicit false
set_option relaxedAutoImplicit false

namespace StyleHoist

open Ascii

/-- Whether a bracket at an offset opens a tag, a declaration or an instruction that never ends. -/
structure OpensUnterminated (text : Bytes) (offset : Nat) : Prop where
  bracket : text[offset]? = some lessThan
  not_comment : ¬ utf8 "<!--" <+: text.drop offset
  markup : ∃ next, text[offset + 1]? = some next ∧ opensMarkup next = true
  endless : Boundary.tagStop? text offset = none

namespace Sweep

/-- Whether a pass stops at an offset, where the next bracket opens a tag that never ends. -/
inductive StopsAt (mode : Mode) (stamp : Stamp) (text : Bytes) (offset : Nat) : Sweep → Prop where
  | here {s : Sweep} :
      s.position ≤ offset → lessThan ∉ Span.bytes text ⟨s.position, offset⟩ →
      OpensUnterminated text offset → StopsAt mode stamp text offset s
  | onward {s next : Sweep} :
      s.step mode stamp text = .onward next → StopsAt mode stamp text offset next →
      StopsAt mode stamp text offset s

/-- How a step ends where a tag without an end is left alone. -/
def Outcome.allowed : Outcome → Outcome
  | refused _ last => finished last
  | outcome => outcome

variable {stamp : Stamp} {text : Bytes} {s : Sweep}

private theorem passTag_ne_refused {closing : Nat} {error : ScanError} {last : Sweep} :
    s.passTag stamp text closing ≠ .refused error last := by
  simp only [passTag, passRawText]
  split
  · split <;> exact Outcome.noConfusion
  · exact Outcome.noConfusion

private theorem allowed_passTag {closing : Nat} :
    (s.passTag stamp text closing).allowed = s.passTag stamp text closing := by
  cases h : s.passTag stamp text closing with
  | refused error last => exact absurd h passTag_ne_refused
  | _ => rfl

theorem step_permissive : s.step .permissive stamp text = (s.step .strict stamp text).allowed := by
  simp only [step, passBracket]
  split
  · rfl
  · split
    · split <;> rfl
    · split
      · rfl
      · split
        · split
          · rfl
          · split
            · exact allowed_passTag.symm
            · rfl
        · rfl

private theorem exists_passBracket_refused_iff :
    (∃ error last, s.passBracket .strict stamp text = .refused error last) ↔
      ¬ utf8 "<!--" <+: text.drop s.position ∧
        (∃ next, text[s.position + 1]? = some next ∧ opensMarkup next = true) ∧
        Boundary.tagStop? text s.position = none := by
  constructor
  · rintro ⟨error, last, h⟩
    simp only [passBracket] at h
    split at h
    · split at h <;> cases h
    next hcomment =>
      split at h
      · cases h
      next next hnext =>
        split at h
        next hmarkup =>
          split at h
          next hend => exact ⟨by simpa using hcomment, ⟨next, hnext, hmarkup⟩, hend⟩
          · split at h
            · exact absurd h passTag_ne_refused
            · cases h
        · cases h
  · rintro ⟨hcomment, ⟨next, hnext, hmarkup⟩, hend⟩
    simp [passBracket, unterminated, hcomment, hnext, hmarkup, hend]

private theorem findIdx?_bracket_iff {start skipped : Nat} :
    (text.drop start).findIdx? (· == lessThan) = some skipped ↔
      text[start + skipped]? = some lessThan ∧
        lessThan ∉ Span.bytes text ⟨start, start + skipped⟩ := by
  rw [← List.getElem?_drop, Span.bytes, Nat.add_sub_cancel_left]
  generalize text.drop start = rest
  constructor
  · intro h
    obtain ⟨plain, inner, rfl, rfl, hplain⟩ := exists_of_findIdx? h
    simpa using hplain
  · rintro ⟨hbracket, hplain⟩
    obtain ⟨hlt, hbracket⟩ := List.getElem?_eq_some_iff.1 hbracket
    refine List.findIdx?_eq_some_iff_getElem.2 ⟨hlt, by simp [hbracket], fun i hi heq => ?_⟩
    exact hplain (List.mem_take_iff_getElem.2 ⟨i, by omega, beq_iff_eq.1 heq⟩)

theorem exists_refused_iff :
    (∃ error last, s.step .strict stamp text = .refused error last) ↔
      ∃ offset, s.position ≤ offset ∧ lessThan ∉ Span.bytes text ⟨s.position, offset⟩ ∧
        OpensUnterminated text offset := by
  rw [step]
  constructor
  · rintro ⟨error, last, h⟩
    split at h
    · cases h
    next skipped hskipped =>
      obtain ⟨hbracket, hplain⟩ := findIdx?_bracket_iff.1 hskipped
      obtain ⟨hcomment, hmarkup, hend⟩ := exists_passBracket_refused_iff.1 ⟨error, last, h⟩
      exact ⟨_, Nat.le_add_right _ skipped, hplain, hbracket, hcomment, hmarkup, hend⟩
  · rintro ⟨offset, hle, hplain, hbracket, hcomment, hmarkup, hend⟩
    obtain ⟨skipped, rfl⟩ := Nat.exists_eq_add_of_le hle
    rw [findIdx?_bracket_iff.2 ⟨hbracket, hplain⟩]
    exact exists_passBracket_refused_iff.2 ⟨hcomment, hmarkup, hend⟩

private theorem exists_stopsAt_iff :
    (∃ offset, s.StopsAt .permissive stamp text offset) ↔
      (∃ error last, s.step .strict stamp text = .refused error last) ∨
        ∃ next, s.step .strict stamp text = .onward next ∧
          ∃ offset, next.StopsAt .permissive stamp text offset := by
  have honward (next : Sweep) : s.step .permissive stamp text = .onward next ↔
      s.step .strict stamp text = .onward next := by
    rw [step_permissive]
    cases s.step .strict stamp text <;> simp [Outcome.allowed]
  rw [exists_refused_iff]
  constructor
  · rintro ⟨offset, ⟨hle, hplain, hopens⟩ | ⟨hstep, hstops⟩⟩
    · exact .inl ⟨offset, hle, hplain, hopens⟩
    · exact .inr ⟨_, (honward _).1 hstep, offset, hstops⟩
  · rintro (⟨offset, hle, hplain, hopens⟩ | ⟨next, hstep, offset, hstops⟩)
    · exact ⟨offset, .here hle hplain hopens⟩
    · exact ⟨offset, .onward ((honward next).2 hstep) hstops⟩

/-! ### Runs -/

theorem run_of_onward {mode : Mode} {next : Sweep} (h : s.step mode stamp text = .onward next) :
    s.run mode stamp text = next.run mode stamp text := by
  rw [run]
  split <;> simp_all

theorem run_of_finished {mode : Mode} {last : Sweep}
    (h : s.step mode stamp text = .finished last) : s.run mode stamp text = last.finish text := by
  rw [run]
  split <;> simp_all

/-- A strict pass ends with the scan of the permissive one, or has kept and reported the same when
it fails. -/
theorem run_strict (s : Sweep) :
    let strict := s.run .strict stamp text
    let permissive := s.run .permissive stamp text
    match strict.marked with
    | .ok _ => strict = permissive
    | .error _ =>
      strict.records = permissive.records ∧ permissive.reports = strict.reports ++ [.finished] := by
  fun_induction run .strict stamp text s with
  | case1 s next h ih =>
    have hstep : s.step .permissive stamp text = .onward next := by rw [step_permissive, h]; rfl
    rwa [run_of_onward hstep]
  | case2 s last h =>
    have hstep : s.step .permissive stamp text = .finished last := by rw [step_permissive, h]; rfl
    rw [run_of_finished hstep]
    rfl
  | case3 s error last h =>
    have hstep : s.step .permissive stamp text = .finished last := by rw [step_permissive, h]; rfl
    rw [run_of_finished hstep]
    exact ⟨rfl, rfl⟩

theorem exists_error_iff (s : Sweep) :
    (∃ error, (s.run .strict stamp text).marked = .error error) ↔
      ∃ offset, s.StopsAt .permissive stamp text offset := by
  fun_induction run .strict stamp text s with
  | case1 s next h ih =>
    rw [ih, exists_stopsAt_iff (s := s), h]
    simp
  | case2 s last h =>
    rw [exists_stopsAt_iff, h]
    simp [finish]
  | case3 s error last h =>
    rw [exists_stopsAt_iff, h]
    simp

end Sweep

/-- A strict scan fails exactly when the permissive pass stops at a tag that never ends, which is to
say that the document ends with one; it does not fail because of any other construct that is left
open.  Where it does not fail, the two scans are the same.  Where it fails, it keeps the records of
the permissive scan and reports all that this one does but for its end. -/
theorem scan_strict_agrees (stamp : Stamp) (text : Bytes) (session : Session) :
    let (permissive, next) := session.scan .permissive stamp text
    let (strict, next') := session.scan .strict stamp text
    ((∃ error, strict.marked = .error error) ↔
      ∃ offset, Sweep.start.StopsAt .permissive stamp text offset) ∧
    (match (Document.ofText text).ending with
      | .openTag _ => ∃ error, strict.marked = .error error
      | .complete | .loneBracket | .openComment _ | .openRawText _ => strict = permissive) ∧
    next.records = session.records ++ permissive.records ∧
    match strict.marked with
    | .ok _ => strict = permissive ∧ next' = next
    | .error _ =>
      permissive.reports = strict.reports ++ [.finished] ∧
        next' = { session with records := session.records ++ permissive.records } := by
  have hrun : match (scan .strict stamp text).marked with
      | .ok _ => scan .strict stamp text = scan .permissive stamp text
      | .error _ => (scan .strict stamp text).records = (scan .permissive stamp text).records ∧
        (scan .permissive stamp text).reports = (scan .strict stamp text).reports ++ [.finished] :=
    Sweep.run_strict .start
  refine ⟨Sweep.exists_error_iff .start, ?_, rfl, ?_⟩
  · cases hending : (Document.ofText text).ending <;>
      simp [scan_eq, Extraction.error?, Extraction.strictError?, Extraction.ofText,
        Extraction.ofDocument, hending]
  · cases hmarked : (scan .strict stamp text).marked with
    | ok marked =>
      rw [hmarked] at hrun
      have hsame : scan .strict stamp text = scan .permissive stamp text := hrun
      exact ⟨hsame, by rw [← hsame, hmarked]⟩
    | error error =>
      rw [hmarked] at hrun
      exact ⟨hrun.2, by rw [hrun.1]⟩

end StyleHoist
