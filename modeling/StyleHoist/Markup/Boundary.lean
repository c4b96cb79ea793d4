import StyleHoist.Ascii

/-!
Where a tag, a comment and the content of a raw-text element end.  Each function cuts a text
behind the opening into the part that belongs to the construct and the rest.  Main statements: a
cut loses nothing (`written_of_splitTag?`, `written_of_splitComment?`, `written_of_splitRawText?`).
-/

set_option autoImplicit false
set_option relaxedAutoImplicit false

namespace StyleHoist

open Ascii

namespace Boundary

/-- The quote that is open behind a byte, given the one that is open before it. -/
def quoteAfter : Option UInt8 → UInt8 → Option UInt8
  | some quote, b => if b = quote then none else some quote
  | none, b => if isQuote b then some b else none

/-- What stands before and after the first `>` outside quotes, given the open quote. -/
def splitTag? (quote : Option UInt8) : Bytes → Option (Bytes × Bytes)
  | [] => none
  | b :: s =>
    if quote = none ∧ b = greaterThan then some ([], s)
    else (splitTag? (quoteAfter quote b) s).map fun (body, rest) => (b :: body, rest)

/-- What follows the opening of a comment, through its end.  A comment whose first bytes are `>`
or `->` ends with them. -/
def splitComment? (s : Bytes) : Option (Bytes × Bytes) :=
  if (utf8 ">").isPrefixOf s then some (s.take 1, s.drop 1)
  else if (utf8 "->").isPrefixOf s then some (s.take 2, s.drop 2)
  else (Bytes.splitFirst? (utf8 "-->") s).map fun (body, rest) => (body ++ utf8 "-->", rest)

/-- Whether a text starts with an end tag whose name is the given one, in either case. -/
def isEndTagOf (name s : Bytes) : Bool :=
  (utf8 "</").isPrefixOf s && sameIgnoringCase ((s.drop 2).takeWhile isNameByte) name

/-- What stands before the first end tag of a name, and the text from that tag on. -/
def splitRawText? (name : Bytes) : Bytes → Option (Bytes × Bytes)
  | [] => none
  | b :: s =>
    if isEndTagOf name (b :: s) then some ([], b :: s)
    else (splitRawText? name s).map fun (content, rest) => (b :: content, rest)

theorem written_of_splitTag? {quote : Option UInt8} {s body rest : Bytes}
    (h : splitTag? quote s = some (body, rest)) : body ++ greaterThan :: rest = s := by
  induction s generalizing quote body with
  | nil => simp [splitTag?] at h
  | cons b s ih =>
    simp only [splitTag?] at h
    split at h
    next hb => simp_all
    next =>
      obtain ⟨⟨u, v⟩, hu, huv⟩ := Option.map_eq_some_iff.1 h
      simp only [Prod.mk.injEq] at huv
      obtain ⟨rfl, rfl⟩ := huv
      simp [ih hu]

theorem written_of_splitComment? {s body rest : Bytes}
    (h : splitComment? s = some (body, rest)) : body ++ rest = s := by
  simp only [splitComment?] at h
  split at h
  · simp only [Option.some.injEq, Prod.mk.injEq] at h
    rw [← h.1, ← h.2, List.take_append_drop]
  split at h
  · simp only [Option.some.injEq, Prod.mk.injEq] at h
    rw [← h.1, ← h.2, List.take_append_drop]
  · obtain ⟨⟨u, v⟩, hu, huv⟩ := Option.map_eq_some_iff.1 h
    simp only [Prod.mk.injEq] at huv
    obtain ⟨rfl, rfl⟩ := huv
    exact (Bytes.eq_of_splitFirst? hu).symm

theorem written_of_splitRawText? {name s content rest : Bytes}
    (h : splitRawText? name s = some (content, rest)) : content ++ rest = s := by
  induction s generalizing content with
  | nil => simp [splitRawText?] at h
  | cons b s ih =>
    simp only [splitRawText?] at h
    split at h
    · simp_all
    · obtain ⟨⟨u, v⟩, hu, huv⟩ := Option.map_eq_some_iff.1 h
      simp only [Prod.mk.injEq] at huv
      obtain ⟨rfl, rfl⟩ := huv
      simp [ih hu]

end Boundary

end StyleHoist
