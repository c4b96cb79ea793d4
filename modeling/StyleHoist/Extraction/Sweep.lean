import StyleHoist.Markup.Layout
import StyleHoist.Extraction.Scan

/-!
A scan as one pass over a text.  The pass keeps the offset from which it looks for the next bracket,
and the offset up to which its output accounts for the text: a stretch is copied only when a styled
tag comes or the text ends.  Lines are counted only up to the tags whose line is asked for.
-/

set_option autoImplicit false
set_option relaxedAutoImplicit false

namespace StyleHoist

open Ascii

/-- What a pass has done so far. -/
structure Sweep where
  /-- Where the next `<` is looked for. -/
  position : Nat
  /-- Up to where the output accounts for the text. -/
  copied : Nat
  output : Bytes
  records : List Record
  reports : List Report
  /-- The last place whose line was asked for. -/
  counter : Place
  deriving DecidableEq

/-- The record of a tag with a style, cut out of the text by its layout. -/
def TagLayout.record (text : Bytes) (layout : TagLayout) (style : Bytes) (line : Nat)
    (token : Bytes) : Record where
  name := layout.name.bytes text
  id := (layout.valueOf? text (utf8 "id")).getD []
  classes := (layout.valueOf? text (utf8 "class")).getD []
  style
  others :=
    let kept := layout.attributes.filter fun a => !isReplacedName (a.name.bytes text)
    Bytes.join [space] (kept.map fun a => a.whole.bytes text)
  line
  token

namespace Sweep

def start : Sweep := ⟨0, 0, [], [], [.started], .first⟩

inductive Outcome where
  | onward (s : Sweep)
  | finished (s : Sweep)
  | refused (error : ScanError) (s : Sweep)

/-- The place at an offset behind the last one that was asked for. -/
def placeAt (text : Bytes) (offset : Nat) (s : Sweep) : Place :=
  s.counter.after (Span.bytes text ⟨s.counter.offset, offset⟩)

/-- Keeps the record of the styled tag ahead, writes its token and goes on behind it. -/
def extract (stamp : Stamp) (text : Bytes) (layout : TagLayout) (style : Bytes) (stop : Nat)
    (s : Sweep) : Sweep :=
  let place := s.placeAt text s.position
  let token := stamp.token (s.records.length + 1)
  { position := stop
    copied := layout.contentStop
    output := s.output ++ Span.bytes text ⟨s.copied, layout.name.stop⟩ ++ token
    records := s.records ++ [layout.record text style place.line token]
    reports := s.reports ++ [.reached stop text.length]
    counter := place }

/-- Goes on behind the content of a raw-text element, if its end tag comes. -/
def passRawText (text name : Bytes) (s : Sweep) : Outcome :=
  match Boundary.rawTextStop? name text s.position with
  | none => .finished s
  | some stop => .onward { s with position := stop }

/-- Goes on behind the start tag ahead, which a bracket at an offset closes. -/
def passTag (stamp : Stamp) (text : Bytes) (closing : Nat) (s : Sweep) : Outcome :=
  let tag := StartTag.ofBody (Span.bytes text ⟨s.position + 1, closing⟩)
  let layout := tag.layout (s.position + 1)
  let next := match layout.valueOf? text (utf8 "style") with
    | none => { s with position := closing + 1 }
    | some style => s.extract stamp text layout style (closing + 1)
  if tag.opensRawText then next.passRawText text (layout.name.bytes text) else .onward next

/-- Ends at a tag without an end, which strict mode refuses. -/
def unterminated (mode : Mode) (text : Bytes) (s : Sweep) : Outcome :=
  let place := s.placeAt text s.position
  let last := { s with counter := place }
  match mode with
  | .permissive => .finished last
  | .strict => .refused (.unterminatedTag place.line) last

/-- Goes on behind the construct that the bracket ahead opens. -/
def passBracket (mode : Mode) (stamp : Stamp) (text : Bytes) (s : Sweep) : Outcome :=
  if (utf8 "<!--").isPrefixOf (text.drop s.position) then
    match Boundary.commentStop? text s.position with
    | none => .finished s
    | some stop => .onward { s with position := stop }
  else
    match text[s.position + 1]? with
    | none => .finished s
    | some next =>
      if opensMarkup next then
        match Boundary.tagStop? text s.position with
        | none => s.unterminated mode text
        | some closing =>
          if isLetter next then s.passTag stamp text closing
          else .onward { s with position := closing + 1 }
      else .onward { s with position := s.position + 1 }

/-- Goes on to the next bracket and behind what it opens. -/
def step (mode : Mode) (stamp : Stamp) (text : Bytes) (s : Sweep) : Outcome :=
  match (text.drop s.position).findIdx? (· == lessThan) with
  | none => .finished s
  | some skipped => passBracket mode stamp text { s with position := s.position + skipped }

private theorem position_le_of_passRawText {text name : Bytes} {s next : Sweep}
    (h : s.passRawText text name = .onward next) : s.position ≤ next.position := by
  simp only [passRawText, Boundary.rawTextStop?] at h
  split at h
  · cases h
  next stop hstop =>
    obtain ⟨⟨content, rest⟩, -, rfl⟩ := Option.map_eq_some_iff.1 hstop
    cases h
    exact Nat.le_add_right _ _

private theorem position_lt_of_passTag {stamp : Stamp} {text : Bytes} {closing : Nat}
    {s next : Sweep} (h : s.passTag stamp text closing = .onward next) :
    closing < next.position := by
  simp only [passTag] at h
  split at h
  · have := position_le_of_passRawText h
    split at this <;> simp only [extract] at this <;> omega
  · cases h
    split <;> simp only [extract] <;> omega

private theorem position_lt_of_passBracket {mode : Mode} {stamp : Stamp} {text : Bytes}
    {s next : Sweep} (h : s.passBracket mode stamp text = .onward next) :
    s.position < next.position := by
  simp only [passBracket] at h
  split at h
  · simp only [Boundary.commentStop?] at h
    split at h
    · cases h
    next stop hstop =>
      obtain ⟨⟨body, rest⟩, -, rfl⟩ := Option.map_eq_some_iff.1 hstop
      cases h
      simp only
      omega
  · split at h
    · cases h
    · split at h
      · simp only [Boundary.tagStop?] at h
        split at h
        · simp only [unterminated] at h
          cases mode <;> cases h
        next closing hclosing =>
          obtain ⟨⟨body, rest⟩, -, rfl⟩ := Option.map_eq_some_iff.1 hclosing
          split at h
          · have := position_lt_of_passTag h
            omega
          · cases h
            simp only
            omega
      · cases h
        exact Nat.lt_succ_self _

/-- A step goes on, and only from inside the text, so a pass comes to an end. -/
theorem position_lt_of_step {mode : Mode} {stamp : Stamp} {text : Bytes} {s next : Sweep}
    (h : s.step mode stamp text = .onward next) :
    s.position < next.position ∧ s.position < text.length := by
  simp only [step] at h
  split at h
  · cases h
  next skipped hskipped =>
    have inside : skipped < (text.drop s.position).length :=
      (List.findIdx?_eq_some_iff_findIdx_eq.1 hskipped).1
    have onward := position_lt_of_passBracket h
    rw [List.length_drop] at inside
    exact ⟨Nat.lt_of_le_of_lt (Nat.le_add_right _ _) onward, by omega⟩

/-- The scan that a pass ends with: what is not yet accounted for is copied. -/
def finish (text : Bytes) (s : Sweep) : Scan :=
  ⟨s.records, s.reports ++ [.finished], .ok (s.output ++ text.drop s.copied)⟩

def run (mode : Mode) (stamp : Stamp) (text : Bytes) (s : Sweep) : Scan :=
  match _h : s.step mode stamp text with
  | .onward next => run mode stamp text next
  | .finished last => last.finish text
  | .refused error last => ⟨last.records, last.reports, .error error⟩
termination_by text.length - s.position
decreasing_by
  have := position_lt_of_step _h
  omega

end Sweep

/-- The scan of a text with a stamp that does not occur in it. -/
def scan (mode : Mode) (stamp : Stamp) (text : Bytes) : Scan :=
  Sweep.start.run mode stamp text

end StyleHoist
