import StyleHoist.Proofs.Boundary
import StyleHoist.Proofs.Slices
import StyleHoist.Proofs.Sweep
import StyleHoist.Session
import StyleHoist.Stylesheet.Rewrite

/-!
The pass over a text and the rewriting of a marked text, with each slice checked where it is taken.
A slice that does not lie in the text, or cuts a character where characters are taken, gives `none`
and nothing goes on behind it.  Main statement: no slice is refused, so that the checked pass comes
to the same end as the pass, and so does the rewriting (`checked_agrees`).
-/

set_option autoImplicit false
set_option relaxedAutoImplicit false

namespace StyleHoist

open Ascii

/-! ### The checked pass -/

def Sweep.Outcome.state : Outcome → Sweep
  | onward next => next
  | finished last => last
  | refused _ last => last

namespace Checked

def find (text name : Bytes) : List AttributeLayout → Option (Option AttributeLayout)
  | [] => some none
  | a :: attributes => do
    let found ← a.name.bytes? text
    if sameIgnoringCase found name then return some a else find text name attributes

def valueOf (text name : Bytes) (attributes : List AttributeLayout) : Option Bytes := do
  match (← find text name attributes).bind AttributeLayout.value with
  | none => return []
  | some span => span.chars? text

def kept (text : Bytes) : List AttributeLayout → Option (List Bytes)
  | [] => some []
  | a :: attributes => do
    let name ← a.name.bytes? text
    if isReplacedName name then kept text attributes
    else return (← a.whole.chars? text) :: (← kept text attributes)

def record (text : Bytes) (layout : TagLayout) (style : Span) (line : Nat) (token : Bytes) :
    Option Record := do
  let others ← kept text layout.attributes
  let name ← layout.name.chars? text
  let id ← valueOf text (utf8 "id") layout.attributes
  let classes ← valueOf text (utf8 "class") layout.attributes
  let style ← style.chars? text
  return ⟨name, id, classes, style, Bytes.join [space] others, line, token⟩

def placeAt (text : Bytes) (offset : Nat) (s : Sweep) : Option Place := do
  let counted ← Span.bytes? text ⟨s.counter.offset, offset⟩
  return s.counter.after counted

def extract (stamp : Stamp) (text : Bytes) (layout : TagLayout) (style : Span) (stop : Nat)
    (s : Sweep) : Option Sweep := do
  let place ← placeAt text s.position s
  let token := stamp.token (s.records.length + 1)
  let r ← record text layout style place.line token
  let copied ← Span.chars? text ⟨s.copied, layout.name.stop⟩
  return {
    position := stop
    copied := layout.contentStop
    output := s.output ++ copied ++ token
    records := s.records ++ [r]
    reports := s.reports ++ [.reached stop text.length]
    counter := place }

/-- Goes on behind the start tag ahead, and keeps its record if it has a style. -/
def passStyle (stamp : Stamp) (text : Bytes) (layout : TagLayout) (stop : Nat) (s : Sweep) :
    Option Sweep := do
  match (← find text (utf8 "style") layout.attributes).bind AttributeLayout.value with
  | none => return { s with position := stop }
  | some span => extract stamp text layout span stop s

/-- The offset of the first end tag of a name from an offset on.  The name of each end tag on the
way is sliced. -/
def rawTextStop (text name : Bytes) (start : Nat) : Option (Option Nat) :=
  match _h : text.from? start with
  | none => none
  | some ahead =>
    match _hsplit : Bytes.splitFirst? (utf8 "</") ahead with
    | none => some none
    | some (before, after) =>
      let stop := start + before.length
      let behind := stop + 2
      (Span.bytes? text ⟨behind, behind + (after.takeWhile isNameByte).length⟩).bind fun found =>
        if sameIgnoringCase found name then some (some stop) else rawTextStop text name behind
termination_by text.length - start
decreasing_by
  have hlength := congrArg List.length (Bytes.eq_of_splitFirst? _hsplit)
  have hopening : (utf8 "</").length = 2 := rfl
  rw [Bytes.from?] at _h
  split at _h
  · cases _h
    simp only [List.length_drop, List.length_append] at hlength
    omega
  · cases _h

def passRawText (text name : Bytes) (s : Sweep) : Option Sweep.Outcome := do
  match ← rawTextStop text name s.position with
  | none => return .finished s
  | some stop => return .onward { s with position := stop }

def passTag (stamp : Stamp) (text : Bytes) (closing : Nat) (s : Sweep) : Option Sweep.Outcome := do
  let body ← Span.bytes? text ⟨s.position + 1, closing⟩
  let tag := StartTag.ofBody body
  let layout := tag.layout (s.position + 1)
  let next ← passStyle stamp text layout (closing + 1) s
  let name ← layout.name.bytes? text
  if StartTag.isRawTextName name && !tag.isSelfClosing then passRawText text name next
  else return .onward next

def unterminated (mode : Mode) (text : Bytes) (s : Sweep) : Option Sweep.Outcome := do
  let place ← placeAt text s.position s
  let last := { s with counter := place }
  match mode with
  | .permissive => return .finished last
  | .strict => return .refused (.unterminatedTag place.line) last

def passBracket (mode : Mode) (stamp : Stamp) (text : Bytes) (s : Sweep) :
    Option Sweep.Outcome := do
  let ahead ← text.from? s.position
  if (utf8 "<!--").isPrefixOf ahead then
    let behind ← text.from? (s.position + 4)
    match Boundary.splitComment? behind with
    | none => return .finished s
    | some (body, _) => return .onward { s with position := s.position + 4 + body.length }
  else
    match text[s.position + 1]? with
    | none => return .finished s
    | some next =>
      if opensMarkup next then
        let behind ← text.from? (s.position + 1)
        match Boundary.splitTag? none behind with
        | none => unterminated mode text s
        | some (body, _) =>
          let closing := s.position + 1 + body.length
          if isLetter next then passTag stamp text closing s
          else return .onward { s with position := closing + 1 }
      else return .onward { s with position := s.position + 1 }

def step (mode : Mode) (stamp : Stamp) (text : Bytes) (s : Sweep) : Option Sweep.Outcome := do
  let ahead ← text.from? s.position
  match ahead.findIdx? (· == lessThan) with
  | none => return .finished s
  | some skipped => passBracket mode stamp text { s with position := s.position + skipped }

def finish (text : Bytes) (s : Sweep) : Option Scan := do
  let rest ← Span.chars? text ⟨s.copied, text.length⟩
  return ⟨s.records, s.reports ++ [.finished], .ok (s.output ++ rest)⟩

/-- A checked pass that goes on from a state comes to an end with a scan. -/
inductive Runs (mode : Mode) (stamp : Stamp) (text : Bytes) : Sweep → Scan → Prop
  | onward {s next : Sweep} {result : Scan} : step mode stamp text s = some (.onward next) →
      Runs mode stamp text next result → Runs mode stamp text s result
  | finished {s last : Sweep} {result : Scan} : step mode stamp text s = some (.finished last) →
      finish text last = some result → Runs mode stamp text s result
  | refused {s last : Sweep} {error : ScanError} :
      step mode stamp text s = some (.refused error last) →
      Runs mode stamp text s ⟨last.records, last.reports, .error error⟩

/-- Replaces each token at its first occurrence from an offset on and behind the one before it. -/
def substitute (text : Bytes) (start : Nat) :
    List Substitution → Option (Except RewriteError Bytes)
  | [] => do
    let rest ← Span.chars? text ⟨start, text.length⟩
    return .ok rest
  | s :: substitutions => do
    let ahead ← text.from? start
    match Bytes.splitFirst? s.token ahead with
    | none => return .error (.missingToken s.token)
    | some (before, _) =>
      let stop := start + before.length
      let kept ← Span.chars? text ⟨start, stop⟩
      let rest ← substitute text (stop + s.token.length) substitutions
      return rest.map fun rest => kept ++ s.replacement ++ rest

def rewrite (scope : Bytes) (marked : Bytes) (records : List Record) :
    Option (Except RewriteError Rewrite) := do
  let rules := rulesOf scope records
  let substitutions := (records.zip rules).map fun (r, rule) => ⟨r.token, rule.attributes r⟩
  let html ← substitute marked 0 substitutions
  return html.map fun html => ⟨html, rules⟩

/-! ### No slice of a pass is refused -/

variable {mode : Mode} {stamp : Stamp} {text name rest : Bytes} {s : Sweep} {layout : TagLayout}
  {style : Span} {attributes : List AttributeLayout}

theorem find_eq (h : ∀ a ∈ attributes, a.Whole text) : find text name attributes =
    some (attributes.find? fun a => sameIgnoringCase (a.name.bytes text) name) := by
  induction attributes with
  | nil => rfl
  | cons a attributes ih =>
    obtain ⟨ha, hattributes⟩ := List.forall_mem_cons.1 h
    simp only [find, ha.name.bytes?_eq, ih hattributes, List.find?_cons]
    cases hname : sameIgnoringCase (a.name.bytes text) name <;> simp [hname]

theorem kept_eq (h : ∀ a ∈ attributes, a.Whole text) : kept text attributes =
    some ((attributes.filter fun a => !isReplacedName (a.name.bytes text)).map
      fun a => a.whole.bytes text) := by
  induction attributes with
  | nil => rfl
  | cons a attributes ih =>
    obtain ⟨ha, hattributes⟩ := List.forall_mem_cons.1 h
    simp only [kept, ha.name.bytes?_eq, ha.whole.chars?_eq, ih hattributes, List.filter_cons]
    cases hname : isReplacedName (a.name.bytes text) <;> simp [hname]

theorem valueOf_eq (h : layout.Whole text) : valueOf text name layout.attributes =
    some ((layout.valueOf? text name).getD []) := by
  simp only [valueOf, find_eq h.attributes, TagLayout.valueOf?, TagLayout.find?]
  cases hfound : layout.attributes.find? fun a => sameIgnoringCase (a.name.bytes text) name with
  | none => rfl
  | some a =>
    have ha := h.attributes a (List.mem_of_find?_eq_some hfound)
    cases hvalue : a.value with
    | none => simp [hvalue]
    | some span => simp [hvalue, (ha.value span hvalue).chars?_eq]

theorem record_eq (h : layout.Whole text) (hstyle : style.Whole text) (line : Nat) (token : Bytes) :
    record text layout style line token =
      some (layout.record text (style.bytes text) line token) := by
  simp only [record, kept_eq h.attributes, h.name.chars?_eq, valueOf_eq h, hstyle.chars?_eq]
  rfl

theorem placeAt_eq (hs : s.Sound text) : placeAt text s.position s =
    some (s.placeAt text s.position) := by
  have hcounted := @Span.bytes?_eq text ⟨s.counter.offset, s.position⟩ hs.counted_le hs.position_le
  simp only [placeAt, hcounted]
  rfl

theorem extract_eq (hs : s.Sound text) (hcopied : Utf8.Between text s.copied)
    (hname : s.position ≤ layout.name.stop) (h : layout.Whole text) (hstyle : style.Whole text)
    (stop : Nat) : extract stamp text layout style stop s =
      some (s.extract stamp text layout (style.bytes text) stop) := by
  have hwhole : Span.Whole text ⟨s.copied, layout.name.stop⟩ :=
    ⟨Nat.le_trans hs.copied_le hname, hcopied, h.name.between_stop⟩
  simp only [extract, placeAt_eq hs, hwhole.chars?_eq, record_eq h hstyle, Option.bind_eq_bind,
    Option.bind_some]
  rfl

private theorem copied_passRawText (text name : Bytes) (s : Sweep) :
    (s.passRawText text name).state.copied = s.copied := by
  rw [Sweep.passRawText]
  split <;> rfl

theorem rawTextStop_eq {start : Nat} (h : start ≤ text.length) :
    rawTextStop text name start = some (Boundary.rawTextStop? name text start) := by
  fun_induction rawTextStop text name start with
  | case1 start hfrom =>
    rw [Bytes.from?_eq h] at hfrom
    cases hfrom
  | case2 start ahead hfrom hsplit =>
    rw [Bytes.from?_eq h] at hfrom
    cases hfrom
    rw [Boundary.rawTextStop?, Boundary.splitRawText?_eq_splitFirst?, hsplit]
    rfl
  | case3 start ahead hfrom before after hsplit stop behind ih =>
    rw [Bytes.from?_eq h] at hfrom
    cases hfrom
    have hahead := Bytes.eq_of_splitFirst? hsplit
    have hopening : (before ++ utf8 "</").length = before.length + 2 := List.length_append
    have hafter : text.drop behind = after := by
      have := Span.drop_of_drop hahead
      rwa [hopening, ← Nat.add_assoc] at this
    have hbehind : behind ≤ text.length := by
      have := Span.le_length_of_drop h hahead
      rwa [hopening, ← Nat.add_assoc] at this
    have hname : text.drop behind = after.takeWhile isNameByte ++ after.dropWhile isNameByte := by
      rw [hafter, List.takeWhile_append_dropWhile]
    have hfound := @Span.bytes?_eq text ⟨behind, behind + (after.takeWhile isNameByte).length⟩
      (Nat.le_add_right _ _) (Span.le_length_of_drop hbehind hname)
    rw [Span.bytes_of_drop hname] at hfound
    rw [hfound, Option.bind_some, ih hbehind, Boundary.rawTextStop?, Boundary.rawTextStop?, hafter,
      Boundary.splitRawText?_eq_splitFirst? name (text.drop start), hsplit]
    simp only
    split
    · rfl
    · rw [Option.map_map]
      refine congrArg (fun f => some (Option.map f _)) (funext fun parts => ?_)
      simp only [Function.comp_def, List.length_append, hopening]
      omega

theorem passRawText_eq (h : s.position ≤ text.length) :
    passRawText text name s = some (s.passRawText text name) := by
  simp only [passRawText, Sweep.passRawText, rawTextStop_eq h, Option.bind_eq_bind,
    Option.bind_some]
  cases Boundary.rawTextStop? name text s.position <;> rfl

theorem unterminated_eq (hs : s.Sound text) :
    unterminated mode text s = some (s.unterminated mode text) := by
  simp only [unterminated, placeAt_eq hs, Sweep.unterminated]
  cases mode <;> rfl

private theorem chars?_rest {start : Nat} (htext : Utf8.WellFormed text)
    (h : Utf8.Between text start) :
    Span.chars? text ⟨start, text.length⟩ = some (text.drop start) := by
  have hwhole : Span.Whole text ⟨start, text.length⟩ :=
    ⟨h.le_length, h, Utf8.between_length htext⟩
  rw [hwhole.chars?_eq, Span.bytes, List.take_of_length_le (by simp)]

theorem finish_eq (htext : Utf8.WellFormed text) (hcopied : Utf8.Between text s.copied) :
    finish text s = some (s.finish text) := by
  simp only [finish, chars?_rest htext hcopied]
  rfl

section Tag

variable {t : StartTag}

theorem passStyle_eq (htext : Utf8.WellFormed text) (hs : s.Sound text)
    (hcopied : Utf8.Between text s.copied) (ht : StartTag.ofBody t.body = t)
    (h : text.drop s.position = t.written ++ rest) :
    passStyle stamp text (t.layout (s.position + 1)) (s.position + t.written.length) s =
      some (s.behindTag stamp text t) := by
  have hwhole := whole_layout htext ht h
  have hname : s.position ≤ (t.layout (s.position + 1)).name.stop := by
    simp only [StartTag.layout, Span.covering]
    omega
  rw [passStyle, Sweep.behindTag, StartTag.style?, ← valueOf?_layout (drop_body h),
    TagLayout.valueOf?, TagLayout.find?, find_eq hwhole.attributes]
  cases hfound : (t.layout (s.position + 1)).attributes.find? fun a =>
      sameIgnoringCase (a.name.bytes text) (utf8 "style") with
  | none => rfl
  | some a =>
    have ha := hwhole.attributes a (List.mem_of_find?_eq_some hfound)
    cases hvalue : a.value with
    | none => simp [hvalue]
    | some span =>
      simp only [Option.bind_eq_bind, Option.bind_some, hvalue, Option.map_some]
      exact extract_eq hs hcopied hname hwhole (ha.value span hvalue) _

theorem passTag_eq (stamp : Stamp) (htext : Utf8.WellFormed text) (hs : s.Sound text)
    (hcopied : Utf8.Between text s.copied) (ht : StartTag.ofBody t.body = t)
    (h : text.drop s.position = t.written ++ rest) :
    passTag stamp text (s.position + 1 + t.body.length) s =
      some (s.passTag stamp text (s.position + 1 + t.body.length)) := by
  have hinner := drop_body h
  have hlength := t.length_written
  have hstop : s.position + 1 + t.body.length + 1 = s.position + t.written.length := by
    omega
  have hend := Span.le_length_of_drop hs.position_le h
  have hbody := @Span.bytes?_eq text ⟨s.position + 1, s.position + 1 + t.body.length⟩
    (Nat.le_add_right _ _) (by simp only; omega)
  have hbehind : (s.behindTag stamp text t).Sound text := Sweep.sound_behindTag hs h
  rw [Span.bytes_of_drop hinner] at hbody
  simp only [passTag, hbody, Option.bind_eq_bind, Option.bind_some, ht, hstop,
    passStyle_eq htext hs hcopied ht h, (whole_layout htext ht h).name.bytes?_eq,
    name_layout hinner, Sweep.passTag_eq ht.symm h]
  by_cases hraw : t.opensRawText
  · have hname : (StartTag.isRawTextName t.name && !t.isSelfClosing) = true := hraw
    rw [if_pos hname, if_pos hraw, passRawText_eq hbehind.position_le]
  · have hname : ¬ (StartTag.isRawTextName t.name && !t.isSelfClosing) = true := hraw
    rw [if_neg hname, if_neg hraw]
    rfl

theorem between_passTag (stamp : Stamp) (htext : Utf8.WellFormed text)
    (hcopied : Utf8.Between text s.copied) (ht : StartTag.ofBody t.body = t)
    (h : text.drop s.position = t.written ++ rest) :
    Utf8.Between text (s.passTag stamp text (s.position + 1 + t.body.length)).state.copied := by
  have hbehind : Utf8.Between text (s.behindTag stamp text t).copied := by
    rw [Sweep.behindTag]
    split
    · exact hcopied
    · exact (whole_layout htext ht h).between_contentStop
  rw [Sweep.passTag_eq ht.symm h]
  simp only
  split
  · rwa [copied_passRawText]
  · exact hbehind

end Tag

theorem passBracket_eq {inner : Bytes} (htext : Utf8.WellFormed text) (hs : s.Sound text)
    (hcopied : Utf8.Between text s.copied) (h : text.drop s.position = lessThan :: inner) :
    passBracket mode stamp text s = some (s.passBracket mode stamp text) ∧
      Utf8.Between text (s.passBracket mode stamp text).state.copied := by
  have hinside : s.position + 1 ≤ text.length :=
    Span.le_length_of_drop (s := [lessThan]) hs.position_le h
  simp only [passBracket, Sweep.passBracket, Bytes.from?_eq hs.position_le, Option.bind_eq_bind,
    Option.bind_some, Boundary.commentStop?, Boundary.tagStop?]
  split
  next hcomment =>
    -- the four bytes that open a comment stand in the text
    have hlength := (List.isPrefixOf_iff_prefix.1 hcomment).length_le
    rw [List.length_drop, show (utf8 "<!--").length = 4 from rfl] at hlength
    rw [Bytes.from?_eq (by omega), Option.bind_some]
    cases Boundary.splitComment? (text.drop (s.position + 4)) with
    | none => exact ⟨rfl, hcopied⟩
    | some parts => exact ⟨rfl, hcopied⟩
  next =>
    cases hnext : text[s.position + 1]? with
    | none => exact ⟨rfl, hcopied⟩
    | some next =>
      simp only [Bytes.from?_eq hinside, Option.bind_some]
      split
      · cases hsplit : Boundary.splitTag? none (text.drop (s.position + 1)) with
        | none => exact ⟨unterminated_eq hs, by cases mode <;> exact hcopied⟩
        | some parts =>
          obtain ⟨body, rest⟩ := parts
          simp only [Option.map_some]
          split
          · have ht : StartTag.ofBody (StartTag.ofBody body).body = StartTag.ofBody body := by
              rw [StartTag.body_ofBody]
            have hbody : text.drop (s.position + 1) = inner :=
              Span.drop_of_drop (s := [lessThan]) h
            have hwritten : text.drop s.position = (StartTag.ofBody body).written ++ rest := by
              rw [h, ← hbody, ← Boundary.written_of_splitTag? hsplit, StartTag.written,
                StartTag.body_ofBody]
              simp
            have hpass := passTag_eq stamp htext hs hcopied ht hwritten
            have hbetween := between_passTag stamp htext hcopied ht hwritten
            rw [StartTag.body_ofBody] at hpass hbetween
            exact ⟨hpass, hbetween⟩
          · exact ⟨rfl, hcopied⟩
      · exact ⟨rfl, hcopied⟩

theorem step_eq (mode : Mode) (stamp : Stamp) (htext : Utf8.WellFormed text)
    (hs : s.Sound text) (hcopied : Utf8.Between text s.copied) :
    step mode stamp text s = some (s.step mode stamp text) ∧
      Utf8.Between text (s.step mode stamp text).state.copied := by
  simp only [step, Sweep.step, Bytes.from?_eq hs.position_le, Option.bind_eq_bind,
    Option.bind_some]
  cases hskipped : (text.drop s.position).findIdx? (· == lessThan) with
  | none => exact ⟨rfl, hcopied⟩
  | some skipped =>
    obtain ⟨plain, inner, hsplit, rfl, -⟩ := Sweep.exists_of_findIdx? hskipped
    have hinside := Span.le_length_of_drop hs.position_le hsplit
    have hahead := Span.drop_of_drop hsplit
    exact passBracket_eq htext (hs.move (Nat.le_add_right _ _) hinside) hcopied hahead

/-- From wherever a pass may stand, the checked pass comes to the end of the pass. -/
theorem runs_run (htext : Utf8.WellFormed text) (hs : s.Sound text)
    (hcopied : Utf8.Between text s.copied) : Runs mode stamp text s (s.run mode stamp text) := by
  fun_induction Sweep.run mode stamp text s with
  | case1 s next h ih =>
    have hstep := step_eq mode stamp htext hs hcopied
    have hagrees : (s.step mode stamp text).Agrees mode stamp text _ := Sweep.agrees_step hs
    rw [h] at hstep hagrees
    exact .onward hstep.1 (ih hagrees.1 hstep.2)
  | case2 s last h =>
    have hstep := step_eq mode stamp htext hs hcopied
    rw [h] at hstep
    exact .finished hstep.1 (finish_eq htext hstep.2)
  | case3 s error last h =>
    have hstep := step_eq mode stamp htext hs hcopied
    rw [h] at hstep
    exact .refused hstep.1

/-! ### No slice of a rewriting is refused -/

private theorem between_splitFirst? {token before after : Bytes} {start : Nat}
    (htext : Utf8.WellFormed text) (hstart : Utf8.Between text start)
    (htoken : Utf8.WellFormed token)
    (h : Bytes.splitFirst? token (text.drop start) = some (before, after)) :
    Utf8.Between text (start + before.length) := by
  cases token with
  | nil =>
    -- an empty token is found right where the search starts
    have hbefore : before.length ≤ 0 := Bytes.length_le_of_splitFirst? (u := []) h rfl
    rwa [Nat.le_zero.1 hbefore]
  | cons b token =>
    have hsplit := Bytes.eq_of_splitFirst? h
    rw [List.append_assoc] at hsplit
    exact Utf8.between_of_drop htext (Span.drop_of_drop hsplit) htoken.isContinuation_head

theorem substitute_eq {start : Nat} {substitutions : List Substitution}
    (htext : Utf8.WellFormed text) (hstart : Utf8.Between text start)
    (htokens : ∀ s ∈ substitutions, Utf8.WellFormed s.token) :
    substitute text start substitutions =
      some (StyleHoist.substitute substitutions (text.drop start)) := by
  induction substitutions generalizing start with
  | nil =>
    simp only [substitute, chars?_rest htext hstart]
    rfl
  | cons s substitutions ih =>
    obtain ⟨htoken, htokens⟩ := List.forall_mem_cons.1 htokens
    simp only [substitute, StyleHoist.substitute, Bytes.from?_eq hstart.le_length,
      Option.bind_eq_bind, Option.bind_some]
    cases hfound : Bytes.splitFirst? s.token (text.drop start) with
    | none => rfl
    | some parts =>
      obtain ⟨before, after⟩ := parts
      have hsplit := Bytes.eq_of_splitFirst? hfound
      rw [List.append_assoc] at hsplit
      have hstop := between_splitFirst? htext hstart htoken hfound
      have hbehind := Span.drop_of_drop hsplit
      have hbefore : Span.Whole text ⟨start, start + before.length⟩ :=
        ⟨Nat.le_add_right _ _, hstart, hstop⟩
      have hnext := ih (hstop.forward hbehind htoken) htokens
      rw [Span.drop_of_drop hbehind] at hnext
      simp only [hbefore.chars?_eq, Span.bytes_of_drop hsplit, hnext]
      rfl

theorem rewrite_eq {marked : Bytes} {records : List Record} (scope : Bytes)
    (hmarked : Utf8.WellFormed marked) (htokens : ∀ r ∈ records, Utf8.WellFormed r.token) :
    rewrite scope marked records = some (StyleHoist.rewrite scope marked records) := by
  have hsubstitutions : ∀ s ∈ (records.zip (rulesOf scope records)).map
      (fun (r, rule) => (⟨r.token, rule.attributes r⟩ : Substitution)),
      Utf8.WellFormed s.token := by
    rw [List.forall_mem_map]
    rintro ⟨r, rule⟩ hpair
    exact htokens r (List.of_mem_zip hpair).1
  simp only [rewrite, substitute_eq hmarked (Utf8.between_zero hmarked) hsubstitutions]
  rfl

end Checked

/-- No slice is refused: whatever the text, as long as it is well formed, a checked scan comes to
the end of the scan, and a checked rewriting to that of the rewriting, whatever its tokens. -/
theorem checked_agrees :
    (∀ (mode : Mode) (stamp : Stamp) (text : Bytes) (session : Session), Utf8.WellFormed text →
      Checked.Runs mode stamp text .start (session.scan mode stamp text).1) ∧
    ∀ (scope marked : Bytes) (records : List Record), Utf8.WellFormed marked →
      (∀ r ∈ records, Utf8.WellFormed r.token) →
      Checked.rewrite scope marked records = some (rewrite scope marked records) := by
  constructor
  · intro mode stamp text session htext
    exact Checked.runs_run htext (Sweep.sound_start text) (Utf8.between_zero htext)
  · intro scope marked records hmarked htokens
    exact Checked.rewrite_eq scope hmarked htokens

/-- A text and tokens with characters of several bytes, an empty token and one that comes twice. -/
theorem checked_agrees_accents :
    let text := utf8 "é<p ü='ß→' style=\"é\" ö>→"
    let r (token : Bytes) : Record := ⟨utf8 "p", [], utf8 "ß", utf8 "é", [], 1, token⟩
    let records := [r [], r (utf8 "é"), r (utf8 "é")]
    Checked.Runs .strict (Stamp.ofSeed 0) text .start
        (Session.empty.scan .strict (Stamp.ofSeed 0) text).1 ∧
      Checked.rewrite (utf8 "ä") (utf8 "→é→é") records =
        some (rewrite (utf8 "ä") (utf8 "→é→é") records) := by
  intro text r records
  refine ⟨checked_agrees.1 _ _ _ _ (Utf8.wellFormed_utf8 _),
    checked_agrees.2 _ _ _ (Utf8.wellFormed_utf8 _) ?_⟩
  have hempty : Utf8.WellFormed [] := Utf8.wellFormed_utf8 ""
  simp [records, r, hempty, Utf8.wellFormed_utf8]

end StyleHoist
