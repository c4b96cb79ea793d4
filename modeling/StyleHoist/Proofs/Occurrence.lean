import Mathlib.Data.List.Nodup
import Mathlib.Data.List.Pairwise
import StyleHoist.Proofs.Direct

/-!
Where the tokens of a marked text occur.  No stamp occurs in the text, and what follows a token is
no digit, so a token occurs where it was put, or else it starts in the name of a tag and goes on in
the token behind that name.  Main statement: a token occurs just where it was put exactly when no
name lets it start earlier (`occurs_once_iff`).
-/

set_option autoImplicit false
set_option relaxedAutoImplicit false

namespace StyleHoist

open Ascii

namespace Bytes

/-- Whether a pattern occurs in a text at an offset. -/
def OccursAt (pattern text : Bytes) (offset : Nat) : Prop :=
  ∃ before after, text = before ++ pattern ++ after ∧ before.length = offset

/-- Around bytes as long as a pattern, with a byte behind them that it does not hold, the pattern
occurs before them, across their start, in their place or behind them. -/
theorem occurrence_cases {pattern left token rest u v : Bytes} {b : UInt8}
    (hlength : pattern.length = token.length) (hb : b ∉ pattern)
    (h : left ++ (token ++ b :: rest) = u ++ (pattern ++ v)) :
    pattern <:+: left ∨ Straddles pattern left token ∨ (u = left ∧ pattern = token) ∨
      ∃ w, u = left ++ token ++ w ∧ b :: rest = w ++ (pattern ++ v) := by
  rcases Nat.lt_trichotomy u.length left.length with hlt | heq | hgt
  · rcases infix_or_straddles h hlt with h | h
    · exact .inl h
    · exact .inr (.inl (h.of_append (Nat.le_of_eq hlength)))
  · obtain ⟨rfl, htail⟩ := List.append_inj h heq.symm
    exact .inr (.inr (.inl ⟨rfl, (List.append_inj htail hlength.symm).1.symm⟩))
  · obtain ⟨c, w, rfl, hw⟩ := exists_cons_of_append_eq h.symm hgt
    by_cases hinside : (c :: w).length < token.length
    · -- the pattern would have to hold the byte behind the token
      exfalso
      obtain ⟨d, x, rfl, hx⟩ := exists_cons_of_append_eq hw hinside
      obtain ⟨e, y, rfl, hy⟩ := exists_cons_of_append_eq hx (by
        simp only [hlength, List.length_append, List.length_cons]
        omega)
      obtain ⟨rfl, -⟩ := List.cons.inj hy
      exact hb (List.mem_append_right _ List.mem_cons_self)
    · obtain ⟨y, hy⟩ := List.prefix_of_prefix_length_le ⟨_, hw⟩ (List.prefix_append (c :: w) _)
        (Nat.le_of_not_lt hinside)
      rw [← hy, List.append_assoc] at hw
      refine .inr (.inr (.inr ⟨y, ?_, List.append_cancel_left hw⟩))
      rw [← hy, List.append_assoc]

end Bytes

/-- The styled tags among pieces, with the offsets at which their tokens are put when the pieces
start at an offset. -/
def Piece.insertions (stamp : Stamp) (start : Nat) : List Piece → List (StyledTag × Nat)
  | [] => []
  | .kept bytes :: pieces => insertions stamp (start + bytes.length) pieces
  | .styled t :: pieces =>
    (t, start + (lessThan :: t.tag.name).length) ::
      insertions stamp (start + (t.fill (stamp.token t.number)).length) pieces

/-- The styled tags of a text, with the offsets at which the marked text has their tokens. -/
def Extraction.insertions (stamp : Stamp) (e : Extraction) : List (StyledTag × Nat) :=
  Piece.insertions stamp 0 e.pieces

namespace Stamp

theorem length_token (stamp : Stamp) {number : Nat} (h : number < 0x100000000) :
    (stamp.token number).length = 40 := by
  have hlog : number.log2 < 32 := by
    by_cases hzero : number = 0
    · rw [hzero]
      decide
    · exact (Nat.log2_lt hzero).2 h
  rw [token, List.length_append, stamp.length_digits, Numeral.length_hexadecimal]
  omega

end Stamp

private theorem exists_withContent_eq (t : StartTag) :
    ∃ b s, isHexDigit b = false ∧
      ∀ bytes, t.withContent bytes = lessThan :: t.name ++ (bytes ++ b :: s) := by
  obtain ⟨b, s, hclosing, hb⟩ := t.exists_closing_cons []
  refine ⟨b, s, ?_, fun bytes => by simp [StartTag.withContent, hclosing]⟩
  rcases hb with hgap | rfl
  · rcases isGap_iff.1 hgap with rfl | rfl | rfl | rfl | rfl | rfl <;> rfl
  · rfl

section Insertions

variable {stamp : Stamp} {start : Nat} {pieces : List Piece}

private theorem map_fst_insertions :
    (Piece.insertions stamp start pieces).map Prod.fst = pieces.filterMap Piece.styledTag? := by
  induction pieces generalizing start with
  | nil => rfl
  | cons piece pieces ih =>
    cases piece with
    | kept bytes => exact ih
    | styled t => exact congrArg (t :: ·) ih

private theorem exists_of_mem_insertions {p : StyledTag × Nat}
    (h : p ∈ Piece.insertions stamp start pieces) :
    ∃ before after,
      pieces.flatMap (Piece.fill fun t => stamp.token t.number) =
        before ++ lessThan :: p.1.tag.name ++ stamp.token p.1.number ++ after ∧
      start + (before ++ lessThan :: p.1.tag.name).length = p.2 := by
  induction pieces generalizing start with
  | nil => cases h
  | cons piece pieces ih =>
    cases piece with
    | kept bytes =>
      obtain ⟨before, after, hwhole, hplace⟩ := ih h
      refine ⟨bytes ++ before, after, ?_, ?_⟩
      · rw [List.flatMap_cons, hwhole]
        simp [Piece.fill]
      · rw [← hplace]
        simp [Nat.add_assoc]
    | styled t =>
      rcases List.mem_cons.1 h with rfl | h
      · exact ⟨[], _, by simp [Piece.fill, StyledTag.fill, StartTag.withContent]; rfl, rfl⟩
      · obtain ⟨before, after, hwhole, hplace⟩ := ih h
        refine ⟨t.fill (stamp.token t.number) ++ before, after, ?_, ?_⟩
        · rw [List.flatMap_cons, hwhole]
          simp [Piece.fill]
        · rw [← hplace]
          simp [Nat.add_assoc]

private theorem lt_of_mem_insertions {p : StyledTag × Nat}
    (h : p ∈ Piece.insertions stamp start pieces) : start + p.1.tag.name.length < p.2 := by
  obtain ⟨before, after, -, hplace⟩ := exists_of_mem_insertions h
  rw [← hplace, List.length_append, List.length_cons]
  omega

theorem pairwise_insertions :
    (Piece.insertions stamp start pieces).Pairwise fun p q =>
      p.2 + (stamp.token p.1.number).length + q.1.tag.name.length < q.2 := by
  induction pieces generalizing start with
  | nil => exact .nil
  | cons piece pieces ih =>
    cases piece with
    | kept bytes => exact ih
    | styled t =>
      refine .cons (fun q hq => ?_) ih
      have hlt := lt_of_mem_insertions hq
      simp only [StyledTag.fill, StartTag.withContent, List.length_append,
        List.length_cons] at hlt ⊢
      omega

end Insertions

/-- An occurrence of a token is the one that was put there or starts in a name before it.  Bytes
that are settled, `before`, start at an offset, `origin`. -/
private theorem exists_of_occurrence {stamp : Stamp} {number origin : Nat} {pieces : List Piece}
    {before last u v : Bytes} (hnumber : number < 0x100000000)
    (hnumbers : ∀ t ∈ pieces.filterMap Piece.styledTag?, t.number < 0x100000000)
    (hstamp : ¬ stamp.digits <:+: before ++ (pieces.flatMap Piece.written ++ last))
    (h : before ++ (pieces.flatMap (Piece.fill fun t => stamp.token t.number) ++ last) =
      u ++ stamp.token number ++ v) :
    ∃ p ∈ Piece.insertions stamp (origin + before.length) pieces,
      (origin + u.length = p.2 ∧ number = p.1.number) ∨
        Bytes.Straddles (stamp.token number) p.1.tag.name (stamp.token p.1.number) := by
  induction pieces generalizing before u origin with
  | nil =>
    refine absurd ((stamp.digits_prefix_token number).isInfix.trans ?_) hstamp
    exact ⟨u, v, h.symm⟩
  | cons piece pieces ih =>
    cases piece with
    | kept bytes =>
      simp only [List.flatMap_cons, Piece.written, Piece.fill, List.append_assoc,
        List.filterMap_cons, Piece.styledTag?] at hstamp hnumbers h
      rw [← List.append_assoc before] at hstamp h
      obtain ⟨p, hp, hcase⟩ := @ih origin _ _ hnumbers hstamp (by simpa using h)
      refine ⟨p, ?_, hcase⟩
      rwa [List.length_append, ← Nat.add_assoc] at hp
    | styled t =>
      simp only [List.flatMap_cons, Piece.written, Piece.fill, List.append_assoc,
        List.filterMap_cons, Piece.styledTag?, List.forall_mem_cons] at hstamp hnumbers h
      obtain ⟨b, s, hb, hcontent⟩ := exists_withContent_eq t.tag
      have hdigit : b ∉ stamp.token number := fun hmem => by
        rw [List.all_eq_true.1 (stamp.all_token number) b hmem] at hb
        cases hb
      have hlength : (stamp.token number).length = (stamp.token t.number).length := by
        rw [stamp.length_token hnumber, stamp.length_token hnumbers.1]
      have hplaced (bytes rest : Bytes) : before ++ (t.tag.withContent bytes ++ rest) =
          before ++ lessThan :: t.tag.name ++ (bytes ++ b :: (s ++ rest)) := by
        rw [hcontent]
        simp
      rw [StyledTag.fill, hplaced] at h
      rw [t.tag.written_eq_withContent, hplaced] at hstamp
      rcases Bytes.occurrence_cases hlength hdigit h with
        hinside | hacross | ⟨rfl, hsame⟩ | ⟨w, rfl, hrest⟩
      · refine absurd ((stamp.digits_prefix_token number).isInfix.trans ?_) hstamp
        exact hinside.trans (List.prefix_append _ _).isInfix
      · refine ⟨_, List.mem_cons_self, .inr ?_⟩
        exact hacross.of_append_cons (stamp.lessThan_not_mem_token number)
      · refine ⟨_, List.mem_cons_self, .inl ⟨?_, stamp.token_injective hsame⟩⟩
        rw [List.length_append, Nat.add_assoc]
      · have hbehind : ¬ stamp.digits <:+: b :: s ++ (pieces.flatMap Piece.written ++ last) := by
          intro hinfix
          apply hstamp
          rw [← List.append_assoc _ t.tag.content]
          exact hinfix.trans (List.suffix_append _ _).isInfix
        obtain ⟨p, hp, hcase⟩ := @ih
          (origin + (before ++ lessThan :: t.tag.name ++ stamp.token t.number).length) (b :: s) w
          hnumbers.2 hbehind (by rw [List.cons_append, hrest, List.append_assoc])
        have hstart : origin + before.length + (t.fill (stamp.token t.number)).length =
            origin + (before ++ lessThan :: t.tag.name ++ stamp.token t.number).length +
              (b :: s).length := by
          rw [StyledTag.fill, hcontent]
          simp only [List.length_append]
          omega
        refine ⟨p, List.mem_cons_of_mem _ (hstart ▸ hp), ?_⟩
        simp only [List.length_append] at hcase ⊢
        simpa only [Nat.add_assoc] using hcase

/-! ### The tokens of a scan -/

section Text

variable (stamp : Stamp) (text : Bytes)

private theorem numbers_styledTags :
    (Extraction.ofText text).styledTags.map StyledTag.number =
      List.range' 1 (Extraction.ofText text).styledTags.length := by
  have hsecond := congrArg (List.map Prod.snd) (zipIdx_styledTags text)
  rw [List.zipIdx_map_snd, List.map_map] at hsecond
  exact hsecond.symm

private theorem number_le {t : StyledTag} (h : t ∈ (Extraction.ofText text).styledTags) :
    t.number ≤ (Extraction.ofText text).styledTags.length := by
  have hmem : t.number ∈ (Extraction.ofText text).styledTags.map StyledTag.number :=
    List.mem_map_of_mem h
  rw [numbers_styledTags, List.mem_range'_1] at hmem
  omega

private theorem tags_insertions :
    ((Extraction.ofText text).insertions stamp).map Prod.fst =
      (Extraction.ofText text).styledTags :=
  map_fst_insertions

private theorem eq_of_number {p q : StyledTag × Nat}
    (hp : p ∈ (Extraction.ofText text).insertions stamp)
    (hq : q ∈ (Extraction.ofText text).insertions stamp) (h : p.1.number = q.1.number) : p = q := by
  have hnumbers : ((Extraction.ofText text).insertions stamp).map (fun p => p.1.number) =
      List.range' 1 (Extraction.ofText text).styledTags.length := by
    rw [← numbers_styledTags, ← tags_insertions stamp, List.map_map]
    rfl
  exact List.inj_on_of_nodup_map (hnumbers ▸ List.nodup_range') hp hq h

private theorem lt_or_lt {p q : StyledTag × Nat}
    (hp : p ∈ (Extraction.ofText text).insertions stamp)
    (hq : q ∈ (Extraction.ofText text).insertions stamp) (h : p ≠ q) :
    p.2 + q.1.tag.name.length < q.2 ∨ q.2 + p.1.tag.name.length < p.2 := by
  let Apart (p q : StyledTag × Nat) : Prop :=
    p.2 + q.1.tag.name.length < q.2 ∨ q.2 + p.1.tag.name.length < p.2
  have hsymm : Std.Symm Apart := ⟨fun _ _ => Or.symm⟩
  have hpairs : ((Extraction.ofText text).insertions stamp).Pairwise Apart :=
    pairwise_insertions.imp fun hlt => .inl (by omega)
  exact hpairs.forall hp hq h

private theorem exists_occursAt {number : Nat} {q : StyledTag × Nat}
    (hq : q ∈ (Extraction.ofText text).insertions stamp)
    (h : Bytes.Straddles (stamp.token number) q.1.tag.name (stamp.token q.1.number)) :
    ∃ offset, Bytes.OccursAt (stamp.token number) ((Extraction.ofText text).marked stamp) offset ∧
      offset < q.2 ∧ q.2 ≤ offset + q.1.tag.name.length := by
  obtain ⟨a, b, ha, -, htoken, ⟨c, hname⟩, ⟨d, hbehind⟩⟩ := h
  obtain ⟨before, after, hwhole, hplace⟩ := exists_of_mem_insertions hq
  have hlength := congrArg List.length hname
  have hpos := List.length_pos_iff.2 ha
  refine ⟨(before ++ lessThan :: c).length, ⟨before ++ lessThan :: c, d ++ after ++
    (Extraction.ofText text).ending.written, ?_, rfl⟩, ?_, ?_⟩
  · rw [Extraction.marked, Extraction.fill, hwhole, htoken, ← hname, ← hbehind]
    simp
  · simp only [← hplace, ← hname, List.length_append, List.length_cons]
    omega
  · simp only [← hplace, ← hname, List.length_append, List.length_cons]
    omega

theorem records_insertions (mode : Mode) :
    (scan mode stamp text).records =
      ((Extraction.ofText text).insertions stamp).map fun p => p.1.record stamp := by
  rw [records_scan, ← tags_insertions stamp, List.map_map]
  rfl

theorem exists_marked_eq {p : StyledTag × Nat}
    (hp : p ∈ (Extraction.ofText text).insertions stamp) :
    ∃ before after, (Extraction.ofText text).marked stamp =
        before ++ lessThan :: p.1.tag.name ++ stamp.token p.1.number ++ after ∧
      (before ++ lessThan :: p.1.tag.name).length = p.2 := by
  obtain ⟨before, after, hwhole, hplace⟩ := exists_of_mem_insertions hp
  refine ⟨before, after ++ (Extraction.ofText text).ending.written, ?_, ?_⟩
  · rw [Extraction.marked, Extraction.fill, hwhole, List.append_assoc _ after]
  · rwa [Nat.zero_add] at hplace

theorem number_lt_of_mem_insertions
    (hcount : (Extraction.ofText text).styledTags.length < 0x100000000) {p : StyledTag × Nat}
    (hp : p ∈ (Extraction.ofText text).insertions stamp) : p.1.number < 0x100000000 := by
  have hmem : p.1 ∈ ((Extraction.ofText text).insertions stamp).map Prod.fst :=
    List.mem_map_of_mem hp
  rw [tags_insertions] at hmem
  exact Nat.lt_of_le_of_lt (number_le text hmem) hcount

/-- A token that no name lets start earlier occurs just where it was put. -/
theorem occursAt_token_iff (hstamp : Bytes.occurs stamp.digits text = false)
    (hcount : (Extraction.ofText text).styledTags.length < 0x100000000) {p : StyledTag × Nat}
    (hp : p ∈ (Extraction.ofText text).insertions stamp)
    (hacross : ∀ q ∈ (Extraction.ofText text).insertions stamp,
      ¬ Bytes.Straddles (stamp.token p.1.number) q.1.tag.name (stamp.token q.1.number))
    (offset : Nat) :
    Bytes.OccursAt (stamp.token p.1.number) ((Extraction.ofText text).marked stamp) offset ↔
      offset = p.2 := by
  constructor
  · rintro ⟨u, v, huv, rfl⟩
    have htext : ¬ stamp.digits <:+: [] ++ ((Extraction.ofText text).pieces.flatMap Piece.written
        ++ (Extraction.ofText text).ending.written) := by
      rw [List.nil_append, Extraction.written_ofText]
      exact Bytes.occurs_eq_false_iff.1 hstamp
    obtain ⟨q, hq, ⟨hoffset, hnumber⟩ | hstraddles⟩ := @exists_of_occurrence stamp p.1.number 0 _
      [] _ u v (number_lt_of_mem_insertions stamp text hcount hp)
      (fun t ht => Nat.lt_of_le_of_lt (number_le text ht) hcount) htext huv
    · rw [eq_of_number stamp text hp hq hnumber, ← hoffset, Nat.zero_add]
    · exact absurd hstraddles (hacross q hq)
  · rintro rfl
    obtain ⟨before, after, hput, hplace⟩ := exists_marked_eq stamp text hp
    exact ⟨_, _, hput, hplace⟩

end Text

/-- Each token of a scan stands where it was put, behind the name of its tag, and it occurs nowhere
else exactly when no name ends with the first digits of the token while the token behind that name
starts with the others. -/
theorem occurs_once_iff {mode : Mode} {stamp : Stamp} {text marked : Bytes}
    (hstamp : Bytes.occurs stamp.digits text = false)
    (hmarked : (scan mode stamp text).marked = .ok marked)
    (hcount : (scan mode stamp text).records.length < 0x100000000) :
    let places := (Extraction.ofText text).insertions stamp
    let records := (scan mode stamp text).records
    records = places.map (fun p => p.1.record stamp) ∧
    ∀ p ∈ places,
      let token := stamp.token p.1.number
      (∃ before after, marked = before ++ lessThan :: p.1.tag.name ++ token ++ after ∧
        (before ++ lessThan :: p.1.tag.name).length = p.2) ∧
      ((∀ offset, Bytes.OccursAt token marked offset ↔ offset = p.2) ↔
        ∀ r ∈ records, ¬ Bytes.Straddles token r.name r.token) := by
  intro places records
  have hrecords : records = places.map fun p => p.1.record stamp :=
    records_insertions stamp text mode
  obtain rfl := marked_scan hmarked
  rw [records_scan, List.length_map] at hcount
  refine ⟨hrecords, fun p hp => ⟨exists_marked_eq stamp text hp, ?_⟩⟩
  rw [hrecords, List.forall_mem_map]
  constructor
  · intro honce q hq hstraddles
    obtain ⟨offset, hoccurs, hlt, hle⟩ := exists_occursAt stamp text hq hstraddles
    obtain rfl := (honce offset).1 hoccurs
    by_cases hpq : p = q
    · subst hpq
      omega
    · have horder := lt_or_lt stamp text hp hq hpq
      omega
  · exact occursAt_token_iff stamp text hstamp hcount hp

theorem occurs_once_paragraph :
    let stamp := Stamp.ofSeed 0
    let text := utf8 "<p style=\"a\"><x:0 id=b style=c />"
    let marked := utf8 "<p" ++ stamp.token 1 ++ utf8 "><x:0" ++ stamp.token 2 ++ utf8 " />"
    Bytes.occurs stamp.digits text = false ∧
      (scan .permissive stamp text).marked = .ok marked ∧
      (scan .permissive stamp text).records.length < 0x100000000 ∧
      (∀ offset, Bytes.OccursAt (stamp.token 1) marked offset ↔ offset = 2) ∧
      ∀ offset, Bytes.OccursAt (stamp.token 2) marked offset ↔ offset = 47 := by
  intro stamp text marked
  have hstamp : Bytes.occurs stamp.digits text = false := by decide +kernel
  have hmarked : (scan .permissive stamp text).marked = .ok marked :=
    (marked_of_error? _ rfl).trans (congrArg _ (by decide +kernel))
  have hcount : (scan .permissive stamp text).records.length < 0x100000000 := by decide +kernel
  have hacross : ∀ r ∈ (scan .permissive stamp text).records,
      ∀ r' ∈ (scan .permissive stamp text).records,
        ¬ Bytes.Straddles r.token r'.name r'.token := by
    decide +kernel
  have hplaces : ((Extraction.ofText text).insertions stamp).map (fun p => (p.1.number, p.2)) =
      [(1, 2), (2, 47)] := by
    decide +kernel
  obtain ⟨hrecords, honce⟩ := occurs_once_iff hstamp hmarked hcount
  have hall : ∀ p ∈ [(1, 2), (2, 47)],
      ∀ offset, Bytes.OccursAt (stamp.token p.1) marked offset ↔ offset = p.2 := by
    rw [← hplaces, List.forall_mem_map]
    intro p hp
    refine (honce p hp).2.2 (hacross (p.1.record stamp) ?_)
    rw [hrecords]
    exact List.mem_map_of_mem hp
  rw [List.forall_mem_cons, List.forall_mem_singleton] at hall
  exact ⟨hstamp, hmarked, hcount, hall⟩

/-- A stamp that ends with its first digits, behind which it has those of the first counter. -/
def Stamp.recurring : Stamp where
  digits := utf8 "cafe000000014abc8def01234567cafe"
  length_digits := by decide
  all_digits := by decide

/-- A name that ends like a token begins: the token occurs in it, and rewriting finds it there. -/
theorem occurs_twice :
    let stamp := Stamp.recurring
    let text := utf8 "<cafe000000014abc8def01234567 style=\"a\">"
    ∃ marked r rewritten, stamp.IsVersionFour ∧ Bytes.occurs stamp.digits text = false ∧
      (scan .permissive stamp text).marked = .ok marked ∧
      (scan .permissive stamp text).records = [r] ∧
      Bytes.OccursAt r.token marked 1 ∧ Bytes.OccursAt r.token marked 29 ∧
      rewrite [] marked [r] = .ok rewritten ∧
      rewritten.html = utf8 "< class=\"cafe000000014abc8def01234567_line_1_1\"" ++
        utf8 "4abc8def01234567cafe00000001>" := by
  intro stamp text
  let name := utf8 "cafe000000014abc8def01234567"
  let r : Record := ⟨name, [], [], utf8 "a", [], 1, stamp.token 1⟩
  have hmarked : (scan .permissive stamp text).marked =
      .ok (utf8 "<" ++ name ++ stamp.token 1 ++ utf8 ">") :=
    (marked_of_error? _ rfl).trans (congrArg _ (by decide +kernel))
  have hrecords : (scan .permissive stamp text).records = [r] := by
    rw [records_scan]
    decide +kernel
  refine ⟨_, r, ⟨utf8 "< class=\"cafe000000014abc8def01234567_line_1_1\"" ++
    utf8 "4abc8def01234567cafe00000001>", rulesOf [] [r]⟩, ?_, ?_, hmarked, hrecords, ?_, ?_, ?_,
    rfl⟩
  · exact ⟨by decide, 0x38, by decide, by decide⟩
  · decide +kernel
  · exact ⟨utf8 "<", utf8 "4abc8def01234567cafe00000001>", by decide +kernel, rfl⟩
  · exact ⟨utf8 "<" ++ name, utf8 ">", rfl, by decide +kernel⟩
  · decide +kernel

end StyleHoist
