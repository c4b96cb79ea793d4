import StyleHoist.Markup.Boundary

/-!
What the ends of constructs are.  Each cut is characterised by the part that it gives: a tag's body
closes every quote that it opens (`splitTag?_eq_some_iff`), a comment ends at its first terminator
(`splitComment?_eq_some_iff`), and the content of a raw-text element holds no end tag of its name
(`splitRawText?_eq_some_iff`).
-/

set_option autoImplicit false
set_option relaxedAutoImplicit false

namespace StyleHoist.Boundary

open Ascii

/-! ### Tags -/

/-- The bytes between the brackets of a tag: single bytes that are no quote and no `>`, and quoted
texts, in which anything but their quote may stand. -/
inductive Balanced : Bytes → Prop where
  | nil : Balanced []
  | plain {b : UInt8} {s : Bytes} :
      isQuote b = false → b ≠ greaterThan → Balanced s → Balanced (b :: s)
  | quoted {quote : UInt8} {text s : Bytes} :
      isQuote quote = true → quote ∉ text → Balanced s → Balanced (quote :: text ++ quote :: s)

/-- The quote that is open behind some bytes, unless a `>` outside quotes comes among them. -/
def quoteBehind? : Option UInt8 → Bytes → Option (Option UInt8)
  | quote, [] => some quote
  | quote, b :: s =>
    if quote = none ∧ b = greaterThan then none else quoteBehind? (quoteAfter quote b) s

theorem quoteBehind?_append (quote : Option UInt8) (s t : Bytes) :
    quoteBehind? quote (s ++ t) =
      (quoteBehind? quote s).bind fun quote => quoteBehind? quote t := by
  induction s generalizing quote with
  | nil => rfl
  | cons b s ih =>
    simp only [List.cons_append, quoteBehind?]
    split
    · rfl
    · exact ih _

private theorem quoteBehind?_of_splitTag? {quote : Option UInt8} {s body rest : Bytes}
    (h : splitTag? quote s = some (body, rest)) : quoteBehind? quote body = some none := by
  induction s generalizing quote body with
  | nil => simp [splitTag?] at h
  | cons b s ih =>
    simp only [splitTag?] at h
    split at h
    next hend =>
      cases h
      simp [quoteBehind?, hend.1]
    next hinside =>
      obtain ⟨⟨u, v⟩, hu, heq⟩ := Option.map_eq_some_iff.1 h
      cases heq
      rw [quoteBehind?, if_neg hinside]
      exact ih hu

private theorem splitTag?_of_quoteBehind? {quote : Option UInt8} {body rest : Bytes}
    (h : quoteBehind? quote body = some none) :
    splitTag? quote (body ++ greaterThan :: rest) = some (body, rest) := by
  induction body generalizing quote with
  | nil =>
    cases h
    simp [splitTag?]
  | cons b body ih =>
    simp only [quoteBehind?] at h
    split at h
    · cases h
    next hinside =>
      rw [List.cons_append, splitTag?, if_neg hinside, ih h]
      rfl

theorem splitTag?_eq_some_iff {quote : Option UInt8} {s body rest : Bytes} :
    splitTag? quote s = some (body, rest) ↔
      s = body ++ greaterThan :: rest ∧ quoteBehind? quote body = some none := by
  constructor
  · intro h
    exact ⟨(written_of_splitTag? h).symm, quoteBehind?_of_splitTag? h⟩
  · rintro ⟨rfl, h⟩
    exact splitTag?_of_quoteBehind? h

theorem splitTag?_eq_none_iff {quote : Option UInt8} {s : Bytes} :
    splitTag? quote s = none ↔ ∃ last, quoteBehind? quote s = some last := by
  induction s generalizing quote with
  | nil => simp [splitTag?, quoteBehind?]
  | cons b s ih =>
    simp only [splitTag?, quoteBehind?]
    split
    · simp
    · simpa using ih

theorem quoteBehind?_some {quote : UInt8} {text s : Bytes} (h : quote ∉ text) :
    quoteBehind? (some quote) (text ++ s) = quoteBehind? (some quote) s := by
  induction text with
  | nil => rfl
  | cons b text ih =>
    rw [List.mem_cons, not_or] at h
    have hb : b ≠ quote := fun hb => h.1 hb.symm
    simp only [List.cons_append, quoteBehind?, reduceCtorEq, false_and, if_false, quoteAfter,
      if_neg hb]
    exact ih h.2

theorem quoteBehind?_quoted {quote : UInt8} {text s : Bytes} (hquote : isQuote quote = true)
    (htext : quote ∉ text) :
    quoteBehind? none (quote :: text ++ quote :: s) = quoteBehind? none s := by
  have hopen : quote ≠ greaterThan := by
    rintro rfl
    exact absurd hquote (by decide)
  have hbehind : quoteBehind? (some quote) (quote :: s) = quoteBehind? none s := by
    simp [quoteBehind?, quoteAfter]
  rw [List.cons_append, quoteBehind?, if_neg (fun h => hopen h.2), quoteAfter, if_pos hquote,
    quoteBehind?_some htext, hbehind]

theorem quoteBehind?_plain {b : UInt8} {s : Bytes} (hquote : isQuote b = false)
    (hend : b ≠ greaterThan) : quoteBehind? none (b :: s) = quoteBehind? none s := by
  rw [quoteBehind?, if_neg (fun h => hend h.2)]
  simp [quoteAfter, hquote]

private theorem exists_of_quoteBehind?_some {quote : UInt8} {s : Bytes}
    (h : quoteBehind? (some quote) s = some none) :
    ∃ text rest, s = text ++ quote :: rest ∧ quote ∉ text ∧ quoteBehind? none rest = some none := by
  induction s with
  | nil => cases h
  | cons b s ih =>
    simp only [quoteBehind?, reduceCtorEq, false_and, if_false, quoteAfter] at h
    by_cases hb : b = quote
    · rw [if_pos hb] at h
      exact ⟨[], s, by rw [hb, List.nil_append], List.not_mem_nil, h⟩
    · rw [if_neg hb] at h
      obtain ⟨text, rest, rfl, htext, hrest⟩ := ih h
      refine ⟨b :: text, rest, rfl, ?_, hrest⟩
      rw [List.mem_cons, not_or]
      exact ⟨fun heq => hb heq.symm, htext⟩

private theorem balanced_of_quoteBehind? {n : Nat} {s : Bytes} (hn : s.length ≤ n)
    (h : quoteBehind? none s = some none) : Balanced s := by
  induction n generalizing s with
  | zero =>
    obtain rfl := List.length_eq_zero_iff.1 (Nat.le_zero.1 hn)
    exact .nil
  | succ n ih =>
    cases s with
    | nil => exact .nil
    | cons b s =>
      have hend : b ≠ greaterThan := by
        rintro rfl
        simp [quoteBehind?] at h
      rw [List.length_cons] at hn
      by_cases hquote : isQuote b
      · rw [quoteBehind?, if_neg (fun h => hend h.2), quoteAfter, if_pos hquote] at h
        obtain ⟨text, rest, rfl, htext, hrest⟩ := exists_of_quoteBehind?_some h
        rw [List.length_append, List.length_cons] at hn
        exact .quoted hquote htext (ih (by omega) hrest)
      · rw [Bool.not_eq_true] at hquote
        rw [quoteBehind?_plain hquote hend] at h
        exact .plain hquote hend (ih (by omega) h)

/-- The quote automaton accepts exactly the balanced texts. -/
theorem balanced_iff {s : Bytes} : Balanced s ↔ quoteBehind? none s = some none := by
  constructor
  · intro h
    induction h with
    | nil => rfl
    | plain hquote hend _ ih => rw [quoteBehind?_plain hquote hend, ih]
    | quoted hquote htext _ ih => rw [quoteBehind?_quoted hquote htext, ih]
  · intro h
    exact balanced_of_quoteBehind? (Nat.le_refl _) h

theorem Balanced.append_iff {s t : Bytes} (h : Balanced s) : Balanced (s ++ t) ↔ Balanced t := by
  rw [balanced_iff, balanced_iff, quoteBehind?_append, balanced_iff.1 h]
  rfl

theorem balanced_plain {s : Bytes} (h : ∀ b ∈ s, isQuote b = false ∧ b ≠ greaterThan) :
    Balanced s := by
  induction s with
  | nil => exact .nil
  | cons b s ih =>
    rw [List.forall_mem_cons] at h
    exact .plain h.1.1 h.1.2 (ih h.2)

theorem Balanced.of_plain {s t : Bytes} (hplain : ∀ b ∈ s, isQuote b = false)
    (h : Balanced (s ++ t)) : Balanced s ∧ Balanced t := by
  induction s with
  | nil => exact ⟨.nil, h⟩
  | cons b s ih =>
    rw [List.forall_mem_cons] at hplain
    have hend : b ≠ greaterThan := by
      rintro rfl
      rw [balanced_iff] at h
      simp [quoteBehind?] at h
    have htail : Balanced (s ++ t) := by
      rw [balanced_iff, List.cons_append, quoteBehind?_plain hplain.1 hend] at h
      exact balanced_iff.2 h
    obtain ⟨hs, ht⟩ := ih hplain.2 htail
    exact ⟨.plain hplain.1 hend hs, ht⟩

theorem balanced_quoted_iff {quote : UInt8} {text s : Bytes} (hquote : isQuote quote = true)
    (htext : quote ∉ text) : Balanced (quote :: text ++ quote :: s) ↔ Balanced s := by
  rw [balanced_iff, balanced_iff, quoteBehind?_quoted hquote htext]

theorem not_balanced_unclosed {quote : UInt8} {text : Bytes} (hquote : isQuote quote = true)
    (htext : quote ∉ text) : ¬ Balanced (quote :: text) := by
  rw [balanced_iff, quoteBehind?]
  have hopen : quote ≠ greaterThan := by
    rintro rfl
    exact absurd hquote (by decide)
  have hbehind := @quoteBehind?_some quote text [] htext
  rw [List.append_nil] at hbehind
  simp [hopen, quoteAfter, hquote, hbehind, quoteBehind?]

private theorem isQuote_of_quoteBehind? {start : Option UInt8} {s : Bytes} {quote : UInt8}
    (h : quoteBehind? start s = some (some quote)) (hstart : ∀ q ∈ start, isQuote q = true) :
    isQuote quote = true := by
  induction s generalizing start with
  | nil =>
    cases h
    exact hstart quote rfl
  | cons b s ih =>
    simp only [quoteBehind?] at h
    split at h
    · cases h
    next hinside =>
      apply ih h
      intro q hq
      cases start with
      | none =>
        simp only [quoteAfter] at hq
        split at hq
        next hquote =>
          cases hq
          exact hquote
        next => cases hq
      | some outer =>
        simp only [quoteAfter] at hq
        split at hq
        · cases hq
        · cases hq
          exact hstart q rfl

theorem exists_quote {s : Bytes} {last : Option UInt8}
    (h : quoteBehind? none (s ++ [greaterThan]) = some last) :
    ∃ quote, last = some quote ∧ isQuote quote = true := by
  rw [quoteBehind?_append] at h
  obtain ⟨before, hbefore, hend⟩ := Option.bind_eq_some_iff.1 h
  cases before with
  | none => cases hend
  | some quote =>
    have hquote := isQuote_of_quoteBehind? hbefore fun q hq => by cases hq
    have hother : greaterThan ≠ quote := by
      rintro rfl
      cases hquote
    simp only [quoteBehind?, reduceCtorEq, false_and, if_false, quoteAfter, if_neg hother] at hend
    cases hend
    exact ⟨quote, rfl, hquote⟩

/-! ### Comments -/

theorem prefix_append_cons_iff {p s t : Bytes} {b : UInt8} (h : b ∉ p) :
    p <+: s ++ b :: t ↔ p <+: s := by
  constructor
  · intro hp
    induction p generalizing s with
    | nil => exact List.nil_prefix
    | cons c p ih =>
      rw [List.mem_cons, not_or] at h
      cases s with
      | nil => exact absurd (List.cons_prefix_cons.1 hp).1.symm h.1
      | cons d s =>
        obtain ⟨hcd, htail⟩ := List.cons_prefix_cons.1 hp
        exact List.cons_prefix_cons.2 ⟨hcd, ih h.2 htail⟩
  · intro hp
    exact hp.trans (List.prefix_append _ _)

/-- The bytes of a comment behind its opening, through its end. -/
inductive ClosesComment : Bytes → Prop where
  | abrupt : ClosesComment (utf8 ">")
  | abruptHyphen : ClosesComment (utf8 "->")
  | terminated {text : Bytes} :
      ¬ utf8 ">" <+: text ++ utf8 "-->" → ¬ utf8 "->" <+: text ++ utf8 "-->" →
      (∀ u v, text ++ utf8 "-->" = u ++ utf8 "-->" ++ v → v = []) →
      ClosesComment (text ++ utf8 "-->")

private theorem prefix_append_iff {p s t : Bytes} (h : p.length ≤ s.length) :
    p <+: s ++ t ↔ p <+: s := by
  constructor
  · intro hp
    exact List.prefix_of_prefix_length_le hp (List.prefix_append s t) h
  · intro hp
    exact hp.trans (List.prefix_append s t)

private theorem first_terminator_iff {text rest : Bytes} :
    (∀ u v, text ++ utf8 "-->" ++ rest = u ++ utf8 "-->" ++ v → text.length ≤ u.length) ↔
      ∀ u v, text ++ utf8 "-->" = u ++ utf8 "-->" ++ v → v = [] := by
  have hthree : (utf8 "-->").length = 3 := rfl
  constructor
  · intro h u v huv
    have hle := h u (v ++ rest) (by rw [huv, List.append_assoc])
    have hlength := congrArg List.length huv
    simp only [List.length_append] at hlength
    exact List.length_eq_zero_iff.1 (by omega)
  · intro h u v huv
    apply Nat.le_of_not_lt
    intro hlt
    have hinside : u ++ utf8 "-->" <+: text ++ utf8 "-->" := by
      refine List.prefix_of_prefix_length_le ⟨v, huv.symm⟩ (List.prefix_append _ _) ?_
      simp only [List.length_append]
      omega
    obtain ⟨w, hw⟩ := hinside
    have hnil := h u w hw.symm
    have hlength := congrArg List.length hw
    simp only [hnil, List.length_append, List.length_nil] at hlength
    omega

private theorem length_le_terminated (text : Bytes) {p : Bytes} (h : p.length ≤ 3) :
    p.length ≤ (text ++ utf8 "-->").length := by
  rw [List.length_append, show (utf8 "-->").length = 3 from rfl]
  omega

theorem splitComment?_eq_some_iff {s body rest : Bytes} :
    splitComment? s = some (body, rest) ↔ s = body ++ rest ∧ ClosesComment body := by
  constructor
  · intro h
    refine ⟨(written_of_splitComment? h).symm, ?_⟩
    simp only [splitComment?] at h
    split at h
    next hp =>
      obtain ⟨t, rfl⟩ := List.isPrefixOf_iff_prefix.1 hp
      cases h
      exact .abrupt
    split at h
    next hp =>
      obtain ⟨t, rfl⟩ := List.isPrefixOf_iff_prefix.1 hp
      cases h
      exact .abruptHyphen
    next hfirst hsecond =>
      obtain ⟨⟨text, after⟩, hsplit, heq⟩ := Option.map_eq_some_iff.1 h
      cases heq
      obtain ⟨hwhole, hterminator⟩ := Bytes.splitFirst?_eq_some_iff.1 hsplit
      subst hwhole
      rw [List.isPrefixOf_iff_prefix, prefix_append_iff (length_le_terminated text (by decide))]
        at hfirst hsecond
      exact .terminated hfirst hsecond (first_terminator_iff.1 hterminator)
  · rintro ⟨rfl, h⟩
    cases h with
    | abrupt => rfl
    | abruptHyphen => rfl
    | @terminated text hfirst hsecond hterminator =>
      have hsplit : Bytes.splitFirst? (utf8 "-->") (text ++ utf8 "-->" ++ rest) =
          some (text, rest) :=
        Bytes.splitFirst?_eq_some_iff.2 ⟨rfl, first_terminator_iff.2 hterminator⟩
      rw [← prefix_append_iff (length_le_terminated text (by decide)) (t := rest),
        ← List.isPrefixOf_iff_prefix] at hfirst hsecond
      rw [splitComment?, if_neg hfirst, if_neg hsecond, hsplit]
      rfl

theorem splitComment?_eq_none_iff {s : Bytes} :
    splitComment? s = none ↔
      ¬ utf8 ">" <+: s ∧ ¬ utf8 "->" <+: s ∧ ¬ utf8 "-->" <:+: s := by
  simp only [splitComment?, ← List.isPrefixOf_iff_prefix]
  split
  next h => simp [h]
  split
  next h => simp [h]
  next hfirst hsecond => simp [hfirst, hsecond, Bytes.splitFirst?_eq_none_iff]

private theorem append_cons_eq {p s t u v : Bytes} {b : UInt8} (hb : b ∉ p) (hp : p ≠ [])
    (h : s ++ b :: t = u ++ p ++ v) : p <:+: s ∨ ∃ w, t = w ++ p ++ v := by
  rw [List.append_assoc] at h
  rcases List.append_eq_append_iff.1 h with ⟨w, rfl, hw⟩ | ⟨w, rfl, hw⟩
  · rcases List.cons_eq_append_iff.1 hw with ⟨rfl, hv⟩ | ⟨w, rfl, htail⟩
    · cases p with
      | nil => exact absurd rfl hp
      | cons c p =>
        obtain ⟨rfl, -⟩ := List.cons.inj hv
        exact absurd List.mem_cons_self hb
    · exact .inr ⟨w, by rw [htail, List.append_assoc]⟩
  · have hinside : p <+: w := (prefix_append_cons_iff hb).1 ⟨v, hw⟩
    exact .inl (hinside.isInfix.trans (List.suffix_append u w).isInfix)

private theorem eq_nil_of_terminator {text u v : Bytes} (htext : hyphen ∉ text)
    (h : text ++ utf8 "-->" = u ++ utf8 "-->" ++ v) : v = [] := by
  have hle : text.length ≤ u.length := by
    apply Nat.le_of_not_lt
    intro hlt
    rw [List.append_assoc] at h
    obtain ⟨b, w, rfl, hw⟩ := Bytes.exists_cons_of_append_eq h (by omega)
    obtain ⟨rfl, -⟩ := List.cons.inj hw
    exact htext (List.mem_append_right _ List.mem_cons_self)
  have hlength := congrArg List.length h
  simp only [List.length_append] at hlength
  exact List.length_eq_zero_iff.1 (by omega)

theorem closesComment_append {body text : Bytes} (habrupt : ¬ utf8 ">" <+: body)
    (hhyphen : ¬ utf8 "->" <+: body) (hend : ¬ utf8 "-->" <:+: body) (htext : hyphen ∉ text) :
    ClosesComment (body ++ lessThan :: text ++ utf8 "-->") := by
  refine .terminated ?_ ?_ ?_
  · rw [List.append_assoc, List.cons_append]
    intro h
    exact habrupt ((prefix_append_cons_iff (by decide)).1 h)
  · rw [List.append_assoc, List.cons_append]
    intro h
    exact hhyphen ((prefix_append_cons_iff (by decide)).1 h)
  · intro u v huv
    rw [List.append_assoc, List.cons_append] at huv
    rcases append_cons_eq (by decide) (by decide) huv with hinside | ⟨w, hw⟩
    · exact absurd hinside hend
    · exact eq_nil_of_terminator htext hw

theorem closesComment_terminated {body : Bytes} (habrupt : ¬ utf8 ">" <+: body)
    (hhyphen : ¬ utf8 "->" <+: body) (hend : ¬ utf8 "-->" <:+: body) :
    ClosesComment (body ++ utf8 "-->") := by
  have hterminator : utf8 "-->" = [hyphen, hyphen, greaterThan] := rfl
  refine .terminated ?_ ?_ ?_
  · rw [hterminator]
    exact fun h => habrupt ((prefix_append_cons_iff (by decide)).1 h)
  · rcases body with _ | ⟨c, _ | ⟨d, body⟩⟩
    · decide
    · intro h
      obtain ⟨-, htail⟩ := List.cons_prefix_cons.1 h
      exact absurd htail (by decide)
    · intro h
      obtain ⟨rfl, htail⟩ := List.cons_prefix_cons.1 h
      obtain ⟨rfl, -⟩ := List.cons_prefix_cons.1 htail
      exact hhyphen (List.prefix_append _ body)
  · intro u v huv
    rcases List.append_eq_append_iff.1 huv with ⟨w, hw, hrest⟩ | ⟨w, rfl, -⟩
    · -- An earlier terminator ends in `>`, but all that is behind the text up to the last byte is
      -- hyphens.
      have hlast : (body ++ w).getLast? = some greaterThan := by
        rw [← hw, List.getLast?_append]
        rfl
      rcases w with _ | ⟨a, _ | ⟨b, _ | ⟨c, w⟩⟩⟩
      · rw [List.append_nil] at hw
        exact absurd ⟨u, [], by rw [hw, List.append_nil]⟩ hend
      · obtain ⟨rfl, -⟩ := List.cons.inj hrest
        rw [List.getLast?_append] at hlast
        cases hlast
      · obtain ⟨rfl, htail⟩ := List.cons.inj hrest
        obtain ⟨rfl, -⟩ := List.cons.inj htail
        rw [List.getLast?_append] at hlast
        cases hlast
      · obtain ⟨-, hrest⟩ := List.cons.inj hrest
        obtain ⟨-, hrest⟩ := List.cons.inj hrest
        obtain ⟨-, hrest⟩ := List.cons.inj hrest
        exact (List.append_eq_nil_iff.1 hrest.symm).2
    · exact absurd ⟨u, w, rfl⟩ hend

/-! ### Raw text -/

/-- An end tag is recognised by its name, which goes on as far as name bytes do. -/
theorem isEndTagOf_iff {name s : Bytes} :
    isEndTagOf name s = true ↔
      ∃ run rest, s = utf8 "</" ++ (run ++ rest) ∧ (∀ b ∈ run, isNameByte b = true) ∧
        (∀ b ∈ rest.head?, isNameByte b = false) ∧ sameIgnoringCase run name = true := by
  have htwo : (utf8 "</").length = 2 := rfl
  rw [isEndTagOf, Bool.and_eq_true, List.isPrefixOf_iff_prefix]
  constructor
  · rintro ⟨⟨t, rfl⟩, hname⟩
    rw [← htwo, List.drop_left] at hname
    refine ⟨t.takeWhile isNameByte, t.dropWhile isNameByte, ?_, ?_, ?_, hname⟩
    · rw [List.takeWhile_append_dropWhile]
    · exact List.all_eq_true.1 List.all_takeWhile
    · intro b hb
      have := List.head?_dropWhile_not isNameByte t
      rw [Option.mem_def.1 hb] at this
      simpa using this
  · rintro ⟨run, rest, rfl, hrun, hrest, hname⟩
    refine ⟨List.prefix_append _ _, ?_⟩
    have hstop : rest.takeWhile isNameByte = [] := by
      cases rest with
      | nil => rfl
      | cons b rest => simp [hrest b rfl]
    rwa [← htwo, List.drop_left, List.takeWhile_append_of_pos hrun, hstop, List.append_nil]

theorem splitRawText?_eq_none_iff {name s : Bytes} :
    splitRawText? name s = none ↔ ∀ u v, s = u ++ v → isEndTagOf name v = false := by
  induction s with
  | nil =>
    simp only [splitRawText?, true_iff]
    intro u v huv
    obtain ⟨-, rfl⟩ := List.append_eq_nil_iff.1 huv.symm
    rfl
  | cons b s ih =>
    by_cases hend : isEndTagOf name (b :: s)
    · simp only [splitRawText?, if_pos hend, reduceCtorEq, false_iff]
      intro h
      exact absurd (h [] (b :: s) rfl) (by simp [hend])
    · rw [splitRawText?, if_neg hend, Option.map_eq_none_iff, ih]
      rw [Bool.not_eq_true] at hend
      constructor
      · intro h u v huv
        rcases List.cons_eq_append_iff.1 huv with ⟨-, rfl⟩ | ⟨u, -, huv⟩
        · exact hend
        · exact h u v huv
      · intro h u v huv
        exact h (b :: u) v (by rw [huv, List.cons_append])

theorem splitRawText?_eq_some_iff {name s content rest : Bytes} :
    splitRawText? name s = some (content, rest) ↔
      s = content ++ rest ∧ isEndTagOf name rest = true ∧
        ∀ u v, s = u ++ v → isEndTagOf name v = true → content.length ≤ u.length := by
  induction s generalizing content with
  | nil =>
    simp only [splitRawText?, reduceCtorEq, false_iff]
    rintro ⟨hnil, hend, -⟩
    obtain ⟨-, rfl⟩ := List.append_eq_nil_iff.1 hnil.symm
    cases hend
  | cons b s ih =>
    by_cases hend : isEndTagOf name (b :: s)
    · rw [splitRawText?, if_pos hend]
      constructor
      · intro h
        cases h
        exact ⟨rfl, hend, fun u v _ _ => Nat.zero_le _⟩
      · rintro ⟨hwhole, -, hfirst⟩
        have hnil := List.length_eq_zero_iff.1 (Nat.le_zero.1 (hfirst [] (b :: s) rfl hend))
        rw [hwhole, hnil, List.nil_append]
    · rw [splitRawText?, if_neg hend, Option.map_eq_some_iff]
      constructor
      · rintro ⟨⟨text, after⟩, hsplit, heq⟩
        cases heq
        obtain ⟨rfl, hrest, hfirst⟩ := ih.1 hsplit
        refine ⟨rfl, hrest, ?_⟩
        intro u v huv hv
        rcases List.cons_eq_append_iff.1 huv with ⟨-, rfl⟩ | ⟨u, rfl, htail⟩
        · exact absurd hv hend
        · exact Nat.succ_le_succ (hfirst u v htail hv)
      · rintro ⟨hwhole, hrest, hfirst⟩
        rcases List.cons_eq_append_iff.1 hwhole with ⟨-, rfl⟩ | ⟨text, rfl, hs⟩
        · exact absurd hrest hend
        · refine ⟨(text, rest), ih.2 ⟨hs, hrest, ?_⟩, rfl⟩
          intro u v huv hv
          exact Nat.le_of_succ_le_succ (hfirst (b :: u) v (by rw [huv, List.cons_append]) hv)

/-- The end tag of a raw-text element is looked for at one `</` after another. -/
theorem splitRawText?_eq_splitFirst? (name s : Bytes) :
    splitRawText? name s =
      match Bytes.splitFirst? (utf8 "</") s with
      | none => none
      | some (before, after) =>
        if sameIgnoringCase (after.takeWhile isNameByte) name then some (before, utf8 "</" ++ after)
        else (splitRawText? name after).map fun (content, rest) =>
          (before ++ utf8 "</" ++ content, rest) := by
  induction s with
  | nil => rfl
  | cons b s ih =>
    rw [splitRawText?, Bytes.splitFirst?]
    by_cases hopens : (utf8 "</").isPrefixOf (b :: s)
    · obtain ⟨after, hafter⟩ := List.isPrefixOf_iff_prefix.1 hopens
      obtain ⟨rfl, rfl⟩ : lessThan = b ∧ slash :: after = s := List.cons.inj hafter
      have hslash : isEndTagOf name (slash :: after) = false := rfl
      have hhere : isEndTagOf name (lessThan :: slash :: after) =
          sameIgnoringCase (after.takeWhile isNameByte) name := by
        rw [isEndTagOf, hopens, Bool.true_and]
        rfl
      rw [if_pos hopens, hhere, splitRawText?, hslash]
      simp [show utf8 "</" = [lessThan, slash] from rfl, Option.map_map, Function.comp_def]
    · have hhere : isEndTagOf name (b :: s) = false := by
        rw [isEndTagOf, Bool.eq_false_iff.2 hopens, Bool.false_and]
      rw [if_neg hopens, hhere, if_neg Bool.false_ne_true, ih]
      cases Bytes.splitFirst? (utf8 "</") s with
      | none => rfl
      | some parts =>
        obtain ⟨before, after⟩ := parts
        simp only [Option.map_some]
        split
        · rfl
        · simp [Option.map_map, Function.comp_def]
end StyleHoist.Boundary
