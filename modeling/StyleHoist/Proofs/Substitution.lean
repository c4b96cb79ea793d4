import StyleHoist.Extraction.Scan
import StyleHoist.Stylesheet.Rewrite

/-!
Substitution finds each token where it was put.  A token is looked for by its bytes, so it could be
found too early: inside the text, where its stamp would have to occur, or across the border between
the name of a tag and the token behind it.  Main statement: where neither happens, the tokens of an
extraction give way to other bytes in place (`substitute_marked`).
-/

set_option autoImplicit false
set_option relaxedAutoImplicit false

namespace StyleHoist

open Ascii

namespace Bytes

/-- Whether a pattern occurs across the border between two texts. -/
def Straddles (pattern left right : Bytes) : Prop :=
  ∃ a b, a ≠ [] ∧ b ≠ [] ∧ pattern = a ++ b ∧ a <:+ left ∧ b <+: right

instance (pattern left right : Bytes) : Decidable (Straddles pattern left right) :=
  decidable_of_iff
    (∃ n < pattern.length, 0 < n ∧ pattern.take n <:+ left ∧ pattern.drop n <+: right) <| by
    constructor
    · rintro ⟨n, hlt, hpos, hleft, hright⟩
      refine ⟨_, _, ?_, ?_, (List.take_append_drop n pattern).symm, hleft, hright⟩
      · rw [← List.length_pos_iff, List.length_take]
        omega
      · rw [← List.length_pos_iff, List.length_drop]
        omega
    · rintro ⟨u, v, hu, hv, rfl, hleft, hright⟩
      rw [← List.length_pos_iff] at hu hv
      refine ⟨u.length, ?_, hu, ?_, ?_⟩
      · rw [List.length_append]
        omega
      · rwa [List.take_left]
      · rwa [List.drop_left]

theorem suffix_of_append_cons {u s left : Bytes} {b : UInt8} (hb : b ∉ u)
    (h : u <:+ s ++ b :: left) : u <:+ left := by
  rcases List.suffix_or_suffix_of_suffix h (List.suffix_append s (b :: left)) with h | h
  · rcases List.suffix_cons_iff.1 h with rfl | h
    · exact absurd List.mem_cons_self hb
    · exact h
  · exact absurd (h.subset List.mem_cons_self) hb

theorem Straddles.of_append_cons {pattern s left right : Bytes} {b : UInt8} (hb : b ∉ pattern)
    (h : Straddles pattern (s ++ b :: left) right) : Straddles pattern left right := by
  obtain ⟨u, v, hu, hv, rfl, hsuffix, hright⟩ := h
  rw [List.mem_append, not_or] at hb
  exact ⟨u, v, hu, hv, rfl, suffix_of_append_cons hb.1 hsuffix, hright⟩

theorem Straddles.of_append {pattern left right rest : Bytes}
    (hlength : pattern.length ≤ right.length) (h : Straddles pattern left (right ++ rest)) :
    Straddles pattern left right := by
  obtain ⟨u, v, hu, hv, rfl, hsuffix, hright⟩ := h
  refine ⟨u, v, hu, hv, rfl, hsuffix, ?_⟩
  apply List.prefix_of_prefix_length_le hright (List.prefix_append _ _)
  rw [List.length_append] at hlength
  omega

theorem infix_or_straddles {pattern left right u v : Bytes}
    (h : left ++ right = u ++ (pattern ++ v)) (hlt : u.length < left.length) :
    pattern <:+: left ∨ Straddles pattern left right := by
  obtain ⟨c, w, rfl, hw⟩ := exists_cons_of_append_eq h hlt
  by_cases hshort : (c :: w).length < pattern.length
  · obtain ⟨b, x, rfl, hx⟩ := exists_cons_of_append_eq hw hshort
    refine .inr ⟨c :: w, b :: x, ?_, ?_, rfl, List.suffix_append _ _, ⟨v, hx.symm⟩⟩
    · exact List.cons_ne_nil _ _
    · exact List.cons_ne_nil _ _
  · have hwhole : pattern <+: c :: w :=
      List.prefix_of_prefix_length_le ⟨v, hw⟩ (List.prefix_append _ _) (by omega)
    exact .inl (hwhole.isInfix.trans (List.suffix_append u (c :: w)).isInfix)

theorem splitFirst?_append {pattern before rest : Bytes} (hinside : ¬ pattern <:+: before)
    (hacross : ¬ Straddles pattern before pattern) :
    splitFirst? pattern (before ++ pattern ++ rest) = some (before, rest) := by
  rw [splitFirst?_eq_some_iff]
  refine ⟨rfl, fun u v huv => Nat.le_of_not_lt fun hlt => ?_⟩
  rw [List.append_assoc, List.append_assoc] at huv
  rcases infix_or_straddles huv hlt with h | h
  · exact hinside h
  · exact hacross (h.of_append (Nat.le_refl _))

end Bytes

namespace Stamp

theorem lessThan_not_mem_token (stamp : Stamp) (number : Nat) :
    lessThan ∉ stamp.token number := by
  intro h
  exact absurd (List.all_eq_true.1 (stamp.all_token number) _ h) (by decide)

theorem digits_prefix_token (stamp : Stamp) (number : Nat) :
    stamp.digits <+: stamp.token number :=
  List.prefix_append _ _

end Stamp

/-- The substitutions that put other bytes in place of the tokens of tags. -/
def substitutionsOf (stamp : Stamp) (replacement : StyledTag → Bytes) (tags : List StyledTag) :
    List Substitution :=
  tags.map fun t => ⟨stamp.token t.number, replacement t⟩

private theorem splitFirst?_token {stamp : Stamp} {number : Nat} {before name rest : Bytes}
    (hinside : ¬ stamp.digits <:+: before ++ lessThan :: name)
    (hacross : ¬ Bytes.Straddles (stamp.token number) name (stamp.token number)) :
    Bytes.splitFirst? (stamp.token number)
        (before ++ lessThan :: name ++ stamp.token number ++ rest) =
      some (before ++ lessThan :: name, rest) := by
  apply Bytes.splitFirst?_append
  · intro h
    exact hinside ((stamp.digits_prefix_token number).isInfix.trans h)
  · intro h
    exact hacross (h.of_append_cons (stamp.lessThan_not_mem_token number))

/-- Behind what is already settled, `before`, substitution makes its way through the pieces. -/
private theorem substitute_pieces {stamp : Stamp} {replacement : StyledTag → Bytes}
    {pieces : List Piece} {before last : Bytes}
    (hstamp : ¬ stamp.digits <:+: before ++ (pieces.flatMap Piece.written ++ last))
    (hacross : ∀ t ∈ pieces.filterMap Piece.styledTag?,
      ¬ Bytes.Straddles (stamp.token t.number) t.tag.name (stamp.token t.number)) :
    substitute (substitutionsOf stamp replacement (pieces.filterMap Piece.styledTag?))
        (before ++ (pieces.flatMap (Piece.fill fun t => stamp.token t.number) ++ last)) =
      .ok (before ++ (pieces.flatMap (Piece.fill replacement) ++ last)) := by
  induction pieces generalizing before with
  | nil => rfl
  | cons piece pieces ih =>
    cases piece with
    | kept bytes =>
      simp only [List.flatMap_cons, Piece.written, Piece.fill, List.append_assoc,
        List.filterMap_cons, Piece.styledTag?] at hstamp hacross ⊢
      rw [← List.append_assoc before] at hstamp ⊢
      rw [ih hstamp hacross, List.append_assoc]
    | styled t =>
      simp only [List.flatMap_cons, Piece.written, Piece.fill, List.append_assoc,
        List.filterMap_cons, Piece.styledTag?, List.forall_mem_cons] at hstamp hacross ⊢
      have hplaced (bytes rest : Bytes) : before ++ (t.tag.withContent bytes ++ rest) =
          before ++ lessThan :: t.tag.name ++ bytes ++
            (t.tag.closing ++ [greaterThan] ++ rest) := by
        simp [StartTag.withContent]
      rw [t.tag.written_eq_withContent, hplaced] at hstamp
      have hname : ¬ stamp.digits <:+: before ++ lessThan :: t.tag.name := by
        intro h
        apply hstamp
        rw [List.append_assoc]
        exact h.trans (List.prefix_append _ _).isInfix
      have hbehind : ¬ stamp.digits <:+:
          t.tag.closing ++ [greaterThan] ++ (pieces.flatMap Piece.written ++ last) :=
        fun h => hstamp (h.trans (List.suffix_append _ _).isInfix)
      rw [StyledTag.fill, StyledTag.fill, hplaced, hplaced, substitutionsOf, List.map_cons,
        substitute, splitFirst?_token hname hacross.1]
      simp only
      rw [← substitutionsOf, ih hbehind hacross.2]
      simp [Except.map]

/-- Where the stamp does not occur in a text and no token is found too early, other bytes take the
places of the tokens. -/
theorem substitute_marked {stamp : Stamp} {text : Bytes} (replacement : StyledTag → Bytes)
    (hstamp : ¬ stamp.digits <:+: text)
    (hacross : ∀ t ∈ (Extraction.ofText text).styledTags,
      ¬ Bytes.Straddles (stamp.token t.number) t.tag.name (stamp.token t.number)) :
    substitute (substitutionsOf stamp replacement (Extraction.ofText text).styledTags)
        ((Extraction.ofText text).marked stamp) =
      .ok ((Extraction.ofText text).fill replacement) := by
  rw [← Extraction.written_ofText text] at hstamp
  exact @substitute_pieces stamp replacement _ [] _ hstamp hacross

/-! ### Rewriting -/

/-- The substitutions that rewriting makes for records. -/
def recordSubstitutions (scope : Bytes) (records : List Record) : List Substitution :=
  (records.zip (rulesOf scope records)).map fun (r, rule) => ⟨r.token, rule.attributes r⟩

theorem rewrite_eq_map {scope marked : Bytes} {records : List Record} :
    rewrite scope marked records =
      (substitute (recordSubstitutions scope records) marked).map fun html =>
        ⟨html, rulesOf scope records⟩ :=
  rfl

theorem map_token_recordSubstitutions (scope : Bytes) (records : List Record) :
    (recordSubstitutions scope records).map Substitution.token = records.map Record.token := by
  have hlength : records.length ≤ (rulesOf scope records).length := by simp [rulesOf]
  calc (recordSubstitutions scope records).map Substitution.token
      = (records.zip (rulesOf scope records)).map fun p => p.1.token := List.map_map
    _ = ((records.zip (rulesOf scope records)).map Prod.fst).map Record.token :=
        List.map_map.symm
    _ = records.map Record.token := by rw [List.map_fst_zip hlength]

end StyleHoist
