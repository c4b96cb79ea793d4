import Mathlib.Data.List.Chain
import StyleHoist.Proofs.Occurrence

/-!
Tokens that stand in a text one behind the other.  Substitution takes each token where it occurs
first behind the one before it.  A token taken earlier leaves no less room for those that follow, so
the search finds all tokens wherever they can be placed at all (`substitute_cases`).  Main
statement: rewriting succeeds exactly when the tokens can be placed in their order, and otherwise
it names the first token up to which they cannot (`placeable_iff_rewrite`).
-/

set_option autoImplicit false
set_option relaxedAutoImplicit false

namespace StyleHoist

namespace Bytes

theorem occursAt_add_iff {pattern text : Bytes} {start offset : Nat}
    (hstart : start ≤ text.length) :
    OccursAt pattern text (start + offset) ↔ OccursAt pattern (text.drop start) offset := by
  constructor
  · rintro ⟨before, after, rfl, hlength⟩
    refine ⟨before.drop start, after, ?_, ?_⟩
    · rw [List.append_assoc, List.append_assoc, List.drop_append_of_le_length (by omega)]
    · rw [List.length_drop]
      omega
  · rintro ⟨before, after, hrest, hlength⟩
    refine ⟨text.take start ++ before, after, ?_, ?_⟩
    · rw [List.append_assoc, List.append_assoc, ← List.append_assoc before, ← hrest,
        List.take_append_drop]
    · rw [List.length_append, List.length_take_of_le hstart, hlength]

theorem OccursAt.le_length {pattern text : Bytes} {offset : Nat}
    (h : OccursAt pattern text offset) : offset + pattern.length ≤ text.length := by
  obtain ⟨before, after, rfl, rfl⟩ := h
  simp only [List.length_append]
  omega

theorem exists_of_splitFirst?_drop {pattern text before after : Bytes} {start : Nat}
    (hstart : start ≤ text.length)
    (h : splitFirst? pattern (text.drop start) = some (before, after)) :
    ∃ offset, start ≤ offset ∧ OccursAt pattern text offset ∧
      (∀ other, start ≤ other → OccursAt pattern text other → offset ≤ other) ∧
      before = Span.bytes text ⟨start, offset⟩ ∧ after = text.drop (offset + pattern.length) := by
  obtain ⟨hwhole, hfirst⟩ := splitFirst?_eq_some_iff.1 h
  have hbefore : text.drop start = before ++ (pattern ++ after) := by
    rw [hwhole, List.append_assoc]
  have hpattern := Span.drop_of_drop hbefore
  refine ⟨start + before.length, Nat.le_add_right _ _, ?_, ?_,
    (Span.bytes_of_drop hbefore).symm, (Span.drop_of_drop hpattern).symm⟩
  · exact (occursAt_add_iff hstart).2 ⟨before, after, hwhole, rfl⟩
  · intro other hother hoccurs
    obtain ⟨gap, rfl⟩ := Nat.exists_eq_add_of_le hother
    obtain ⟨u, v, huv, rfl⟩ := (occursAt_add_iff hstart).1 hoccurs
    exact Nat.add_le_add_left (hfirst u v huv) start

theorem not_occursAt_of_splitFirst?_drop {pattern text : Bytes} {start offset : Nat}
    (hstart : start ≤ text.length) (h : splitFirst? pattern (text.drop start) = none)
    (hoffset : start ≤ offset) : ¬ OccursAt pattern text offset := by
  intro hoccurs
  obtain ⟨gap, rfl⟩ := Nat.exists_eq_add_of_le hoffset
  obtain ⟨u, v, huv, -⟩ := (occursAt_add_iff hstart).1 hoccurs
  exact splitFirst?_eq_none_iff.1 h ⟨u, v, huv.symm⟩

end Bytes

/-! ### Placements -/

/-- Tokens with offsets at which they stand in a text, each behind the end of the one before. -/
structure Placement (text : Bytes) (places : List (Bytes × Nat)) : Prop where
  occurs : ∀ p ∈ places, Bytes.OccursAt p.1 text p.2
  apart : places.IsChain fun p q => p.2 + p.1.length ≤ q.2

/-- Whether tokens can be placed in a text in their order. -/
def Placeable (text : Bytes) (tokens : List Bytes) : Prop :=
  ∃ places, places.map Prod.fst = tokens ∧ Placement text places

/-- A placement from an offset on. -/
def PlacedFrom (text : Bytes) (start : Nat) (places : List (Bytes × Nat)) : Prop :=
  Placement text places ∧ ∀ p ∈ places.head?, start ≤ p.2

def PlaceableFrom (text : Bytes) (start : Nat) (tokens : List Bytes) : Prop :=
  ∃ places, places.map Prod.fst = tokens ∧ PlacedFrom text start places

/-- The edits that put the replacements of substitutions where their tokens are placed. -/
def editsAt (places : List (Bytes × Nat)) (substitutions : List Substitution) : List Edit :=
  (places.zip substitutions).map fun (p, s) => ⟨⟨p.2, p.2 + p.1.length⟩, s.replacement⟩

section Placement

variable {text token : Bytes} {start offset : Nat} {tokens : List Bytes}
  {places : List (Bytes × Nat)}

theorem placedFrom_nil : PlacedFrom text start [] := by
  refine ⟨⟨?_, .nil⟩, ?_⟩ <;> simp

theorem placedFrom_cons_iff :
    PlacedFrom text start ((token, offset) :: places) ↔
      start ≤ offset ∧ Bytes.OccursAt token text offset ∧
        PlacedFrom text (offset + token.length) places := by
  constructor
  · rintro ⟨⟨hoccurs, hapart⟩, hstart⟩
    obtain ⟨hhead, htail⟩ := List.isChain_cons.1 hapart
    exact ⟨hstart _ rfl, hoccurs _ List.mem_cons_self,
      ⟨fun p hp => hoccurs p (List.mem_cons_of_mem _ hp), htail⟩, hhead⟩
  · rintro ⟨hstart, hoccurs, ⟨htail, hapart⟩, hhead⟩
    refine ⟨⟨List.forall_mem_cons.2 ⟨hoccurs, htail⟩, List.isChain_cons.2 ⟨hhead, hapart⟩⟩, ?_⟩
    rintro p ⟨⟩
    exact hstart

theorem PlacedFrom.ordered (hstart : start ≤ text.length) (h : PlacedFrom text start places)
    (substitutions : List Substitution) :
    Edit.Ordered text.length start (editsAt places substitutions) := by
  induction places generalizing start substitutions with
  | nil => exact hstart
  | cons p places ih =>
    obtain ⟨hoffset, hoccurs, hrest⟩ := placedFrom_cons_iff.1 h
    cases substitutions with
    | nil => exact hstart
    | cons s substitutions =>
      exact ⟨hoffset, Nat.le_add_right _ _, ih hoccurs.le_length hrest substitutions⟩

theorem placeableFrom_cons_iff :
    PlaceableFrom text start (token :: tokens) ↔
      ∃ offset, start ≤ offset ∧ Bytes.OccursAt token text offset ∧
        PlaceableFrom text (offset + token.length) tokens := by
  constructor
  · rintro ⟨_ | ⟨⟨first, offset⟩, places⟩, htokens, hplaced⟩
    · cases htokens
    · obtain ⟨rfl, rfl⟩ := List.cons.inj htokens
      obtain ⟨hstart, hoccurs, hrest⟩ := placedFrom_cons_iff.1 hplaced
      exact ⟨offset, hstart, hoccurs, places, rfl, hrest⟩
  · rintro ⟨offset, hstart, hoccurs, places, rfl, hrest⟩
    exact ⟨(token, offset) :: places, rfl, placedFrom_cons_iff.2 ⟨hstart, hoccurs, hrest⟩⟩

theorem PlaceableFrom.mono {earlier : Nat} (hle : earlier ≤ start)
    (h : PlaceableFrom text start tokens) : PlaceableFrom text earlier tokens := by
  obtain ⟨places, htokens, hplacement, hhead⟩ := h
  exact ⟨places, htokens, hplacement, fun p hp => Nat.le_trans hle (hhead p hp)⟩

theorem PlaceableFrom.shorten {initial : List Bytes} (h : PlaceableFrom text start tokens)
    (hinitial : initial <+: tokens) : PlaceableFrom text start initial := by
  obtain ⟨rest, rfl⟩ := hinitial
  obtain ⟨places, htokens, ⟨hoccurs, hapart⟩, hhead⟩ := h
  obtain ⟨front, back, rfl, hfront, -⟩ := List.map_eq_append_iff.1 htokens
  refine ⟨front, hfront, ⟨fun p hp => hoccurs p (List.mem_append_left _ hp),
    hapart.left_of_append⟩, fun p hp => hhead p ?_⟩
  rw [List.head?_append, hp]
  rfl

theorem placeableFrom_zero_iff : PlaceableFrom text 0 tokens ↔ Placeable text tokens := by
  simp [PlaceableFrom, PlacedFrom, Placeable]

end Placement

/-! ### The search -/

section Search

variable {text : Bytes} {start : Nat}

/-- Substitution replaces tokens where they are placed, or fails at the first token up to which they
cannot be placed. -/
theorem substitute_cases (hstart : start ≤ text.length) (substitutions : List Substitution) :
    let tokens := substitutions.map Substitution.token
    (∃ places, places.map Prod.fst = tokens ∧ PlacedFrom text start places ∧
      substitute substitutions (text.drop start) =
        .ok (Edit.splice text start (editsAt places substitutions))) ∨
    ∃ k token, tokens[k]? = some token ∧
      substitute substitutions (text.drop start) = .error (.missingToken token) ∧
      PlaceableFrom text start (tokens.take k) ∧
      ¬ PlaceableFrom text start (tokens.take (k + 1)) := by
  induction substitutions generalizing start with
  | nil => exact .inl ⟨[], rfl, placedFrom_nil, rfl⟩
  | cons s substitutions ih =>
    rw [substitute]
    cases hsplit : Bytes.splitFirst? s.token (text.drop start) with
    | none =>
      refine .inr ⟨0, s.token, rfl, rfl, ⟨[], rfl, placedFrom_nil⟩, fun hplaceable => ?_⟩
      obtain ⟨offset, hoffset, hoccurs, -⟩ := placeableFrom_cons_iff.1 hplaceable
      exact Bytes.not_occursAt_of_splitFirst?_drop hstart hsplit hoffset hoccurs
    | some parts =>
      obtain ⟨before, after⟩ := parts
      obtain ⟨offset, hoffset, hoccurs, hfirst, rfl, rfl⟩ :=
        Bytes.exists_of_splitFirst?_drop hstart hsplit
      simp only
      rcases ih hoccurs.le_length with
        ⟨places, htokens, hplaced, hok⟩ | ⟨k, t, ht, herror, hup, hnot⟩
      · refine .inl ⟨(s.token, offset) :: places, congrArg (s.token :: ·) htokens,
          placedFrom_cons_iff.2 ⟨hoffset, hoccurs, hplaced⟩, ?_⟩
        rw [hok]
        rfl
      · refine .inr ⟨k + 1, t, ht, ?_, placeableFrom_cons_iff.2 ⟨offset, hoffset, hoccurs, hup⟩, ?_⟩
        · rw [herror]
          rfl
        · intro hplaceable
          obtain ⟨other, hother, hoccurs', hrest⟩ := placeableFrom_cons_iff.1 hplaceable
          -- another place for the token is no earlier than the one that was found
          exact hnot (hrest.mono (Nat.add_le_add_right (hfirst other hother hoccurs') _))

theorem exists_substitute_iff (hstart : start ≤ text.length) (substitutions : List Substitution) :
    (∃ html, substitute substitutions (text.drop start) = .ok html) ↔
      PlaceableFrom text start (substitutions.map Substitution.token) := by
  rcases substitute_cases hstart substitutions with
    ⟨places, htokens, hplaced, hok⟩ | ⟨k, token, -, herror, -, hnot⟩
  · exact iff_of_true ⟨_, hok⟩ ⟨places, htokens, hplaced⟩
  · refine iff_of_false ?_ fun hplaceable => hnot (hplaceable.shorten (List.take_prefix _ _))
    rintro ⟨html, hok⟩
    rw [herror] at hok
    cases hok

theorem substitute_eq_error_iff (hstart : start ≤ text.length)
    (substitutions : List Substitution) (error : RewriteError) :
    let tokens := substitutions.map Substitution.token
    substitute substitutions (text.drop start) = .error error ↔
      ∃ k token, tokens[k]? = some token ∧ error = .missingToken token ∧
        ∀ count, PlaceableFrom text start (tokens.take count) ↔ count ≤ k := by
  intro tokens
  have shorter {m n : Nat} (hle : m ≤ n) (h : PlaceableFrom text start (tokens.take n)) :
      PlaceableFrom text start (tokens.take m) :=
    h.shorten (List.take_prefix_take_left hle)
  constructor
  · intro h
    rcases substitute_cases hstart substitutions with
      ⟨places, -, -, hok⟩ | ⟨k, token, htoken, herror, hup, hnot⟩
    · rw [h] at hok
      cases hok
    · rw [h] at herror
      cases herror
      refine ⟨k, token, htoken, rfl, fun count => ⟨fun hcount => ?_, fun hle => shorter hle hup⟩⟩
      exact Nat.le_of_not_lt fun hlt => hnot (shorter hlt hcount)
  · rintro ⟨k, token, htoken, rfl, hcount⟩
    rcases substitute_cases hstart substitutions with
      ⟨places, htokens, hplaced, -⟩ | ⟨k', token', htoken', herror, hup, hnot⟩
    · have hall : PlaceableFrom text start tokens := ⟨places, htokens, hplaced⟩
      have hbeyond := hall.shorten (List.take_prefix (k + 1) tokens)
      exact absurd ((hcount (k + 1)).1 hbeyond) (Nat.not_succ_le_self k)
    · have hle := (hcount k').1 hup
      have hlt := mt (hcount (k' + 1)).2 hnot
      obtain rfl : k' = k := by omega
      rw [htoken] at htoken'
      cases htoken'
      exact herror

end Search

/-! ### Rewriting -/

section Rewriting

variable {scope marked : Bytes} {records : List Record}

theorem exists_rewrite_iff :
    (∃ result, rewrite scope marked records = .ok result) ↔
      Placeable marked (records.map Record.token) := by
  have hsearch := exists_substitute_iff (Nat.zero_le marked.length)
    (recordSubstitutions scope records)
  rw [List.drop_zero, placeableFrom_zero_iff, map_token_recordSubstitutions] at hsearch
  rw [← hsearch, rewrite_eq_map]
  cases substitute (recordSubstitutions scope records) marked <;> simp [Except.map]

theorem rewrite_eq_error_iff {error : RewriteError} :
    rewrite scope marked records = .error error ↔
      ∃ k r, records[k]? = some r ∧ error = .missingToken r.token ∧
        ∀ count, Placeable marked ((records.take count).map Record.token) ↔ count ≤ k := by
  have hsearch := substitute_eq_error_iff (Nat.zero_le marked.length)
    (recordSubstitutions scope records) error
  simp only [List.drop_zero, placeableFrom_zero_iff, map_token_recordSubstitutions,
    List.getElem?_map, Option.map_eq_some_iff] at hsearch
  have hmap : rewrite scope marked records = .error error ↔
      substitute (recordSubstitutions scope records) marked = .error error := by
    rw [rewrite_eq_map]
    cases substitute (recordSubstitutions scope records) marked <;> simp [Except.map]
  simp only [hmap, hsearch, List.map_take]
  refine exists_congr fun k => ?_
  constructor
  · rintro ⟨_, ⟨r, hr, rfl⟩, herror⟩
    exact ⟨r, hr, herror⟩
  · rintro ⟨r, hr, herror⟩
    exact ⟨_, ⟨r, hr, rfl⟩, herror⟩

theorem exists_placement_of_rewrite {result : Rewrite}
    (h : rewrite scope marked records = .ok result) :
    ∃ places, places.map Prod.fst = records.map Record.token ∧ Placement marked places ∧
      result = ⟨Edit.splice marked 0 (editsAt places (recordSubstitutions scope records)),
        rulesOf scope records⟩ := by
  rw [rewrite_eq_map] at h
  rcases substitute_cases (Nat.zero_le marked.length) (recordSubstitutions scope records) with
    ⟨places, htokens, hplaced, hok⟩ | ⟨k, s, -, herror, -, -⟩
  · rw [List.drop_zero] at hok
    rw [hok] at h
    cases h
    exact ⟨places, htokens.trans (map_token_recordSubstitutions scope records), hplaced.1, rfl⟩
  · rw [List.drop_zero] at herror
    rw [herror] at h
    cases h

end Rewriting

/-- Rewriting succeeds exactly when the tokens of the records can be placed in the marked text in
their order.  Otherwise it names the token of the first record up to which they cannot. -/
theorem placeable_iff_rewrite (scope marked : Bytes) (records : List Record) :
    ((∃ result, rewrite scope marked records = .ok result) ↔
      Placeable marked (records.map Record.token)) ∧
    ∀ error, rewrite scope marked records = .error error ↔
      ∃ k r, records[k]? = some r ∧ error = .missingToken r.token ∧
        ∀ count, Placeable marked ((records.take count).map Record.token) ↔ count ≤ k :=
  ⟨exists_rewrite_iff, fun _ => rewrite_eq_error_iff⟩

end StyleHoist
