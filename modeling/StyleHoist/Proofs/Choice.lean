import StyleHoist.Proofs.Placement

/-!
Rewriting with some of the records of a scan, in any order.  Each token of a scan occurs once,
behind the tokens of the records before it, so there is just one way to place the chosen tokens, and
it keeps their order only if the records were chosen in order.  Main statement: rewriting succeeds
exactly when each record is chosen behind the one before, it replaces the chosen tokens and no
others, and it fails at the first record that is not (`rewrite_chosen_iff`).
-/

set_option autoImplicit false
set_option relaxedAutoImplicit false

namespace StyleHoist

private theorem isChain_take_iff {α : Type} {R : α → α → Prop} {l : List α} {count : Nat} :
    (l.take count).IsChain R ↔
      ∀ i a b, i + 1 < count → l[i]? = some a → l[i + 1]? = some b → R a b := by
  rw [List.isChain_iff_getElem]
  constructor
  · intro h i a b hi ha hb
    obtain ⟨_, rfl⟩ := List.getElem?_eq_some_iff.1 ha
    obtain ⟨hlt, rfl⟩ := List.getElem?_eq_some_iff.1 hb
    have hnext := h i (by rw [List.length_take]; omega)
    rwa [List.getElem_take, List.getElem_take] at hnext
  · intro h i hi
    rw [List.length_take] at hi
    rw [List.getElem_take, List.getElem_take]
    exact h i _ _ (by omega) (List.getElem?_eq_getElem (by omega))
      (List.getElem?_eq_getElem (by omega))

private theorem breaksOff_iff {α : Type} {R : α → α → Prop} {l : List α} {k : Nat} {b : α}
    (hb : l[k]? = some b) :
    (∀ count, (l.take count).IsChain R ↔ count ≤ k) ↔
      ∃ i a, k = i + 1 ∧ l[i]? = some a ∧ ¬ R a b ∧ (l.take (i + 1)).IsChain R := by
  constructor
  · intro h
    have hbreak := mt (h (k + 1)).1 (Nat.not_succ_le_self k)
    simp only [isChain_take_iff, not_forall] at hbreak
    obtain ⟨i, a, b', hi, ha, hb', hnot⟩ := hbreak
    have hup := (h k).2 (Nat.le_refl k)
    -- the neighbours out of relation are not both before `k`
    have hk : k = i + 1 := by
      by_contra hne
      exact hnot (isChain_take_iff.1 hup i a b' (by omega) ha hb')
    subst hk
    rw [hb] at hb'
    cases hb'
    exact ⟨i, a, rfl, ha, hnot, hup⟩
  · rintro ⟨i, a, rfl, ha, hnot, hup⟩ count
    constructor
    · intro hcount
      by_contra hlt
      exact hnot (isChain_take_iff.1 hcount i a b (by omega) ha hb)
    · intro hle
      exact hup.prefix (List.take_prefix_take_left hle)

/-- Tokens each of which occurs just once in a text, behind the ends of those before it. -/
structure EachOnce {n : Nat} (text : Bytes) (tokens : Fin n → Bytes) (offsets : Fin n → Nat) :
    Prop where
  ne_nil : ∀ i, tokens i ≠ []
  occursAt_iff : ∀ i offset, Bytes.OccursAt (tokens i) text offset ↔ offset = offsets i
  apart : ∀ i j, i < j → offsets i + (tokens i).length ≤ offsets j

namespace EachOnce

variable {n : Nat} {text : Bytes} {tokens : Fin n → Bytes} {offsets : Fin n → Nat}
  {order : List (Fin n)}

theorem end_le_iff (h : EachOnce text tokens offsets) (i j : Fin n) :
    offsets i + (tokens i).length ≤ offsets j ↔ i < j := by
  refine ⟨fun hle => ?_, h.apart i j⟩
  by_contra hnot
  have hpos := List.length_pos_iff.2 (h.ne_nil i)
  rcases Nat.lt_or_eq_of_le (Nat.le_of_not_lt hnot) with hlt | heq
  · have hback := h.apart j i hlt
    omega
  · obtain rfl := Fin.ext heq
    omega

theorem eq_of_occurs (h : EachOnce text tokens offsets) {places : List (Bytes × Nat)}
    (htokens : places.map Prod.fst = order.map tokens)
    (hoccurs : ∀ p ∈ places, Bytes.OccursAt p.1 text p.2) :
    places = order.map fun i => (tokens i, offsets i) := by
  induction order generalizing places with
  | nil => exact List.map_eq_nil_iff.1 htokens
  | cons i order ih =>
    obtain ⟨⟨token, offset⟩, places, rfl, rfl, hrest⟩ := List.map_eq_cons_iff.1 htokens
    obtain ⟨hfirst, hoccurs⟩ := List.forall_mem_cons.1 hoccurs
    rw [List.map_cons, ← ih hrest hoccurs, ← (h.occursAt_iff i offset).1 hfirst]

theorem placement_iff (h : EachOnce text tokens offsets) :
    Placement text (order.map fun i => (tokens i, offsets i)) ↔ order.IsChain (· < ·) := by
  have hchain : (order.map fun i => (tokens i, offsets i)).IsChain
      (fun p q => p.2 + p.1.length ≤ q.2) ↔ order.IsChain (· < ·) := by
    rw [List.isChain_map]
    exact List.IsChain.iff h.end_le_iff
  rw [← hchain]
  refine ⟨Placement.apart, fun hapart => ⟨?_, hapart⟩⟩
  rw [List.forall_mem_map]
  exact fun i _ => (h.occursAt_iff i _).2 rfl

theorem placeable_iff (h : EachOnce text tokens offsets) :
    Placeable text (order.map tokens) ↔ order.IsChain (· < ·) := by
  constructor
  · rintro ⟨places, htokens, hplacement⟩
    rwa [← h.placement_iff, ← h.eq_of_occurs htokens hplacement.occurs]
  · intro hchain
    exact ⟨_, by rw [List.map_map]; rfl, h.placement_iff.2 hchain⟩

end EachOnce

private theorem editsAt_choice (scope : Bytes) (records : List Record)
    (offsets : Fin records.length → Nat) (order : List (Fin records.length)) :
    editsAt (order.map fun i => ((records.get i).token, offsets i))
        (recordSubstitutions scope (order.map records.get)) =
      (order.zip (rulesOf scope (order.map records.get))).map fun (i, rule) =>
        ⟨⟨offsets i, offsets i + (records.get i).token.length⟩,
          rule.attributes (records.get i)⟩ := by
  rw [editsAt, recordSubstitutions]
  generalize rulesOf scope (order.map records.get) = rules
  induction order generalizing rules with
  | nil => rfl
  | cons i order ih =>
    cases rules with
    | nil => rfl
    | cons rule rules => simp only [List.map_cons, List.zip_cons_cons, ih]

section Scan

variable {mode : Mode} {stamp : Stamp} {text marked : Bytes}

theorem exists_eachOnce (hstamp : Bytes.occurs stamp.digits text = false)
    (hmarked : (scan mode stamp text).marked = .ok marked)
    (hcount : (scan mode stamp text).records.length < 0x100000000)
    (hacross : ∀ r ∈ (scan mode stamp text).records, ∀ other ∈ (scan mode stamp text).records,
      ¬ Bytes.Straddles r.token other.name other.token) :
    ∃ offsets, EachOnce marked (fun i => ((scan mode stamp text).records.get i).token)
      offsets := by
  obtain rfl := marked_scan hmarked
  have htags := hcount
  rw [records_scan, List.length_map] at htags
  have hrecords := records_insertions stamp text mode
  generalize (scan mode stamp text).records = records at hacross hrecords ⊢
  subst hrecords
  simp only [List.forall_mem_map] at hacross
  let places := (Extraction.ofText text).insertions stamp
  let record (p : StyledTag × Nat) : Record := p.1.record stamp
  let place (i : Fin (places.map record).length) : StyledTag × Nat :=
    places.get (i.cast (List.length_map _))
  have hplace (i) : place i ∈ places := List.get_mem _ _
  have htoken (i) : ((places.map record).get i).token = stamp.token (place i).1.number :=
    congrArg Record.token (List.getElem_map record)
  refine ⟨fun i => (place i).2, fun i hnil => ?_, fun i offset => ?_, fun i j hlt => ?_⟩
  · have hlength := stamp.length_token (number_lt_of_mem_insertions stamp text htags (hplace i))
    rw [← htoken, hnil] at hlength
    cases hlength
  · rw [htoken]
    exact occursAt_token_iff stamp text hstamp htags (hplace i) (hacross _ (hplace i)) offset
  · have hpairs := List.pairwise_iff_get.1
      (@pairwise_insertions stamp 0 (Extraction.ofText text).pieces)
    have hbehind := hpairs (i.cast (List.length_map _)) (j.cast (List.length_map _)) hlt
    rw [htoken]
    exact Nat.le_of_lt (Nat.lt_of_le_of_lt (Nat.le_add_right _ _) hbehind)

end Scan

/-- The records of a scan, chosen by their indices: rewriting succeeds exactly when each index is
greater than the one before it.  It then replaces the tokens of the chosen records where they stand
and leaves the others in place.  Otherwise it fails at the first index that is not greater. -/
theorem rewrite_chosen_iff {mode : Mode} {stamp : Stamp} {text marked : Bytes} (scope : Bytes)
    (hstamp : Bytes.occurs stamp.digits text = false)
    (hmarked : (scan mode stamp text).marked = .ok marked)
    (hcount : (scan mode stamp text).records.length < 0x100000000)
    (hacross : ∀ r ∈ (scan mode stamp text).records, ∀ other ∈ (scan mode stamp text).records,
      ¬ Bytes.Straddles r.token other.name other.token)
    (order : List (Fin (scan mode stamp text).records.length)) :
    let records := (scan mode stamp text).records
    let chosen := order.map records.get
    let rules := (chosen.zipIdx 1).map fun (r, number) => r.rule scope number
    ∃ offsets, EachOnce marked (fun i => (records.get i).token) offsets ∧
      let edits : List Edit := (order.zip rules).map fun (i, rule) =>
        ⟨⟨offsets i, offsets i + (records.get i).token.length⟩, rule.attributes (records.get i)⟩
      (order.IsChain (· < ·) → Edit.Ordered marked.length 0 edits) ∧
      (∀ result, rewrite scope marked chosen = .ok result ↔
        order.IsChain (· < ·) ∧ result = ⟨Edit.splice marked 0 edits, rules⟩) ∧
      ∀ error, rewrite scope marked chosen = .error error ↔
        ∃ k i j, order[k]? = some i ∧ order[k + 1]? = some j ∧ j ≤ i ∧
          (order.take (k + 1)).IsChain (· < ·) ∧ error = .missingToken (records.get j).token := by
  intro records chosen rules
  obtain ⟨offsets, hone⟩ := exists_eachOnce hstamp hmarked hcount hacross
  have htokens (order : List (Fin records.length)) :
      (order.map records.get).map Record.token = order.map fun i => (records.get i).token :=
    List.map_map
  have hplaceable (order : List (Fin records.length)) :
      Placeable marked ((order.map records.get).map Record.token) ↔ order.IsChain (· < ·) := by
    rw [htokens]
    exact hone.placeable_iff
  refine ⟨offsets, hone, ?_⟩
  intro edits
  have hedits : editsAt (order.map fun i => ((records.get i).token, offsets i))
      (recordSubstitutions scope chosen) = edits :=
    editsAt_choice scope records offsets order
  have only {result : Rewrite} (h : rewrite scope marked chosen = .ok result) :
      order.IsChain (· < ·) ∧ result = ⟨Edit.splice marked 0 edits, rules⟩ := by
    obtain ⟨places, hplaces, hplacement, rfl⟩ := exists_placement_of_rewrite h
    obtain rfl := hone.eq_of_occurs (hplaces.trans (htokens order)) hplacement.occurs
    rw [hedits]
    exact ⟨hone.placement_iff.1 hplacement, rfl⟩
  refine ⟨fun hchain => ?_, fun result => ⟨only, ?_⟩, fun error => ?_⟩
  · have hplaced : PlacedFrom marked 0 _ := ⟨hone.placement_iff.2 hchain, fun _ _ => Nat.zero_le _⟩
    have hordered := hplaced.ordered (Nat.zero_le _) (recordSubstitutions scope chosen)
    rwa [hedits] at hordered
  · rintro ⟨hchain, rfl⟩
    obtain ⟨result, h⟩ := exists_rewrite_iff.2 ((hplaceable order).2 hchain)
    rw [h, (only h).2]
  · have hcount (count : Nat) : Placeable marked ((chosen.take count).map Record.token) ↔
        (order.take count).IsChain (· < ·) := by
      rw [← List.map_take]
      exact hplaceable (order.take count)
    simp only [rewrite_eq_error_iff, hcount]
    constructor
    · rintro ⟨k, r, hr, rfl, hbreak⟩
      rw [List.getElem?_map] at hr
      obtain ⟨j, hj, rfl⟩ := Option.map_eq_some_iff.1 hr
      obtain ⟨before, i, rfl, hi, hnot, hup⟩ := (breaksOff_iff hj).1 hbreak
      exact ⟨before, i, j, hi, hj, Fin.not_lt.1 hnot, hup, rfl⟩
    · rintro ⟨before, i, j, hi, hj, hle, hup, rfl⟩
      refine ⟨before + 1, records.get j, ?_, rfl,
        (breaksOff_iff hj).2 ⟨before, i, rfl, hi, Fin.not_lt.2 hle, hup⟩⟩
      rw [List.getElem?_map, hj, Option.map_some]

/-- A record that is left out, and one that comes too late. -/
theorem rewrite_chosen_inlines :
    let stamp := Stamp.ofSeed 0
    let text := utf8 "<p style=\"a\"><i style=b><b style=c>"
    let marked := utf8 "<p" ++ stamp.token 1 ++ utf8 "><i" ++ stamp.token 2 ++ utf8 "><b" ++
      stamp.token 3 ++ utf8 ">"
    let records := (scan .strict stamp text).records
    Bytes.occurs stamp.digits text = false ∧ (scan .strict stamp text).marked = .ok marked ∧
      records.length < 0x100000000 ∧
      (∀ r ∈ records, ∀ other ∈ records, ¬ Bytes.Straddles r.token other.name other.token) ∧
      ∃ first second third : Fin records.length, first < second ∧ second < third ∧
        (∃ result, rewrite [] marked (([first, third] : List _).map records.get) = .ok result) ∧
        rewrite [] marked (([second, first, third] : List _).map records.get) =
          .error (.missingToken (records.get first).token) := by
  intro stamp text marked records
  have hstamp : Bytes.occurs stamp.digits text = false := by decide +kernel
  have hmarked : (scan .strict stamp text).marked = .ok marked :=
    (marked_of_error? _ (by decide +kernel)).trans (congrArg _ (by decide +kernel))
  have hlength : records.length = 3 := by
    simp only [records, records_scan]
    decide +kernel
  have hacross : ∀ r ∈ records, ∀ other ∈ records,
      ¬ Bytes.Straddles r.token other.name other.token := by
    simp only [records, records_scan]
    decide +kernel
  have hcount : records.length < 0x100000000 := by omega
  let first : Fin records.length := ⟨0, by omega⟩
  let second : Fin records.length := ⟨1, by omega⟩
  let third : Fin records.length := ⟨2, by omega⟩
  have hfirst : first < second := Nat.zero_lt_one
  have hsecond : second < third := Nat.one_lt_two
  refine ⟨hstamp, hmarked, hcount, hacross, first, second, third, hfirst, hsecond, ?_, ?_⟩
  · obtain ⟨_, -, -, hok, -⟩ := rewrite_chosen_iff [] hstamp hmarked hcount hacross [first, third]
    have hchain : [first, third].IsChain (· < ·) :=
      .cons_cons (Nat.lt_trans hfirst hsecond) (.singleton _)
    exact ⟨_, (hok _).2 ⟨hchain, rfl⟩⟩
  · obtain ⟨_, -, -, -, herror⟩ :=
      rewrite_chosen_iff [] hstamp hmarked hcount hacross [second, first, third]
    exact (herror _).2 ⟨0, second, first, rfl, rfl, Nat.zero_le 1, .singleton _, rfl⟩

end StyleHoist
