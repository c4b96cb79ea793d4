import Mathlib.Tactic.MkIffOfInductiveProp
import StyleHoist.Proofs.Direct
import StyleHoist.Proofs.Key
import StyleHoist.Proofs.Reading
import StyleHoist.Proofs.Refill

/-!
Tags whose attributes can be moved.  In a clean tag quotes do nothing but delimit values, so that an
attribute reads the same next to other neighbours, and nothing in it runs on into the closing part
of the tag.  Only the last attribute meets that part (`readAttributes_kept`), and only a slash right
behind a value without quotes is read as something else there.  Main statement: what stands for a
clean tag is a single tag of the same name, which closes itself if the tag did and has the same
attributes otherwise (`exists_standsIn`).
-/

set_option autoImplicit false
set_option relaxedAutoImplicit false

namespace StyleHoist

open Ascii Boundary

/-- A tag whose quotes delimit values or stand inside quoted values, and whose id and classes can be
put into double quotes. -/
@[mk_iff]
structure StartTag.Requotable (t : StartTag) : Prop where
  name : ∀ b ∈ t.name, isQuote b = false
  names : ∀ a ∈ t.attributes, ∀ b ∈ a.name, isQuote b = false
  unquoted : ∀ a ∈ t.attributes, ∀ v ∈ a.value, v.quoting = .unquoted →
    ∀ b ∈ v.text, isQuote b = false
  id : ∀ id ∈ t.valueOf? (utf8 "id"), doubleQuote ∉ id
  classes : ∀ classes ∈ t.valueOf? (utf8 "class"), doubleQuote ∉ classes
  heads : ∀ a ∈ t.attributes, a.name.head? ≠ some equals

/-- Whether a slash that closes a tag is apart from the last attribute that is kept: there is a
blank before it, or the attribute has a value in quotes or none.  Otherwise the slash would go over
into the value. -/
def StartTag.SlashApart (t : StartTag) : Prop :=
  t.isSelfClosing = true → (∀ b ∈ t.openRegion.getLast?, isBlank b = false) →
    ∀ a ∈ t.kept.getLast?, ∀ v ∈ a.value, v.quoting ≠ .unquoted

/-- A tag whose attributes can be moved. -/
@[mk_iff]
structure StartTag.Clean (t : StartTag) : Prop extends StartTag.Requotable t where
  slashApart : t.SlashApart

/-- What is asked of each byte of a text is decided along the text, not over all bytes there are. -/
instance Bytes.decidableForall {p : UInt8 → Prop} [DecidablePred p] (s : Bytes) :
    Decidable (∀ b ∈ s, p b) :=
  List.decidableBAll p s

instance Bytes.decidableForall? {p : UInt8 → Prop} [DecidablePred p] (b? : Option UInt8) :
    Decidable (∀ b ∈ b?, p b) :=
  Option.decidableForallMem b?

instance (t : StartTag) : Decidable t.Requotable := decidable_of_iff' _ t.requotable_iff

instance (t : StartTag) : Decidable t.SlashApart := by
  delta StartTag.SlashApart
  infer_instance

instance (t : StartTag) : Decidable t.Clean := decidable_of_iff' _ t.clean_iff

/-! ### Quotes -/

private theorem isQuote_of_isGap {b : UInt8} (h : isGap b = true) : isQuote b = false := by
  rcases isGap_iff.1 h with rfl | rfl | rfl | rfl | rfl | rfl <;> rfl

private theorem isQuote_of_isBlank {b : UInt8} (h : isBlank b = true) : isQuote b = false :=
  isQuote_of_isGap (by rw [isGap, h, Bool.true_or])

private theorem balanced_delimited {rest text : Bytes} {quoting : Quoting}
    (h : Delimited rest quoting text)
    (hunquoted : quoting = .unquoted → ∀ b ∈ text, isQuote b = false)
    (hbalanced : Balanced (quoting.opening ++ text ++ quoting.closing ++ rest)) :
    Balanced (quoting.opening ++ text ++ quoting.closing) ∧ Balanced rest ∧
      ∀ quote, quoting ≠ .unclosed quote := by
  cases h with
  | empty hrest => exact ⟨.nil, hbalanced, fun _ => Quoting.noConfusion⟩
  | @unquoted first text hquote hblank hrest =>
    simp only [Quoting.opening, Quoting.closing, List.nil_append, List.append_nil] at hbalanced ⊢
    obtain ⟨htext, hbehind⟩ := Balanced.of_plain (hunquoted rfl) hbalanced
    exact ⟨htext, hbehind, fun _ => Quoting.noConfusion⟩
  | @closed quote text hquote htext =>
    have hwhole : (Quoting.closed quote).opening ++ text ++ (Quoting.closed quote).closing ++ rest =
        quote :: text ++ quote :: rest := by
      simp [Quoting.opening, Quoting.closing]
    rw [hwhole, balanced_quoted_iff hquote htext] at hbalanced
    exact ⟨.quoted hquote htext .nil, hbalanced, fun _ => Quoting.noConfusion⟩
  | @unclosed quote text hquote htext hrest =>
    subst hrest
    simp only [Quoting.opening, Quoting.closing, List.singleton_append, List.append_nil]
      at hbalanced
    exact absurd hbalanced (not_balanced_unclosed hquote htext)

private theorem balanced_attribute {a : Attribute} {rest : Bytes} (hstands : a.Stands rest)
    (hname : ∀ b ∈ a.name, isQuote b = false)
    (hunquoted : ∀ v ∈ a.value, v.quoting = .unquoted → ∀ b ∈ v.text, isQuote b = false)
    (h : Balanced (a.gap ++ a.written ++ rest)) :
    Balanced a.written ∧ Balanced rest ∧ ∀ v ∈ a.value, ∀ quote, v.quoting ≠ .unclosed quote := by
  have hgap : ∀ b ∈ a.gap, isQuote b = false := fun b hb => isQuote_of_isGap (hstands.gap b hb)
  rw [List.append_assoc] at h
  obtain ⟨-, hbehind⟩ := Balanced.of_plain hgap h
  cases hvalue : a.value with
  | none =>
    simp only [Attribute.written, hvalue, Option.map_none, Option.getD_none, List.append_nil]
      at hbehind ⊢
    obtain ⟨hwritten, hrest⟩ := Balanced.of_plain hname hbehind
    exact ⟨hwritten, hrest, fun v hv => absurd hv (by simp)⟩
  | some v =>
    have hv := hstands.value v hvalue
    have hlead : ∀ b ∈ a.name ++ (v.before ++ equals :: v.after), isQuote b = false := by
      intro b hb
      simp only [List.mem_append, List.mem_cons] at hb
      rcases hb with hb | hb | rfl | hb
      · exact hname b hb
      · exact isQuote_of_isBlank (hv.before b hb)
      · rfl
      · exact isQuote_of_isBlank (hv.after b hb)
    have hwritten : a.written = a.name ++ (v.before ++ equals :: v.after) ++
        (v.quoting.opening ++ v.text ++ v.quoting.closing) := by
      simp [Attribute.written, hvalue, Value.written, Value.lead]
    rw [hwritten, List.append_assoc] at hbehind
    obtain ⟨hbefore, hdelimited⟩ := Balanced.of_plain hlead hbehind
    obtain ⟨htext, hrest, hunclosed⟩ :=
      balanced_delimited hv.text (hunquoted v hvalue) hdelimited
    refine ⟨?_, hrest, fun w hw => ?_⟩
    · rw [hwritten]
      exact hbefore.append_iff.2 htext
    · cases hw
      exact hunclosed

private theorem balanced_attributes {attributes : List Attribute} {trail : Bytes}
    (hstanding : StartTag.Standing trail attributes)
    (hnames : ∀ a ∈ attributes, ∀ b ∈ a.name, isQuote b = false)
    (hunquoted : ∀ a ∈ attributes, ∀ v ∈ a.value, v.quoting = .unquoted →
      ∀ b ∈ v.text, isQuote b = false)
    (h : Balanced (StartTag.spell attributes ++ trail)) :
    ∀ a ∈ attributes, Balanced a.written ∧ ∀ v ∈ a.value, ∀ quote, v.quoting ≠ .unclosed quote := by
  induction attributes with
  | nil =>
    intro a ha
    cases ha
  | cons a attributes ih =>
    rw [List.forall_mem_cons] at hnames hunquoted ⊢
    rw [StartTag.spell, List.flatMap_cons, List.append_assoc] at h
    obtain ⟨hwritten, hrest, hunclosed⟩ :=
      balanced_attribute hstanding.1 hnames.1 hunquoted.1 h
    exact ⟨⟨hwritten, hunclosed⟩, ih hstanding.2 hnames.2 hunquoted.2 hrest⟩

/-! ### Attributes next to other neighbours -/

/-- What a rewritten tag keeps of an attribute. -/
def Attribute.pair (a : Attribute) : Bytes × Option Bytes := (a.name, a.value.map Value.text)

/-- An attribute reads the same behind another gap and in front of another text, unless its value
runs up to the end of its tag or would run on into that text. -/
private theorem stands_move {a : Attribute} {rest rest' : Bytes} (h : a.Stands rest)
    (hunclosed : ∀ v ∈ a.value, ∀ quote, v.quoting ≠ .unclosed quote)
    (hempty : ∀ v ∈ a.value, v.quoting = .unquoted → v.text ≠ [])
    (hgap : ∀ b ∈ rest'.head?, isGap b = true)
    (hequals : (rest'.dropWhile isBlank).head? ≠ some equals)
    (hblank : ∀ v ∈ a.value, v.quoting = .unquoted → ∀ b ∈ rest'.head?, isBlank b = true) :
    Attribute.Stands rest' { a with gap := [space] } where
  gap := by
    rw [List.forall_mem_singleton]
    rfl
  name := h.name
  bare := fun _ => ⟨fun b hb => by simp [isNameTail, hgap b hb], hequals⟩
  value := by
    intro v hv
    obtain ⟨hbefore, hafter, htext⟩ := h.value v hv
    refine ⟨hbefore, hafter, ?_⟩
    obtain ⟨before, after, quoting, text⟩ := v
    cases htext with
    | empty => exact absurd rfl (hempty _ hv rfl)
    | unquoted hquote htext => exact .unquoted hquote htext (hblank _ hv rfl)
    | closed hquote htext => exact .closed hquote htext
    | unclosed => exact absurd rfl (hunclosed _ hv _)

private theorem split?_end {a : Attribute} {v : Value} {rest : Bytes} (h : a.Stands rest)
    (hv : v.Stands []) :
    Attribute.split? (space :: (Attribute.mk [space] a.name (some v)).written) =
      some (⟨[space], a.name, some v⟩, []) := by
  refine Attribute.split?_eq_some_iff.2 ⟨?_, ?_, h.name, ?_, ?_⟩
  · rw [List.append_nil]
    rfl
  · rw [List.forall_mem_singleton]
    rfl
  · intro hnone
    cases hnone
  · rintro w ⟨⟩
    exact hv

private theorem split?_empty {a : Attribute} {v : Value} {blanks rest : Bytes} (h : a.Stands rest)
    (hv : a.value = some v) (hquoting : v.quoting = .unquoted) (htext : v.text = [])
    (hblanks : ∀ b ∈ blanks, isBlank b = true) :
    Attribute.split? (space :: a.written ++ blanks) =
      some (⟨[space], a.name, some { v with after := v.after ++ blanks }⟩, []) := by
  obtain ⟨hbefore, hafter, -⟩ := h.value v hv
  have hwritten : space :: a.written ++ blanks = space ::
      (Attribute.mk [space] a.name (some { v with after := v.after ++ blanks })).written := by
    simp [Attribute.written, hv, Value.written, Value.lead, hquoting, htext, Quoting.opening,
      Quoting.closing]
  rw [hwritten]
  refine split?_end h ⟨hbefore, fun b hb => ?_, ?_⟩
  · rcases List.mem_append.1 hb with hb | hb
    · exact hafter b hb
    · exact hblanks b hb
  · simp only [hquoting, htext]
    exact .empty rfl

private theorem split?_slash {a : Attribute} {v : Value} {rest : Bytes} (h : a.Stands rest)
    (hv : a.value = some v) (hquoting : v.quoting = .unquoted) (htext : v.text ≠ []) :
    Attribute.split? (space :: a.written ++ [slash]) =
      some (⟨[space], a.name, some { v with text := v.text ++ [slash] }⟩, []) := by
  obtain ⟨hbefore, hafter, hdelimited⟩ := h.value v hv
  have hwritten : space :: a.written ++ [slash] = space ::
      (Attribute.mk [space] a.name (some { v with text := v.text ++ [slash] })).written := by
    simp [Attribute.written, hv, Value.written, Value.lead, hquoting, Quoting.opening,
      Quoting.closing]
  rw [hwritten]
  refine split?_end h ⟨hbefore, hafter, ?_⟩
  obtain ⟨before, after, quoting, text⟩ := v
  cases hdelimited with
  | empty => exact absurd rfl htext
  | @unquoted first text hquote hblank =>
    refine .unquoted hquote (fun b hb => ?_) ?_
    · have hmem : b ∈ (first :: text) ++ [slash] := hb
      rw [List.mem_append, List.mem_singleton] at hmem
      rcases hmem with hmem | rfl
      · exact hblank b hmem
      · rfl
    · rintro b ⟨⟩
  | closed => cases hquoting
  | unclosed => cases hquoting

/-- An attribute that is read the same wherever it is put, if nothing behind it runs on into it. -/
structure Attribute.Movable (a : Attribute) : Prop where
  stands : ∃ rest, a.Stands rest
  closed : ∀ v ∈ a.value, ∀ quote, v.quoting ≠ .unclosed quote
  head : a.name.head? ≠ some equals

/-- An attribute as it is read behind a space. -/
def Attribute.respaced (a : Attribute) : Attribute := { a with gap := [space] }

private theorem pair_respaced (attributes : List Attribute) :
    (attributes.map Attribute.respaced).map Attribute.pair = attributes.map Attribute.pair := by
  rw [List.map_map]
  rfl

private theorem exists_stands_of_mem {attributes : List Attribute} {trail : Bytes}
    (h : StartTag.Standing trail attributes) : ∀ a ∈ attributes, ∃ rest, a.Stands rest := by
  induction attributes with
  | nil =>
    intro a ha
    cases ha
  | cons a attributes ih =>
    rw [List.forall_mem_cons]
    exact ⟨⟨_, h.1⟩, ih h.2⟩

/-- Attributes with a space in front of each. -/
def spaced (attributes : List Attribute) : Bytes :=
  attributes.flatMap fun a => space :: a.written

private theorem spaced_append (s t : List Attribute) : spaced (s ++ t) = spaced s ++ spaced t :=
  List.flatMap_append

section Moving

variable {attributes : List Attribute} {rest : Bytes}

private theorem boundary_spaced (h : ∀ a ∈ attributes, a.Movable)
    (hgap : ∀ b ∈ rest.head?, isGap b = true)
    (hequals : (rest.dropWhile isBlank).head? ≠ some equals) :
    (∀ b ∈ (spaced attributes ++ rest).head?, isGap b = true) ∧
      ((spaced attributes ++ rest).dropWhile isBlank).head? ≠ some equals := by
  cases attributes with
  | nil => exact ⟨hgap, hequals⟩
  | cons a attributes =>
    have ha := h a List.mem_cons_self
    obtain ⟨behind, hstands⟩ := ha.stands
    obtain ⟨first, tail, hname, hfirst, -⟩ := hstands.name
    have hblank : isBlank first = false := by
      rw [isGap, Bool.or_eq_false_iff] at hfirst
      exact hfirst.1
    have hhead := ha.head
    have hspace : isBlank space = true := rfl
    refine ⟨?_, ?_⟩
    · rintro b ⟨⟩
      rfl
    · simp only [spaced, List.flatMap_cons, Attribute.written, hname, List.cons_append,
        List.dropWhile_cons, hspace, hblank, if_true, Bool.false_eq_true, if_false,
        List.head?_cons]
      rwa [hname] at hhead

private theorem readAttributes_spaced (h : ∀ a ∈ attributes, a.Movable)
    (hempty : ∀ a ∈ attributes, ∀ v ∈ a.value, v.quoting = .unquoted → v.text ≠ [])
    (hgap : ∀ b ∈ rest.head?, isGap b = true)
    (hequals : (rest.dropWhile isBlank).head? ≠ some equals)
    (hlast : ∀ a ∈ attributes.getLast?, ∀ v ∈ a.value, v.quoting = .unquoted →
      ∀ b ∈ rest.head?, isBlank b = true) :
    StartTag.readAttributes (spaced attributes ++ rest) =
      (attributes.map Attribute.respaced ++ (StartTag.readAttributes rest).1,
        (StartTag.readAttributes rest).2) := by
  induction attributes with
  | nil => rfl
  | cons a attributes ih =>
    rw [List.forall_mem_cons] at h hempty
    obtain ⟨hgap', hequals'⟩ := boundary_spaced h.2 hgap hequals
    obtain ⟨behind, hstands⟩ := h.1.stands
    have hmoved : a.respaced.Stands (spaced attributes ++ rest) := by
      refine stands_move hstands h.1.closed hempty.1 hgap' hequals' fun v hv hquoting => ?_
      cases attributes with
      | nil => exact hlast a rfl v hv hquoting
      | cons next attributes =>
        rintro b ⟨⟩
        rfl
    have hsplit : Attribute.split? (spaced (a :: attributes) ++ rest) =
        some (a.respaced, spaced attributes ++ rest) := by
      refine Attribute.split?_eq_some_iff.2 ⟨?_, hmoved⟩
      rw [spaced, List.flatMap_cons, List.append_assoc]
      rfl
    have hlast' : ∀ b ∈ attributes.getLast?, ∀ v ∈ b.value, v.quoting = .unquoted →
        ∀ c ∈ rest.head?, isBlank c = true := by
      intro b hb
      apply hlast b
      rw [List.getLast?_cons, Option.mem_def.1 hb]
      rfl
    rw [StartTag.readAttributes_of_some hsplit, ih h.2 hempty.2 hlast']
    rfl

end Moving

/-! ### The last attribute -/

private theorem eq_nil_of_empty {attributes : List Attribute} {trail : Bytes} {v : Value}
    (h : v.Stands (StartTag.spell attributes ++ trail))
    (hstanding : StartTag.Standing trail attributes) (hquoting : v.quoting = .unquoted)
    (htext : v.text = []) : attributes = [] ∧ trail = [] := by
  have hdelimited := h.text
  rw [hquoting, htext] at hdelimited
  cases hdelimited with
  | empty hnil =>
    obtain ⟨hspell, htrail⟩ := List.append_eq_nil_iff.1 hnil
    cases attributes with
    | nil => exact ⟨rfl, htrail⟩
    | cons a attributes =>
      obtain ⟨first, tail, hname, -⟩ := hstanding.1.name
      simp [StartTag.spell, Attribute.written, hname] at hspell

private theorem standing_append_cons {attributes others : List Attribute} {a : Attribute}
    {trail : Bytes} (h : StartTag.Standing trail (attributes ++ a :: others)) :
    (∀ b ∈ attributes, ∀ v ∈ b.value, v.quoting = .unquoted → v.text ≠ []) ∧
      a.Stands (StartTag.spell others ++ trail) ∧ StartTag.Standing trail others := by
  induction attributes with
  | nil =>
    refine ⟨fun b hb => ?_, h⟩
    cases hb
  | cons b attributes ih =>
    obtain ⟨hempty, hlast⟩ := ih h.2
    rw [List.forall_mem_cons]
    refine ⟨⟨fun v hv hquoting htext => ?_, hempty⟩, hlast⟩
    have hnil := (eq_nil_of_empty (h.1.value v hv) h.2 hquoting htext).1
    exact List.append_ne_nil_of_right_ne_nil attributes (List.cons_ne_nil a others) hnil

private theorem readAttributes_singleton {a : Attribute} {s : Bytes}
    (h : Attribute.split? s = some (a, [])) : StartTag.readAttributes s = ([a], []) := by
  have hend : StartTag.readAttributes [] = ([], []) := StartTag.readAttributes_of_none rfl
  rw [StartTag.readAttributes_of_some h, hend]

/-! ### The closing part of a tag -/

theorem Bytes.trailing_ne_nil {p : UInt8 → Bool} {s : Bytes} {b : UInt8}
    (hlast : s.getLast? = some b) (hb : p b = true) : Bytes.trailing p s ≠ [] := by
  rw [List.getLast?_eq_head?_reverse] at hlast
  obtain ⟨tail, htail⟩ := List.head?_eq_some_iff.1 hlast
  simp [Bytes.trailing, htail, hb]

theorem Bytes.trailing_eq_nil {p : UInt8 → Bool} {s : Bytes} (h : ∀ b ∈ s.getLast?, p b = false) :
    Bytes.trailing p s = [] := by
  rw [List.getLast?_eq_head?_reverse] at h
  rw [Bytes.trailing, List.reverse_eq_nil_iff]
  cases hs : s.reverse with
  | nil => rfl
  | cons b s =>
    rw [hs] at h
    rw [List.takeWhile_cons, h b rfl, if_neg Bool.false_ne_true]

namespace StartTag

variable {t : StartTag}

theorem getLast?_closing (t : StartTag) :
    (t.closing.getLast? == some slash) = t.isSelfClosing := by
  cases h : t.isSelfClosing with
  | true =>
    rw [closing, h, if_pos rfl, List.getLast?_append]
    rfl
  | false =>
    rw [beq_eq_false_iff_ne]
    intro hlast
    exact absurd (isBlank_closing h slash (List.mem_of_getLast? hlast)) (by decide)

private theorem SlashApart.head_closing (h : t.SlashApart) : ∀ a ∈ t.kept.getLast?, ∀ v ∈ a.value,
    v.quoting = .unquoted → ∀ b ∈ t.closing.head?, isBlank b = true := by
  intro a ha v hv hquoting b hb
  cases hself : t.isSelfClosing with
  | false => exact isBlank_closing hself b (List.mem_of_mem_head? hb)
  | true =>
    by_cases hblank : ∃ c, t.openRegion.getLast? = some c ∧ isBlank c = true
    · obtain ⟨c, hc, hblank⟩ := hblank
      obtain ⟨first, tail, htrailing⟩ :=
        List.exists_cons_of_ne_nil (Bytes.trailing_ne_nil hc hblank)
      rw [StartTag.closing, htrailing] at hb
      cases hb
      apply Bytes.all_trailing isBlank t.openRegion b
      rw [htrailing]
      exact List.mem_cons_self
    · refine absurd hquoting (h hself (fun c hc => ?_) a ha v hv)
      rw [← Bool.not_eq_true]
      intro hc'
      exact hblank ⟨c, hc, hc'⟩

private theorem closing_of_not_slashApart (h : ¬ t.SlashApart) :
    t.isSelfClosing = true ∧ t.closing = [slash] ∧
      ∃ a v, t.kept.getLast? = some a ∧ a.value = some v ∧ v.quoting = .unquoted := by
  simp only [SlashApart, Classical.not_imp, not_forall, Decidable.not_not] at h
  obtain ⟨hself, hblank, a, ha, v, hv, hquoting⟩ := h
  refine ⟨hself, ?_, a, v, ha, hv, hquoting⟩
  rw [closing, hself, if_pos rfl, Bytes.trailing_eq_nil hblank, List.nil_append]

private theorem boundary_closing (t : StartTag) :
    (∀ b ∈ t.closing.head?, isGap b = true) ∧
      (t.closing.dropWhile isBlank).head? ≠ some equals := by
  constructor
  · intro b hb
    exact isGap_closing t b (List.mem_of_mem_head? hb)
  · intro hhead
    have hmem : equals ∈ t.closing := (List.dropWhile_sublist isBlank).subset
      (List.mem_of_mem_head? hhead)
    exact absurd (isGap_closing t _ hmem) (by decide)

section Kept

variable (hstanding : Standing t.trail t.attributes)

include hstanding

private theorem kept_eq_concat {others : List Attribute} {a : Attribute}
    (h : t.kept = others ++ [a]) :
    (∀ b ∈ others, ∀ v ∈ b.value, v.quoting = .unquoted → v.text ≠ []) ∧
      (∃ rest, a.Stands rest) ∧
        ∀ v ∈ a.value, v.quoting = .unquoted → v.text = [] → t.trail = [] := by
  obtain ⟨front, back, hattributes, rfl, hback⟩ := List.filter_eq_append_iff.1 h
  obtain ⟨dropped, behind, rfl, -, -, -⟩ := List.filter_eq_cons_iff.1 hback
  rw [hattributes, ← List.append_assoc] at hstanding
  obtain ⟨hfront, hlast, hbehind⟩ := standing_append_cons hstanding
  refine ⟨fun b hb => hfront b (List.mem_append_left _ (List.mem_filter.1 hb).1), ⟨_, hlast⟩, ?_⟩
  intro v hv hquoting htext
  exact (eq_nil_of_empty (hlast.value v hv) hbehind hquoting htext).2

variable (hmovable : ∀ a ∈ t.kept, a.Movable)

include hmovable

private theorem readAttributes_kept {others : List Attribute} {a : Attribute}
    (h : t.kept = others ++ [a]) :
    readAttributes (spaced t.kept ++ t.closing) =
      (others.map Attribute.respaced ++ (readAttributes (space :: a.written ++ t.closing)).1,
        (readAttributes (space :: a.written ++ t.closing)).2) := by
  have hmovable' : (∀ b ∈ others, b.Movable) ∧ ∀ b ∈ [a], b.Movable := by
    rwa [h, List.forall_mem_append] at hmovable
  obtain ⟨hgap, hequals⟩ := boundary_closing t
  obtain ⟨hgap', hequals'⟩ := boundary_spaced hmovable'.2 hgap hequals
  have hspaced : spaced [a] = space :: a.written := by rw [spaced, List.flatMap_singleton]
  rw [h, spaced_append, List.append_assoc, ← hspaced]
  refine readAttributes_spaced hmovable'.1 (kept_eq_concat hstanding h).1 hgap' hequals' ?_
  rintro b hb v hv hquoting c ⟨⟩
  rfl

private theorem exists_readAttributes_kept (hslash : t.SlashApart) :
    ∃ moved trail, readAttributes (spaced t.kept ++ t.closing) = (moved, trail) ∧
      moved.map Attribute.pair = t.kept.map Attribute.pair ∧
      (trail = t.closing ∨ trail = [] ∧ ∀ b ∈ t.closing, isBlank b = true) := by
  have hclosing : readAttributes t.closing = ([], t.closing) :=
    readAttributes_of_none (Attribute.split?_eq_none_iff.2 (isGap_closing t))
  obtain ⟨hgap, hequals⟩ := boundary_closing t
  by_cases hempty : ∃ a ∈ t.kept, ∃ v, a.value = some v ∧ v.quoting = .unquoted ∧ v.text = []
  · obtain ⟨a, ha, v, hv, hquoting, htext⟩ := hempty
    obtain ⟨others, last, hkept⟩ : ∃ others last, t.kept = others ++ [last] :=
      (List.eq_nil_or_concat' t.kept).resolve_left (List.ne_nil_of_mem ha)
    obtain ⟨hothers, ⟨rest, hstands⟩, hend⟩ := kept_eq_concat hstanding hkept
    obtain rfl : a = last := by
      rw [hkept, List.mem_append, List.mem_singleton] at ha
      exact ha.resolve_left fun hmem => hothers a hmem v hv hquoting htext
    have hblanks : ∀ b ∈ t.closing, isBlank b = true := by
      apply isBlank_closing
      rw [isSelfClosing, hend v hv hquoting htext]
      rfl
    rw [readAttributes_kept hstanding hmovable hkept,
      readAttributes_singleton (split?_empty hstands hv hquoting htext hblanks)]
    refine ⟨_, _, rfl, ?_, .inr ⟨rfl, hblanks⟩⟩
    rw [hkept, List.map_append, List.map_append, pair_respaced]
    simp [Attribute.pair, hv]
  · have hne : ∀ a ∈ t.kept, ∀ v ∈ a.value, v.quoting = .unquoted → v.text ≠ [] :=
      fun a ha v hv hquoting htext => hempty ⟨a, ha, v, hv, hquoting, htext⟩
    rw [readAttributes_spaced hmovable hne hgap hequals hslash.head_closing, hclosing,
      List.append_nil]
    exact ⟨_, _, rfl, pair_respaced t.kept, .inl rfl⟩

private theorem readAttributes_kept_of_not_slashApart (hslash : ¬ t.SlashApart) :
    (readAttributes (spaced t.kept ++ t.closing)).2 = [] := by
  obtain ⟨hself, hclosing, a, v, ha, hv, hquoting⟩ := closing_of_not_slashApart hslash
  obtain ⟨others, hkept⟩ := List.getLast?_eq_some_iff.1 ha
  obtain ⟨-, ⟨rest, hstands⟩, hend⟩ := kept_eq_concat hstanding hkept
  have htext : v.text ≠ [] := by
    intro htext
    rw [isSelfClosing, hend v hv hquoting htext] at hself
    cases hself
  rw [readAttributes_kept hstanding hmovable hkept, hclosing,
    readAttributes_singleton (split?_slash hstands hv hquoting htext)]

end Kept

end StartTag

/-! ### The attributes of a rewritten tag -/

/-- An attribute as a rewritten tag gets it anew. -/
def quotedAttribute (name text : Bytes) : Attribute :=
  ⟨[space], name, some ⟨[], [], .closed doubleQuote, text⟩⟩

private theorem spaced_quoted (name text : Bytes) :
    spaced [quotedAttribute name text] =
      space :: name ++ utf8 "=\"" ++ text ++ utf8 "\"" := by
  have hequals : utf8 "=\"" = [equals, doubleQuote] := rfl
  have hquote : utf8 "\"" = [doubleQuote] := rfl
  simp [spaced, quotedAttribute, Attribute.written, Value.written, Value.lead, Quoting.opening,
    Quoting.closing, hequals, hquote]

namespace StyledTag

/-- The attributes that a rewritten tag gets anew. -/
def added (scope : Bytes) (t : StyledTag) : List Attribute :=
  (if t.draft.id = [] then [] else [quotedAttribute (utf8 "id") t.draft.id]) ++
    [quotedAttribute (utf8 "class") (t.rule scope).classAttribute]

private theorem cons_join (a : Attribute) (attributes : List Attribute) :
    space :: Bytes.join [space] ((a :: attributes).map Attribute.written) =
      spaced (a :: attributes) := by
  induction attributes generalizing a with
  | nil => simp [Bytes.join, spaced]
  | cons next attributes ih =>
    have hnext := ih next
    rw [Bytes.join, List.map_cons] at hnext
    rw [Bytes.join, List.map_cons, List.map_cons, List.intercalate_cons_cons, List.append_assoc,
      List.singleton_append, hnext]
    simp [spaced]

private theorem others_eq_spaced {attributes : List Attribute}
    (h : ∀ a ∈ attributes, a.written ≠ []) :
    (if Bytes.join [space] (attributes.map Attribute.written) = [] then []
      else space :: Bytes.join [space] (attributes.map Attribute.written)) =
      spaced attributes := by
  cases attributes with
  | nil => rfl
  | cons a attributes =>
    rw [if_neg ?_, cons_join]
    intro hnil
    have hspaced := cons_join a attributes
    rw [hnil, spaced, List.flatMap_cons, List.cons_append] at hspaced
    obtain ⟨-, htail⟩ := List.cons.inj hspaced
    exact h a List.mem_cons_self (List.append_eq_nil_iff.1 htail.symm).1

theorem replacement_eq_spaced {scope : Bytes} {t : StyledTag}
    (h : ∀ a ∈ t.tag.kept, a.written ≠ []) :
    t.replacement scope = spaced (t.added scope) ++ spaced t.tag.kept := by
  have hid : (if t.draft.id = [] then [] else utf8 " id=\"" ++ t.draft.id ++ utf8 "\"") =
      spaced (if t.draft.id = [] then [] else [quotedAttribute (utf8 "id") t.draft.id]) := by
    split
    · rfl
    · rw [spaced_quoted]
      rfl
  have hclass : utf8 " class=\"" ++ (t.rule scope).classAttribute ++ utf8 "\"" =
      spaced [quotedAttribute (utf8 "class") (t.rule scope).classAttribute] := by
    rw [spaced_quoted]
    rfl
  have hothers : (if t.draft.others = [] then [] else space :: t.draft.others) =
      spaced t.tag.kept :=
    others_eq_spaced h
  rw [replacement, Rule.attributes, hid, hclass, hothers, added, spaced_append]

end StyledTag

private theorem readAttributes_append {attributes : List Attribute}
    (h : ∀ a ∈ attributes, a.gap = [space] ∧ ∀ rest, a.Stands rest) (rest : Bytes) :
    StartTag.readAttributes (spaced attributes ++ rest) =
      (attributes ++ (StartTag.readAttributes rest).1, (StartTag.readAttributes rest).2) := by
  induction attributes with
  | nil => rfl
  | cons a attributes ih =>
    rw [List.forall_mem_cons] at h
    have hsplit : Attribute.split? (spaced (a :: attributes) ++ rest) =
        some (a, spaced attributes ++ rest) := by
      refine Attribute.split?_eq_some_iff.2 ⟨?_, h.1.2 _⟩
      rw [h.1.1, spaced, List.flatMap_cons, List.append_assoc]
      rfl
    rw [StartTag.readAttributes_of_some hsplit, ih h.2]
    rfl

private theorem balanced_spaced {attributes : List Attribute}
    (h : ∀ a ∈ attributes, Balanced a.written) : Balanced (spaced attributes) := by
  induction attributes with
  | nil => exact .nil
  | cons a attributes ih =>
    rw [List.forall_mem_cons] at h
    rw [spaced, List.flatMap_cons]
    exact .plain rfl (by decide) (h.1.append_iff.2 (ih h.2))

private theorem quotedAttribute_spec {name text : Bytes}
    (hname : name ∈ [utf8 "id", utf8 "class"]) (htext : doubleQuote ∉ text) :
    ((quotedAttribute name text).gap = [space] ∧ ∀ rest, (quotedAttribute name text).Stands rest) ∧
      Balanced (quotedAttribute name text).written ∧ isReplacedName name = true ∧
      sameIgnoringCase name (utf8 "style") = false := by
  have hid : utf8 "id" = [0x69, 0x64] := rfl
  have hclass : utf8 "class" = [0x63, 0x6C, 0x61, 0x73, 0x73] := rfl
  have hplain : (∃ first tail, name = first :: tail ∧ isGap first = false ∧
        ∀ b ∈ tail, isNameTail b = true) ∧ ∀ b ∈ name, isQuote b = false ∧ b ≠ greaterThan := by
    rw [hid, hclass, List.mem_cons, List.mem_singleton] at hname
    rcases hname with rfl | rfl <;>
      exact ⟨⟨_, _, rfl, by decide, by decide +kernel⟩, by decide +kernel⟩
  have hvalue : Balanced (equals :: (doubleQuote :: text ++ [doubleQuote])) :=
    .plain rfl (by decide) (.quoted rfl htext .nil)
  have hwritten : (quotedAttribute name text).written =
      name ++ equals :: (doubleQuote :: text ++ [doubleQuote]) := by
    simp [quotedAttribute, Attribute.written, Value.written, Value.lead, Quoting.opening,
      Quoting.closing]
  refine ⟨⟨rfl, fun rest => ⟨?_, hplain.1, ?_, ?_⟩⟩, ?_, ?_⟩
  · rw [quotedAttribute, List.forall_mem_singleton]
    rfl
  · intro hnone
    cases hnone
  · rintro v ⟨⟩
    exact ⟨by simp, by simp, .closed rfl htext⟩
  · rw [hwritten]
    exact (balanced_plain hplain.2).append_iff.2 hvalue
  · rw [List.mem_cons, List.mem_singleton] at hname
    rcases hname with rfl | rfl <;> decide

private theorem not_mem_getD {b : UInt8} {value : Option Bytes} (h : ∀ s ∈ value, b ∉ s) :
    b ∉ value.getD [] := by
  cases value with
  | none => exact List.not_mem_nil
  | some s => exact h s rfl

namespace StyledTag

variable {t : StyledTag} (scope : Bytes)

private theorem added_spec (h : t.tag.Requotable) : ∀ a ∈ t.added scope,
    (a.gap = [space] ∧ ∀ rest, a.Stands rest) ∧ Balanced a.written ∧
      isReplacedName a.name = true ∧ sameIgnoringCase a.name (utf8 "style") = false := by
  have hid : doubleQuote ∉ t.draft.id := not_mem_getD h.id
  have hclasses : doubleQuote ∉ t.draft.classes := not_mem_getD h.classes
  have hclass := @doubleQuote_not_mem_classAttribute scope t.number t.draft hid hclasses
  intro a ha
  rw [added, List.mem_append, List.mem_singleton] at ha
  rcases ha with ha | rfl
  · split at ha
    · cases ha
    · rw [List.mem_singleton] at ha
      subst ha
      exact quotedAttribute_spec (by simp) hid
  · exact quotedAttribute_spec (by simp) hclass

end StyledTag

/-! ### The rewritten tag -/

/-- What one tag has in common with another: all but its id, its classes and its style. -/
structure StartTag.Keeps (t' t : StartTag) : Prop where
  name : t'.name = t.name
  isSelfClosing : t'.isSelfClosing = t.isSelfClosing
  kept : t'.kept.map Attribute.pair = t.kept.map Attribute.pair

private theorem isReplacedName_of_pairs {attributes moved : List Attribute}
    (hpairs : moved.map Attribute.pair = attributes.map Attribute.pair)
    (h : ∀ a ∈ attributes, isReplacedName a.name = false) :
    ∀ a ∈ moved, isReplacedName a.name = false := by
  intro a ha
  have hmem : a.pair ∈ attributes.map Attribute.pair := by
    rw [← hpairs]
    exact List.mem_map_of_mem ha
  obtain ⟨b, hb, heq⟩ := List.mem_map.1 hmem
  have hname : b.name = a.name := congrArg Prod.fst heq
  rw [← hname]
  exact h b hb

namespace StyledTag

variable {t : StyledTag} (scope : Bytes)

/-- The body of the rewritten tag. -/
def rewrittenBody (t : StyledTag) : Bytes :=
  t.tag.name ++ (t.replacement scope ++ t.tag.closing)

section Requotable

variable (hstands : t.tag.Stands) (hbalanced : Balanced t.tag.body) (h : t.tag.Requotable)

include hstands

private theorem region_rewrittenBody : t.replacement scope ++ t.tag.closing =
    spaced (t.added scope) ++ (spaced t.tag.kept ++ t.tag.closing) := by
  have hwritten : ∀ a ∈ t.tag.kept, a.written ≠ [] := by
    intro a ha
    obtain ⟨rest, hrest⟩ := exists_stands_of_mem hstands.attributes a (List.mem_filter.1 ha).1
    exact hrest.written_ne_nil
  rw [replacement_eq_spaced hwritten, List.append_assoc]

include h

/-- What is read in a rewritten tag: the new attributes first, and then what the attributes that it
keeps amount to in front of its closing part. -/
theorem ofBody_rewrittenBody :
    StartTag.ofBody (t.rewrittenBody scope) =
      ⟨t.tag.name,
        t.added scope ++ (StartTag.readAttributes (spaced t.tag.kept ++ t.tag.closing)).1,
        (StartTag.readAttributes (spaced t.tag.kept ++ t.tag.closing)).2⟩ := by
  have hregion := region_rewrittenBody scope hstands
  have hhead : ∀ b ∈ (t.replacement scope ++ t.tag.closing).head?, isGap b = true := by
    rw [hregion, added]
    split <;> (rintro b ⟨⟩; rfl)
  rw [rewrittenBody, StartTag.ofBody_append hstands.name hhead, hregion,
    readAttributes_append fun a ha => (added_spec scope h a ha).1]

include hbalanced

private theorem balanced_kept : ∀ a ∈ t.tag.kept,
    Balanced a.written ∧ ∀ v ∈ a.value, ∀ quote, v.quoting ≠ .unclosed quote := by
  have hspelled : Balanced (t.tag.name ++ (StartTag.spell t.tag.attributes ++ t.tag.trail)) :=
    hbalanced
  obtain ⟨-, hregion⟩ := Balanced.of_plain h.name hspelled
  intro a ha
  exact balanced_attributes hstands.attributes h.names h.unquoted hregion a (List.mem_filter.1 ha).1

private theorem movable_kept : ∀ a ∈ t.tag.kept, a.Movable := by
  intro a ha
  have hmem := (List.mem_filter.1 ha).1
  exact ⟨exists_stands_of_mem hstands.attributes a hmem,
    (balanced_kept hstands hbalanced h a ha).2, h.heads a hmem⟩

theorem balanced_rewrittenBody : Balanced (t.rewrittenBody scope) := by
  have hadded : Balanced (spaced (t.added scope)) :=
    balanced_spaced fun a ha => (added_spec scope h a ha).2.1
  have hkept : Balanced (spaced t.tag.kept) :=
    balanced_spaced fun a ha => (balanced_kept hstands hbalanced h a ha).1
  have hclosing : Balanced t.tag.closing := by
    refine balanced_plain fun b hb => ⟨isQuote_of_isGap (StartTag.isGap_closing t.tag b hb), ?_⟩
    rintro rfl
    exact absurd (StartTag.isGap_closing t.tag _ hb) (by decide)
  obtain ⟨hname, -⟩ := Balanced.of_plain h.name hbalanced
  rw [rewrittenBody, region_rewrittenBody scope hstands]
  exact hname.append_iff.2 (hadded.append_iff.2 (hkept.append_iff.2 hclosing))

theorem attributes_rewrittenBody (hslash : t.tag.SlashApart) :
    ∃ moved, (StartTag.ofBody (t.rewrittenBody scope)).attributes = t.added scope ++ moved ∧
      moved.map Attribute.pair = t.tag.kept.map Attribute.pair ∧
      (StartTag.ofBody (t.rewrittenBody scope)).isSelfClosing = t.tag.isSelfClosing := by
  obtain ⟨moved, trail, hread, hpairs, hclosing⟩ := StartTag.exists_readAttributes_kept
    hstands.attributes (movable_kept hstands hbalanced h) hslash
  rw [ofBody_rewrittenBody scope hstands h, hread]
  refine ⟨moved, rfl, hpairs, ?_⟩
  rw [← StartTag.getLast?_closing t.tag, StartTag.isSelfClosing]
  rcases hclosing with rfl | ⟨rfl, hblanks⟩
  · rfl
  · have hopen : (t.tag.closing.getLast? == some slash) = false := by
      rw [beq_eq_false_iff_ne]
      intro hlast
      exact absurd (hblanks slash (List.mem_of_getLast? hlast)) (by decide)
    rw [hopen]
    rfl

theorem isSelfClosing_of_not_slashApart (hslash : ¬ t.tag.SlashApart) :
    t.tag.isSelfClosing = true ∧
      (StartTag.ofBody (t.rewrittenBody scope)).isSelfClosing = false := by
  refine ⟨(StartTag.closing_of_not_slashApart hslash).1, ?_⟩
  rw [ofBody_rewrittenBody scope hstands h, StartTag.isSelfClosing,
    StartTag.readAttributes_kept_of_not_slashApart hstands.attributes
      (movable_kept hstands hbalanced h) hslash]
  rfl

end Requotable

private theorem keeps_rewrittenBody (hstands : t.tag.Stands) (hbalanced : Balanced t.tag.body)
    (hclean : t.tag.Clean) :
    (StartTag.ofBody (t.rewrittenBody scope)).Keeps t.tag ∧
      (StartTag.ofBody (t.rewrittenBody scope)).style? = none := by
  have h := hclean.toRequotable
  have hadded := added_spec scope h
  obtain ⟨moved, hattributes, hpairs, hself⟩ :=
    attributes_rewrittenBody scope hstands hbalanced h hclean.slashApart
  have hname : (StartTag.ofBody (t.rewrittenBody scope)).name = t.tag.name := by
    rw [ofBody_rewrittenBody scope hstands h]
  have hreplaced : ∀ a ∈ moved, isReplacedName a.name = false :=
    isReplacedName_of_pairs hpairs fun a ha => by simpa using (List.mem_filter.1 ha).2
  refine ⟨⟨hname, hself, ?_⟩, ?_⟩
  · have hnone : (t.added scope).filter (fun a => !isReplacedName a.name) = [] := by
      rw [List.filter_eq_nil_iff]
      intro a ha
      simp [(hadded a ha).2.2.1]
    have hall : moved.filter (fun a => !isReplacedName a.name) = moved := by
      rw [List.filter_eq_self]
      intro a ha
      simp [hreplaced a ha]
    rw [StartTag.kept, hattributes, List.filter_append, hnone, hall]
    exact hpairs
  · have hfind : (t.added scope ++ moved).find?
        (fun a => sameIgnoringCase a.name (utf8 "style")) = none := by
      rw [List.find?_eq_none]
      intro a ha
      rw [Bool.not_eq_true]
      rcases List.mem_append.1 ha with ha | ha
      · exact (hadded a ha).2.2.2
      · have hname := hreplaced a ha
        simp only [isReplacedName, Bool.or_eq_false_iff] at hname
        exact hname.1.1
    rw [StartTag.style?, StartTag.valueOf?, StartTag.find?, hattributes, hfind]
    rfl

theorem fill_replacement :
    t.fill (t.replacement scope) =
      (Segment.tag (StartTag.ofBody (t.rewrittenBody scope))).written := by
  simp [fill, StartTag.withContent, Segment.written, StartTag.written, StartTag.body_ofBody,
    rewrittenBody]

theorem leads_rewrittenBody {first : UInt8} {body rest : Bytes}
    (hletter : isLetter first = true) (hwhole : first :: body = t.tag.body)
    (hstands : t.tag.Stands) (hbalanced : Balanced (t.rewrittenBody scope)) :
    Segment.Leads rest (.tag (StartTag.ofBody (t.rewrittenBody scope))) := by
  have hname : ∃ tail, t.tag.name = first :: tail := by
    rcases List.cons_eq_append_iff.1 hwhole with ⟨-, hregion⟩ | ⟨tail, hname, -⟩
    · have hgap := hstands.separated first (by rw [hregion]; rfl)
      rcases isGap_iff.1 hgap with rfl | rfl | rfl | rfl | rfl | rfl <;> cases hletter
    · exact ⟨tail, hname⟩
  obtain ⟨tail, hname⟩ := hname
  rw [rewrittenBody, hname, List.cons_append] at hbalanced ⊢
  exact .tag hletter hbalanced

/-- What stands for a clean tag is one tag that keeps what the tag had. -/
theorem exists_standsIn {rest : Bytes} (hleads : Segment.Leads rest (.tag t.tag))
    (hclean : t.tag.Clean) :
    ∃ t' last, StandsIn t.tag (t.fill (t.replacement scope)) [.tag t'] last ∧
      (last = .complete ∨ last = .openRawText []) ∧ t'.Keeps t.tag ∧ t'.style? = none := by
  obtain ⟨first, body, hletter, hbody, htag⟩ := hleads.exists_body
  obtain ⟨hwhole, hstands⟩ := StartTag.ofBody_eq_iff.1 htag.symm
  rw [hwhole] at hbody
  obtain ⟨hkeeps, hstyle⟩ := keeps_rewrittenBody scope hstands hbody hclean
  have hbalanced := balanced_rewrittenBody scope hstands hbody hclean.toRequotable
  have hopens : (StartTag.ofBody (t.rewrittenBody scope)).opensRawText = t.tag.opensRawText := by
    rw [StartTag.opensRawText, StartTag.opensRawText, hkeeps.name, hkeeps.isSelfClosing]
  have hleads (rest : Bytes) := @leads_rewrittenBody t scope first body rest hletter hwhole hstands
    hbalanced
  have hsegment {segments : List Segment} {last : Ending}
      (h : Segmentation ((Segment.tag (StartTag.ofBody (t.rewrittenBody scope))).written ++ [])
        segments last) : Segmentation (t.fill (t.replacement scope)) segments last := by
    rwa [List.append_nil, ← fill_replacement] at h
  cases hraw : t.tag.opensRawText with
  | false =>
    have hnone : Document.rawTextName? (.tag (StartTag.ofBody (t.rewrittenBody scope))) = none := by
      rw [Document.rawTextName?, hopens, hraw]
      rfl
    refine ⟨_, _, .complete hraw (hsegment ?_), .inl rfl, hkeeps, hstyle⟩
    exact .segment (hleads []) hnone (.tail .complete)
  | true =>
    have hsome : Document.rawTextName? (.tag (StartTag.ofBody (t.rewrittenBody scope))) =
        some t.tag.name := by
      rw [Document.rawTextName?, hopens, hraw, if_pos rfl, hkeeps.name]
    refine ⟨_, _, .rawText hraw (hsegment (.openRawText (hleads []) hsome ?_)) hsome ?_, .inr rfl,
      hkeeps, hstyle⟩
    · intro u v huv
      rw [(List.append_eq_nil_iff.1 huv.symm).2]
      rfl
    · rw [sameIgnoringCase, beq_iff_eq]

end StyledTag

end StyleHoist
