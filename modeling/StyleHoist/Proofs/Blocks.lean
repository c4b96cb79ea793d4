import StyleHoist.Proofs.Reading
import StyleHoist.Proofs.Selection

/-!
Generated stylesheets read back.  A reader takes the selector of a block up to the first opening
brace and the declarations up to the first closing one.  It gets back what was written unless a text
brings along the brace that ends its part: names and styles are written as they were.  Main
statement: the exact condition on records under which their stylesheet reads back as their rules
(`read_css_iff`).
-/

set_option autoImplicit false
set_option relaxedAutoImplicit false

namespace StyleHoist

open Ascii

namespace Stylesheet

/-- The part before the first byte of a value, and the text behind a delimiter that must follow. -/
def readTo? (stop : UInt8) (delimiter s : Bytes) : Option (Bytes × Bytes) :=
  match s.dropWhile (· != stop) with
  | [] => none
  | _ :: rest =>
    if delimiter.isPrefixOf rest then
      some (s.takeWhile (· != stop), rest.drop delimiter.length)
    else none

/-- The selector and the declarations of the first block, and the text behind it. -/
def readBlock? (css : Bytes) : Option ((Bytes × Bytes) × Bytes) := do
  let (selector, rest) ← readTo? openBrace (utf8 "\n") css
  let (declarations, rest) ← readTo? closeBrace (utf8 "\n\n") rest
  return ((selector, declarations), rest)

theorem readTo?_eq_some_iff {stop : UInt8} {delimiter s part rest : Bytes} :
    readTo? stop delimiter s = some (part, rest) ↔
      s = part ++ stop :: (delimiter ++ rest) ∧ stop ∉ part := by
  constructor
  · intro h
    rw [readTo?] at h
    split at h
    · cases h
    next b behind hdrop =>
      split at h
      next hdelimiter =>
        obtain ⟨tail, rfl⟩ := List.isPrefixOf_iff_prefix.1 hdelimiter
        rw [List.drop_left] at h
        cases h
        obtain rfl : b = stop := by simpa using Bytes.stop_of_dropWhile_cons hdrop
        refine ⟨?_, fun hmem => ?_⟩
        · rw [← hdrop, List.takeWhile_append_dropWhile]
        · simpa using List.all_eq_true.1 List.all_takeWhile b hmem
      · cases h
  · rintro ⟨rfl, hpart⟩
    have hpass : ∀ b ∈ part, (b != stop) = true := fun b hb => by
      simpa using ne_of_mem_of_not_mem hb hpart
    have hstop : ∀ b ∈ (stop :: (delimiter ++ rest)).head?, (b != stop) = false := by simp
    rw [readTo?, Bytes.dropWhile_append_stop hpass hstop, Bytes.takeWhile_append_stop hpass hstop]
    simp

theorem readBlock?_eq_some_iff {css selector declarations rest : Bytes} :
    readBlock? css = some ((selector, declarations), rest) ↔
      css = selector ++ utf8 "\x7b\n" ++ declarations ++ utf8 "\x7d\n\n" ++ rest ∧
        openBrace ∉ selector ∧ closeBrace ∉ declarations := by
  have hopen : utf8 "\x7b\n" = openBrace :: utf8 "\n" := rfl
  have hclose : utf8 "\x7d\n\n" = closeBrace :: utf8 "\n\n" := rfl
  simp only [readBlock?, Option.bind_eq_bind, Option.bind_eq_some_iff, Prod.exists,
    readTo?_eq_some_iff, Option.pure_def, Option.some.injEq, Prod.mk.injEq, hopen, hclose,
    List.append_assoc, List.cons_append]
  constructor
  · rintro ⟨_, _, ⟨rfl, hselector⟩, _, _, ⟨rfl, hdeclarations⟩, ⟨rfl, rfl⟩, rfl⟩
    exact ⟨rfl, hselector, hdeclarations⟩
  · rintro ⟨rfl, hselector, hdeclarations⟩
    exact ⟨_, _, ⟨rfl, hselector⟩, _, _, ⟨rfl, hdeclarations⟩, ⟨rfl, rfl⟩, rfl⟩

theorem length_lt_of_readBlock? {css rest : Bytes} {block : Bytes × Bytes}
    (h : readBlock? css = some (block, rest)) : rest.length < css.length := by
  obtain ⟨rfl, -⟩ := readBlock?_eq_some_iff.1 h
  simp only [List.length_append, show (utf8 "\x7d\n\n").length = 3 from rfl]
  omega

/-- The blocks of a stylesheet, and what is left where the next one cannot be read. -/
def read (css : Bytes) : List (Bytes × Bytes) × Bytes :=
  match _h : readBlock? css with
  | none => ([], css)
  | some (block, rest) =>
    let (blocks, last) := read rest
    (block :: blocks, last)
termination_by css.length
decreasing_by exact length_lt_of_readBlock? _h

theorem read_nil : read [] = ([], []) := by
  rw [read]
  rfl

theorem read_of_readBlock? {css rest : Bytes} {block : Bytes × Bytes}
    (h : readBlock? css = some (block, rest)) :
    read css = (block :: (read rest).1, (read rest).2) := by
  rw [read]
  split <;> simp_all

theorem of_mem_read {css : Bytes} {block : Bytes × Bytes} (h : block ∈ (read css).1) :
    openBrace ∉ block.1 ∧ closeBrace ∉ block.2 := by
  fun_induction read css with
  | case1 => cases h
  | case2 css first rest hfirst blocks last hrest ih =>
    rcases List.mem_cons.1 h with rfl | h
    · exact (readBlock?_eq_some_iff.1 hfirst).2
    · rw [hrest] at ih
      exact ih h

end Stylesheet

/-! ### Rules -/

namespace Rule

/-- What a reader is to get from the block of a rule. -/
def parts (rule : Rule) : Bytes × Bytes := (rule.selector, rule.declarations)

/-- Whether no part of a block holds the brace that ends it. -/
def Confined (rule : Rule) : Prop :=
  openBrace ∉ rule.selector ∧ closeBrace ∉ rule.declarations

end Rule

section Rules

variable {rules : List Rule} {count : Nat}

/-- Confined blocks are read back, and what follows them is read as it is on its own. -/
theorem read_append (h : ∀ rule ∈ rules, rule.Confined) (rest : Bytes) :
    Stylesheet.read (rules.flatMap Rule.block ++ rest) =
      (rules.map Rule.parts ++ (Stylesheet.read rest).1, (Stylesheet.read rest).2) := by
  induction rules with
  | nil => rfl
  | cons rule rules ih =>
    obtain ⟨⟨hselector, hdeclarations⟩, hrules⟩ := List.forall_mem_cons.1 h
    have hblock : Stylesheet.readBlock? (rule.block ++ (rules.flatMap Rule.block ++ rest)) =
        some (rule.parts, rules.flatMap Rule.block ++ rest) :=
      Stylesheet.readBlock?_eq_some_iff.2 ⟨rfl, hselector, hdeclarations⟩
    rw [List.flatMap_cons, List.append_assoc, Stylesheet.read_of_readBlock? hblock, ih hrules]
    rfl

theorem take_read_iff :
    (Stylesheet.read (rules.flatMap Rule.block)).1.take count = (rules.map Rule.parts).take count ↔
      ∀ rule ∈ rules.take count, rule.Confined := by
  constructor
  · intro h rule hrule
    have hmem : rule.parts ∈ (rules.map Rule.parts).take count := by
      rw [← List.map_take]
      exact List.mem_map_of_mem hrule
    rw [← h] at hmem
    exact Stylesheet.of_mem_read (List.mem_of_mem_take hmem)
  · intro h
    have hread := read_append h ((rules.drop count).flatMap Rule.block)
    rw [← List.flatMap_append, List.take_append_drop] at hread
    rw [hread, ← List.map_take]
    rcases Nat.le_total count rules.length with hle | hle
    · exact List.take_left' (by simp [hle])
    · simp [List.drop_eq_nil_of_le hle, Stylesheet.read_nil, List.take_of_length_le, hle]

theorem read_eq_iff :
    Stylesheet.read (rules.flatMap Rule.block) = (rules.map Rule.parts, []) ↔
      ∀ rule ∈ rules, rule.Confined := by
  constructor
  · intro h
    have htake := @take_read_iff rules rules.length
    rw [h, List.take_length] at htake
    exact htake.1 rfl
  · intro h
    have hread := read_append h []
    rwa [List.append_nil, Stylesheet.read_nil, List.append_nil] at hread

end Rules

/-! ### Records -/

namespace Record

/-- Whether no text of a record holds a brace that would end a part of its block: the style a
closing one, and the classes, or the id in place of them, an opening one. -/
def Confined (r : Record) : Prop :=
  closeBrace ∉ r.style ∧ openBrace ∉ r.classes ∧ (words r.classes = [] → openBrace ∉ r.id)

instance (r : Record) : Decidable r.Confined :=
  inferInstanceAs (Decidable (_ ∧ _ ∧ (_ → _)))

variable {scope : Bytes} {number : Nat} {r : Record}

private theorem openBrace_not_mem_selector_iff :
    openBrace ∉ (r.rule scope number).selector ↔
      openBrace ∉ r.classes ∧ (words r.classes = [] → openBrace ∉ r.id) := by
  have hkey : ∀ b ∈ r.key scope number, b ≠ openBrace := fun _ hb =>
    ne_of_mem_of_not_mem hb (not_mem_key (by decide) (by decide +kernel) scope number r)
  have hselector : openBrace ∉ (r.rule scope number).selector ↔
      ∀ name ∈ r.classNames scope number, ∀ b ∈ name, b ≠ openBrace := by
    simp only [Rule.selector, rule, List.mem_flatMap, List.mem_cons, not_exists, not_and, not_or]
    exact ⟨fun h name hname b hb heq => (h name hname).2 (heq ▸ hb),
      fun h name hname => ⟨by decide, fun hb => h name hname _ hb rfl⟩⟩
  have hnone (s : Bytes) : (∀ b ∈ s, b ≠ openBrace) ↔ openBrace ∉ s :=
    ⟨fun h hmem => h _ hmem rfl, fun h _ hb => ne_of_mem_of_not_mem hb h⟩
  have hclasses : (∀ b ∈ r.classes, isBlank b = false → b ≠ openBrace) ↔
      openBrace ∉ r.classes :=
    ⟨fun h hmem => h _ hmem (by decide) rfl, fun h _ hb _ => ne_of_mem_of_not_mem hb h⟩
  rw [hselector, forall_mem_classNames_iff hkey, hclasses, hnone]

private theorem closeBrace_mem_breakDeclarations {style : Bytes} :
    closeBrace ∈ breakDeclarations style ↔ closeBrace ∈ style := by
  simp only [breakDeclarations, List.mem_flatMap]
  constructor
  · rintro ⟨b, hb, hmem⟩
    split at hmem
    next hsemicolon =>
      subst hsemicolon
      exact absurd hmem (by decide)
    · rwa [List.mem_singleton.1 hmem]
  · intro h
    exact ⟨closeBrace, h, by decide⟩

theorem confined_rule_iff : (r.rule scope number).Confined ↔ r.Confined := by
  have hstyle : closeBrace ∉ (r.rule scope number).declarations ↔ closeBrace ∉ r.style :=
    not_congr closeBrace_mem_breakDeclarations
  rw [Rule.Confined, Confined, openBrace_not_mem_selector_iff, hstyle, and_comm]

end Record

/-! ### Stylesheets -/

/-- Declarations without the line feed behind each semicolon. -/
def joinDeclarations : Bytes → Bytes
  | b :: c :: s =>
    if b = semicolon ∧ c = lineFeed then b :: joinDeclarations s else b :: joinDeclarations (c :: s)
  | s => s

theorem joinDeclarations_breakDeclarations (style : Bytes) :
    joinDeclarations (breakDeclarations style) = style := by
  have hother {b : UInt8} (hb : b ≠ semicolon) (s : Bytes) :
      joinDeclarations (b :: s) = b :: joinDeclarations s := by
    cases s <;> simp [joinDeclarations, hb]
  induction style with
  | nil => rfl
  | cons b style ih =>
    rw [breakDeclarations, List.flatMap_cons, ← breakDeclarations]
    split
    next hb => simp [joinDeclarations, hb, ih]
    next hb => rw [List.singleton_append, hother hb, ih]

section Stylesheets

variable {scope : Bytes} {records : List Record}

private theorem map_rulesOf {α : Type} {f : Rule → α} {g : Record → α}
    (h : ∀ r number, f (r.rule scope number) = g r) :
    (rulesOf scope records).map f = records.map g := by
  rw [rulesOf, List.map_map]
  conv_rhs => rw [← List.zipIdx_map_fst 1 records, List.map_map]
  exact List.map_congr_left fun p _ => h p.1 p.2

private theorem take_rulesOf (count : Nat) :
    (rulesOf scope records).take count = rulesOf scope (records.take count) := by
  apply List.ext_getElem?
  intro i
  rw [getElem?_rulesOf, List.getElem?_take, List.getElem?_take, getElem?_rulesOf]
  split <;> rfl

private theorem confined_rulesOf_iff :
    (∀ rule ∈ rulesOf scope records, rule.Confined) ↔ ∀ r ∈ records, r.Confined := by
  have hconfined : (rulesOf scope records).map Rule.Confined = records.map Record.Confined :=
    map_rulesOf fun _ _ => propext Record.confined_rule_iff
  have hforall : (∀ p ∈ (rulesOf scope records).map Rule.Confined, p) ↔
      ∀ p ∈ records.map Record.Confined, p := by rw [hconfined]
  rwa [List.forall_mem_map, List.forall_mem_map] at hforall

private theorem map_joinDeclarations_rulesOf :
    (rulesOf scope records).map (fun rule => joinDeclarations rule.declarations) =
      records.map Record.style := by
  rw [rulesOf, List.map_map]
  conv_rhs => rw [← List.zipIdx_map_fst 1 records, List.map_map]
  exact List.map_congr_left fun p _ => joinDeclarations_breakDeclarations p.1.style

end Stylesheets

/-- A stylesheet reads back as the rules of some records just if none of them has a closing brace in
its style or an opening one in its classes, or in the id that stands in for them; and each style is
what the declarations of its rule were made of. -/
theorem read_css_iff {mode : Mode} {stamp : Stamp} {text scope marked : Bytes} {result : Rewrite}
    (hrewrite : rewrite scope marked (scan mode stamp text).records = .ok result) :
    let records := (scan mode stamp text).records
    let blocks := result.rules.map fun rule => (rule.selector, rule.declarations)
    (∀ count, (Stylesheet.read result.css).1.take count = blocks.take count ↔
      ∀ r ∈ records.take count, r.Confined) ∧
    (Stylesheet.read result.css = (blocks, []) ↔ ∀ r ∈ records, r.Confined) ∧
    result.rules.map (fun rule => joinDeclarations rule.declarations) =
      (Extraction.ofText text).styledTags.map StyledTag.style := by
  intro records blocks
  have hrules : result.rules = rulesOf scope records := rules_of_rewrite hrewrite
  have hcss : result.css = result.rules.flatMap Rule.block := rfl
  refine ⟨fun count => ?_, ?_, ?_⟩
  · rw [← confined_rulesOf_iff, ← take_rulesOf, ← hrules]
    exact take_read_iff
  · rw [← confined_rulesOf_iff, ← hrules]
    exact read_eq_iff
  · rw [hrules, map_joinDeclarations_rulesOf]
    simp only [records, records_scan, List.map_map]
    rfl

theorem read_css_paragraph :
    let text := utf8 "<p style=\"a;b\"><i id=x style='c'>"
    let records := (scan .strict (Stamp.ofSeed 0) text).records
    ∃ marked result, rewrite [] marked records = .ok result ∧
      Stylesheet.read result.css =
        ([(utf8 ".p_line_1_1", utf8 "a;\nb"), (utf8 ".x", utf8 "c")], []) := by
  intro text records
  let stamp := Stamp.ofSeed 0
  have hrecords : records =
      [⟨utf8 "p", [], [], utf8 "a;b", [], 1, stamp.token 1⟩,
        ⟨utf8 "i", utf8 "x", [], utf8 "c", [], 1, stamp.token 2⟩] := by
    refine (records_scan .strict stamp text).trans ?_
    decide +kernel
  let marked := utf8 "<p" ++ stamp.token 1 ++ utf8 "><i" ++ stamp.token 2 ++ utf8 ">"
  have hrewrite : rewrite [] marked records =
      .ok ⟨utf8 "<p class=\"p_line_1_1\"><i id=\"x\" class=\"x\">", rulesOf [] records⟩ := by
    rw [hrecords]
    decide +kernel
  have hconfined : ∀ r ∈ records, r.Confined := by
    rw [hrecords]
    decide +kernel
  refine ⟨marked, _, hrewrite, ((read_css_iff hrewrite).2.1.2 hconfined).trans ?_⟩
  rw [hrecords]
  decide +kernel

/-- An id with an opening brace ends its own selector, so not even the first block is read. -/
theorem opening_id_not_read :
    let text := utf8 "<p id=\"a\x7bb\" style=\"c\">"
    let scanned := scan .strict (Stamp.ofSeed 0) text
    ∃ marked result, scanned.marked = .ok marked ∧
      rewrite [] marked scanned.records = .ok result ∧
      Stylesheet.read result.css = ([], result.css) ∧
      Stylesheet.read result.css ≠ (result.rules.map Rule.parts, []) := by
  intro text scanned
  let stamp := Stamp.ofSeed 0
  have hrecords : scanned.records =
      [⟨utf8 "p", utf8 "a\x7bb", [], utf8 "c", [], 1, stamp.token 1⟩] := by
    refine (records_scan .strict stamp text).trans ?_
    decide +kernel
  let marked := utf8 "<p" ++ stamp.token 1 ++ utf8 ">"
  have hmarked : scanned.marked = .ok marked :=
    (marked_of_error? stamp (by decide +kernel)).trans (congrArg _ (by decide +kernel))
  have hrewrite : rewrite [] marked scanned.records =
      .ok ⟨utf8 "<p id=\"a\x7bb\" class=\"a\x7bb\">", rulesOf [] scanned.records⟩ := by
    rw [hrecords]
    decide +kernel
  refine ⟨marked, _, hmarked, hrewrite, ?_, ?_⟩
  · rw [hrecords]
    decide +kernel
  · rw [hrecords]
    decide +kernel

-- A style that closes its block and opens another one: one record, two blocks.
example :
    let r : Record := ⟨utf8 "p", [], [], utf8 "\x7d\n\ni\x7b\nx", [], 1, []⟩
    Stylesheet.read (r.rule [] 1).block =
      ([(utf8 ".p_line_1_1", []), (utf8 "i", utf8 "x")], []) := by
  decide +kernel

end StyleHoist
