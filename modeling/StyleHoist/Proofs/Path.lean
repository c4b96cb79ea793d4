import Mathlib.Data.List.TakeWhile
import StyleHoist.Files.Path
import StyleHoist.Proofs.Characters
import StyleHoist.Proofs.Words

/-!
Names beside a document.  A file that is named instead of another one has the directory of that one,
however the path is spelled (`parent_withFileName`).  Main statement: the stylesheet of an HTML
document is a file of its own in the directory of the document, with the name of the document up to
the first dot (`stylesheet_beside`).
-/

set_option autoImplicit false
set_option relaxedAutoImplicit false

namespace StyleHoist.Path

open Ascii

variable {p : Path} {name before extension base : Bytes} {parts : List Bytes} {b : UInt8}

/-! ### Components -/

/-- What can be the last component of a path and names a file. -/
structure IsFileName (name : Bytes) : Prop where
  slash_not_mem : slash ∉ name
  not_idle : isIdle name = false
  not_up : name ≠ [dot, dot]

private theorem slash_not_mem_of_mem (h : name ∈ significantParts p) : slash ∉ name := by
  have hsplit : name ∈ p.splitOn slash :=
    List.mem_reverse.1 ((List.dropWhile_suffix isIdle).subset h)
  intro hslash
  have hapart := (Bytes.mem_of_mem_splitOnP hsplit slash hslash).2
  rw [beq_self_eq_true] at hapart
  cases hapart

private theorem fileName?_of_significantParts (h : significantParts p = name :: parts)
    (hname : IsFileName name) : p.fileName? = some name := by
  simp only [fileName?, h, if_neg hname.not_up]

private theorem significantParts_of_fileName? (h : p.fileName? = some name) :
    ∃ parts, significantParts p = name :: parts ∧ IsFileName name := by
  simp only [fileName?] at h
  split at h
  · cases h
  next part parts hparts =>
    split at h
    · cases h
    next hup =>
      cases h
      refine ⟨parts, hparts, slash_not_mem_of_mem (hparts ▸ List.mem_cons_self), ?_, hup⟩
      have hhead := List.head?_dropWhile_not isIdle (p.splitOn slash).reverse
      rwa [show (p.splitOn slash).reverse.dropWhile isIdle = name :: parts from hparts] at hhead

theorem isFileName_of_fileName? (h : p.fileName? = some name) : IsFileName name := by
  obtain ⟨-, -, hname⟩ := significantParts_of_fileName? h
  exact hname

private theorem splitOn_of_isFileName (hname : IsFileName name) :
    name.splitOn slash = [name] :=
  Bytes.splitOnP_of_not_mem hname.slash_not_mem

private theorem significantParts_of_isFileName (hname : IsFileName name) :
    significantParts name = [name] := by
  simp [significantParts, splitOn_of_isFileName hname, hname.not_idle]

private theorem significantParts_append (directory : Path) (hname : IsFileName name) :
    significantParts (directory ++ slash :: name) =
      name :: (directory.splitOn slash).reverse := by
  have hsplit : (directory ++ slash :: name).splitOn slash = directory.splitOn slash ++ [name] := by
    rw [← splitOn_of_isFileName hname]
    exact List.splitOnP_append_cons directory name (beq_self_eq_true slash)
  rw [significantParts, hsplit, List.reverse_append, List.reverse_singleton,
    List.singleton_append, List.dropWhile_cons_of_neg (by simp [hname.not_idle])]

/-! ### Directories -/

/-- The path to which some components lead, the last one first. -/
private def leading (parts : List Bytes) : Path :=
  match parts.dropWhile isIdle with
  | [] =>
    match parts.getLast? with
    | none => []
    | some lead => if lead = [] then [slash] else lead
  | parts => ofParts parts

private theorem parent_of_significantParts (h : significantParts p = name :: parts) :
    p.parent = leading parts := by
  rw [parent, h]
  rfl

private theorem leading_of_not_idle {part : Bytes} (h : isIdle part = false) :
    leading (part :: parts) = ofParts (part :: parts) := by
  simp only [leading, List.dropWhile_cons, h, Bool.false_eq_true, if_false]

private theorem splitOn_ofParts (hparts : ∀ part ∈ parts, slash ∉ part) (hne : parts ≠ []) :
    (ofParts parts).splitOn slash = parts.reverse := by
  apply List.splitOn_intercalate
  · intro part hpart
    exact hparts part (List.mem_reverse.1 hpart)
  · simpa using hne

private theorem getLast?_splitOn (h : p = [] ∨ p.getLast? = some slash) :
    (p.splitOn slash).getLast? = some [] := by
  rcases h with rfl | hlast
  · rfl
  · obtain ⟨front, rfl⟩ := List.getLast?_eq_some_iff.1 hlast
    have hsplit : (front ++ [slash]).splitOn slash = front.splitOn slash ++ [[]] :=
      List.splitOnP_append_cons front [] (beq_self_eq_true slash)
    rw [hsplit, List.getLast?_append]
    rfl

private theorem child_ofParts {part : Bytes} (hpart : part ≠ [])
    (hparts : ∀ other ∈ part :: parts, slash ∉ other) (name : Bytes) :
    (ofParts (part :: parts)).child name = ofParts (part :: parts) ++ slash :: name := by
  apply if_neg
  intro hopen
  have hlast := getLast?_splitOn hopen
  rw [splitOn_ofParts hparts (List.cons_ne_nil part parts), List.getLast?_reverse] at hlast
  exact hpart (Option.some.inj hlast)

private theorem exists_parts_child (hparts : ∀ part ∈ parts, slash ∉ part)
    (hname : IsFileName name) :
    ∃ others, significantParts ((leading parts).child name) = name :: others ∧
      leading others = leading parts := by
  cases hcut : parts.dropWhile isIdle with
  | nil =>
    -- no directory at all, the root, or a leading dot
    have hidle := List.dropWhile_eq_nil_iff.1 hcut
    cases hlast : parts.getLast? with
    | none =>
      have hleading : leading parts = [] := by simp only [leading, hcut, hlast]
      rw [hleading]
      exact ⟨[], significantParts_of_isFileName hname, rfl⟩
    | some lead =>
      have hleading : leading parts = if lead = [] then [slash] else lead := by
        simp only [leading, hcut, hlast]
      have hlead := hidle lead (List.mem_of_getLast? hlast)
      simp only [isIdle, Bool.or_eq_true, beq_iff_eq] at hlead
      rw [hleading]
      rcases hlead with rfl | rfl
      · exact ⟨[[]], significantParts_append [] hname, rfl⟩
      · exact ⟨[[dot]], significantParts_append [dot] hname, rfl⟩
  | cons part rest =>
    have hidle : isIdle part = false := by
      have hhead := List.head?_dropWhile_not isIdle parts
      rwa [hcut] at hhead
    have hleading : leading parts = ofParts (part :: rest) := by simp only [leading, hcut]
    have hinside : ∀ other ∈ part :: rest, slash ∉ other := by
      intro other hother
      rw [← hcut] at hother
      exact hparts other ((List.dropWhile_suffix isIdle).subset hother)
    have hne : part ≠ [] := by
      rintro rfl
      cases hidle
    refine ⟨part :: rest, ?_, (leading_of_not_idle hidle).trans hleading.symm⟩
    rw [hleading, child_ofParts hne hinside, significantParts_append _ hname,
      splitOn_ofParts hinside (List.cons_ne_nil part rest), List.reverse_reverse]

/-- A file that is named instead of another one is in the same directory. -/
theorem parent_withFileName (hold : p.fileName?.isSome = true) (hname : IsFileName name) :
    (p.withFileName name).parent = p.parent ∧ (p.withFileName name).fileName? = some name := by
  obtain ⟨old, hold⟩ := Option.isSome_iff_exists.1 hold
  obtain ⟨parts, hparts, -⟩ := significantParts_of_fileName? hold
  have hapart : ∀ part ∈ parts, slash ∉ part := fun part hpart =>
    slash_not_mem_of_mem (hparts ▸ List.mem_cons_of_mem old hpart)
  obtain ⟨others, hothers, hleading⟩ := exists_parts_child hapart hname
  have hpath : p.withFileName name = (leading parts).child name := by
    simp only [withFileName, hold, parent_of_significantParts hparts]
  rw [hpath, parent_of_significantParts hothers, parent_of_significantParts hparts]
  exact ⟨hleading, fileName?_of_significantParts hothers hname⟩

/-! ### Names -/

private theorem splitName_eq (name : Bytes) :
    splitName name =
      let behind := name.reverse.dropWhile (· != dot)
      if behind.tail = [] then (name, none)
      else (behind.tail.reverse, some (name.reverse.takeWhile (· != dot)).reverse) := by
  have hcut := @List.takeWhile_append_dropWhile _ (· != dot) name.reverse
  have hbehind := congrArg (List.drop (name.reverse.takeWhile (· != dot)).length) hcut
  rw [List.drop_left] at hbehind
  simp only [splitName, List.length_reverse, ← List.drop_drop, ← hbehind, List.drop_one,
    List.reverse_eq_nil_iff]

/-- A name with an extension is cut at its last dot. -/
theorem splitName_eq_some_iff :
    splitName name = (before, some extension) ↔
      name = before ++ dot :: extension ∧ before ≠ [] ∧ dot ∉ extension := by
  constructor
  · intro h
    rw [splitName_eq] at h
    have hcut := @List.takeWhile_append_dropWhile _ (· != dot) name.reverse
    have hhead := List.head?_dropWhile_not (· != dot) name.reverse
    have hdot : dot ∉ name.reverse.takeWhile (· != dot) := by
      intro hmem
      simpa using List.mem_takeWhile_imp hmem
    rcases hbehind : name.reverse.dropWhile (· != dot) with _ | ⟨first, front⟩
    · simp [hbehind] at h
    · rw [hbehind] at hcut hhead
      obtain rfl : first = dot := by simpa using hhead
      by_cases hfront : front = []
      · simp [hbehind, hfront] at h
      · simp only [hbehind, List.tail_cons, if_neg hfront, Prod.mk.injEq, Option.some.injEq] at h
        obtain ⟨rfl, rfl⟩ := h
        refine ⟨?_, by simpa using hfront, by simpa using hdot⟩
        simpa using (congrArg List.reverse hcut).symm
  · rintro ⟨rfl, hbefore, hextension⟩
    have hreverse : (before ++ dot :: extension).reverse =
        extension.reverse ++ dot :: before.reverse := by simp
    have hpass : ∀ b ∈ extension.reverse, (b != dot) = true := by
      intro b hb
      exact bne_iff_ne.2 (ne_of_mem_of_not_mem (List.mem_reverse.1 hb) hextension)
    rw [splitName_eq, hreverse, List.takeWhile_append_of_pos hpass,
      List.dropWhile_append_of_pos hpass]
    simp [hbefore]

private theorem mem_of_mem_stem (h : b ∈ (splitName name).1) : b ∈ name := by
  simp only [splitName] at h
  split at h
  · exact h
  · exact List.mem_reverse.1 (List.drop_subset _ _ (List.mem_reverse.1 h))

theorem exists_of_isHtml (h : p.isHtml = true) :
    ∃ name before extension, p.fileName? = some name ∧ IsFileName name ∧
      name = before ++ dot :: extension ∧ before ≠ [] := by
  cases hname : p.fileName? with
  | none => simp [isHtml, extension?, hname] at h
  | some name =>
    rcases hsplit : splitName name with ⟨before, _ | extension⟩
    · simp [isHtml, extension?, hname, hsplit] at h
    · obtain ⟨hcut, hbefore, -⟩ := splitName_eq_some_iff.1 hsplit
      exact ⟨name, before, extension, rfl, isFileName_of_fileName? hname, hcut, hbefore⟩

/-! ### Stylesheets -/

theorem stylesheetBase_spec (hname : p.fileName? = some name) :
    p.stylesheetBase ≠ [] ∧ slash ∉ p.stylesheetBase ∧ p.stylesheetBase.head? ≠ some dot := by
  have hslash : slash ∉ name := (isFileName_of_fileName? hname).slash_not_mem
  simp only [stylesheetBase, stem?, hname, Option.map_some, Option.getD_some]
  split
  next hbase =>
    refine ⟨hbase, fun h => hslash ?_, ?_⟩
    · exact Utf8.mem_of_mem_repaired (by decide) ((List.takeWhile_prefix _).subset h)
    · simp [List.head?_takeWhile, Option.filter_eq_some_iff]
  split
  next hstem =>
    refine ⟨hstem, fun h => hslash ?_, fun h => ?_⟩
    · exact mem_of_mem_stem
        (Utf8.mem_of_mem_repaired (by decide) ((List.dropWhile_suffix _).subset h))
    · have hhead := List.head?_dropWhile_not (· == dot) (Utf8.repaired (splitName name).1)
      simp [h] at hhead
  · decide

theorem stylesheetBase_eq (hname : p.fileName? = some (before ++ dot :: extension))
    (hbefore : before ≠ []) (hdot : dot ∉ before) :
    p.stylesheetBase = Utf8.repaired before := by
  have hpass : ∀ b ∈ Utf8.repaired before, (b != dot) = true := by
    intro b hb
    rw [bne_iff_ne]
    rintro rfl
    exact hdot (Utf8.mem_of_mem_repaired (by decide) hb)
  have htake : (Utf8.repaired (before ++ dot :: extension)).takeWhile (· != dot) =
      Utf8.repaired before := by
    rw [Utf8.repaired_append_cons (by decide), List.takeWhile_append_of_pos hpass]
    simp
  have hne : Utf8.repaired before ≠ [] := fun h => hbefore (Utf8.repaired_eq_nil_iff.1 h)
  simp only [stylesheetBase, hname, Option.getD_some, htake, if_pos hne]

private theorem isFileName_append_css (hslash : slash ∉ base) :
    IsFileName (base ++ utf8 ".css") := by
  have hlength : (base ++ utf8 ".css").length = base.length + 4 := List.length_append
  refine ⟨?_, ?_, ?_⟩
  · rw [List.mem_append, not_or]
    exact ⟨hslash, by decide⟩
  · rw [isIdle, Bool.or_eq_false_iff, beq_eq_false_iff_ne, beq_eq_false_iff_ne]
    constructor <;> intro h <;> simp [h] at hlength
  · intro h
    simp [h] at hlength

/-- The stylesheet of an HTML document is a file beside it that is none. -/
theorem stylesheet_beside (h : p.isHtml = true) :
    ∃ name base, p.fileName? = some name ∧
      p.stylesheet.parent = p.parent ∧
      p.stylesheet.fileName? = some (base ++ utf8 ".css") ∧
      base ≠ [] ∧ slash ∉ base ∧ base.head? ≠ some dot ∧
      (name.head? ≠ some dot → dot ∉ base ∧ ∃ rest, Utf8.repaired name = base ++ dot :: rest) ∧
      p.stylesheet.isHtml = false ∧ p.stylesheet.fileName? ≠ some name ∧ p.stylesheet ≠ p := by
  obtain ⟨name, front, last, hname, -, hcut, -⟩ := exists_of_isHtml h
  obtain ⟨hne, hslash, hhidden⟩ := stylesheetBase_spec hname
  obtain ⟨hparent, hfile⟩ :=
    @parent_withFileName p _ (hname ▸ rfl) (isFileName_append_css hslash)
  have hextension : splitName (p.stylesheetBase ++ utf8 ".css") =
      (p.stylesheetBase, some (utf8 "css")) :=
    splitName_eq_some_iff.2 ⟨rfl, hne, by decide⟩
  have hother : p.stylesheet.isHtml = false := by
    rw [isHtml, extension?, stylesheet, hfile, Option.bind_some, hextension]
    show htmlExtensions.any (sameIgnoringCase (Utf8.repaired (utf8 "css")) ·) = false
    decide +kernel
  refine ⟨name, p.stylesheetBase, hname, hparent, hfile, hne, hslash, hhidden, ?_, hother, ?_, ?_⟩
  · intro hhead
    have hdot : dot ∈ name := hcut ▸ List.mem_append_right front List.mem_cons_self
    obtain ⟨before, rest, rfl, hbefore⟩ := List.eq_append_cons_of_mem hdot
    have hsome : before ≠ [] := by
      rintro rfl
      exact hhead rfl
    rw [stylesheetBase_eq hname hsome hbefore, Utf8.repaired_append_cons (by decide)]
    exact ⟨fun hmem => hbefore (Utf8.mem_of_mem_repaired (by decide) hmem), _, rfl⟩
  · intro hsame
    have hsplit : p.stylesheet.isHtml = p.isHtml := by
      rw [isHtml, isHtml, extension?, extension?, hsame, hname]
    rw [hother, h] at hsplit
    cases hsplit
  · intro hsame
    rw [hsame, h] at hother
    cases hother

theorem stylesheet_beside_folded :
    let p : Path := utf8 "a/..//b.min.HtM/./"
    p.isHtml = true ∧ p.stylesheet = utf8 "a/../b.css" ∧ p.stylesheet.parent = p.parent ∧
      p.stylesheet.isHtml = false ∧ p.stylesheet ≠ p := by
  intro p
  have hhtml : p.isHtml = true := by decide +kernel
  obtain ⟨name, base, -, hparent, -, -, -, -, -, hother, -, hne⟩ := stylesheet_beside hhtml
  exact ⟨hhtml, by decide +kernel, hparent, hother, hne⟩

example : ([".hidden.html", "...html", "/x/.a.b.htm//"].map fun s => stylesheet (utf8 s)) =
    ["hidden.css", "styles.css", "/x/a.b.css"].map utf8 := by
  decide +kernel

end StyleHoist.Path
