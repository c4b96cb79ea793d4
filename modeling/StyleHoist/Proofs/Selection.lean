import Mathlib.Data.List.Nodup
import StyleHoist.Proofs.Direct
import StyleHoist.Proofs.Key

/-!
Which rewritten tags a rule selects.  A tag has the class names of its own rule, and of these only
the generated key is not taken from the text.  A key ends with the number of its record, so a rule
selects another tag only through names that the other tag had in the text: through an id that is
used as a class, or a class that looks like a key.  Main statements: the exact condition under which
a selector asks for just the classes of its own tag (`Record.selector_spells_classes_iff`), and that
on the ids and classes of two records under which the rule of one selects the tag of the other
(`selects_iff`).
-/

set_option autoImplicit false
set_option relaxedAutoImplicit false

namespace StyleHoist

open Ascii

namespace Rule

/-- The class names that the selector asks for: those between its dots. -/
def conditions (rule : Rule) : List Bytes := (rule.selector.splitOnP (· == dot)).tail

/-- Whether a rule selects the tag that is rewritten with another rule. -/
def Selects (rule other : Rule) : Prop :=
  ∀ name ∈ rule.conditions, name ∈ words other.classAttribute

instance (rule other : Rule) : Decidable (rule.Selects other) :=
  inferInstanceAs (Decidable (∀ name ∈ rule.conditions, name ∈ words other.classAttribute))

theorem conditions_eq (rule : Rule) :
    rule.conditions = rule.names.flatMap (·.splitOnP (· == dot)) := by
  have h := Bytes.splitOnP_append_flatMap (p := (· == dot)) (c := dot) (by decide) [] rule.names
  rw [List.nil_append, List.splitOnP_nil, List.singleton_append] at h
  rw [conditions, selector, h, List.tail_cons]

end Rule

namespace Record

/-- The class names that a rewritten tag has from the text: the classes that it had, or in place of
them its id. -/
def sourceNames (r : Record) : List Bytes :=
  match words r.classes with
  | [] => if r.id = [] then [] else [r.id]
  | words => words

/-- Whether a rewritten tag gets a key.  Only an id in place of classes makes up for one. -/
def HasKey (r : Record) : Prop := words r.classes ≠ [] ∨ r.id = []

instance (r : Record) : Decidable r.HasKey :=
  inferInstanceAs (Decidable (words r.classes ≠ [] ∨ r.id = []))

/-- The names from the text as a class attribute spells them: an id with blanks is several. -/
def sourceWords (r : Record) : List Bytes := r.sourceNames.flatMap words

/-- The names from the text as a selector spells them: a name with dots is several. -/
def sourceConditions (r : Record) : List Bytes := r.sourceNames.flatMap (·.splitOnP (· == dot))

/-- No id is that of two records. -/
def DistinctIds (records : List Record) : Prop :=
  ((records.map Record.id).filter (· ≠ [])).Nodup

instance (records : List Record) : Decidable (DistinctIds records) :=
  inferInstanceAs (Decidable ((records.map Record.id).filter (· ≠ [])).Nodup)

variable {scope : Bytes} {m n number : Nat} {r other : Record} {name : Bytes}

theorem DistinctIds.id_eq_nil {records : List Record} (h : DistinctIds records) {i j : Nat}
    (hne : i ≠ j) (hr : records[i]? = some r) (hother : records[j]? = some other)
    (hsame : r.id = other.id) : r.id = [] := by
  obtain ⟨hi, rfl⟩ := List.getElem?_eq_some_iff.1 hr
  obtain ⟨hj, rfl⟩ := List.getElem?_eq_some_iff.1 hother
  rw [DistinctIds, List.Nodup, List.pairwise_filter, List.pairwise_map,
    List.pairwise_iff_getElem] at h
  by_cases hid : records[i].id = []
  · exact hid
  have hid' : records[j].id ≠ [] := hsame ▸ hid
  rcases Nat.lt_or_gt_of_ne hne with hlt | hgt
  · exact absurd hsame (h i j hi hj hlt (decide_eq_true hid) (decide_eq_true hid'))
  · exact absurd hsame.symm (h j i hj hi hgt (decide_eq_true hid') (decide_eq_true hid))

theorem classNames_eq (scope : Bytes) (number : Nat) (r : Record) :
    r.classNames scope number = r.sourceNames ++ if r.HasKey then [r.key scope number] else [] := by
  unfold classNames sourceNames
  split
  next hwords => by_cases hid : r.id = [] <;> simp [HasKey, hwords, hid]
  next hwords =>
    have hkey : r.HasKey := .inl hwords
    simp [hkey]

theorem mem_conditions :
    name ∈ (r.rule scope number).conditions ↔
      name ∈ r.sourceConditions ∨ (r.HasKey ∧ name = r.key scope number) := by
  have hkey := Bytes.splitOnP_of_not_mem (dot_not_mem_key scope number r)
  simp only [Rule.conditions_eq, rule, classNames_eq, List.flatMap_append, List.mem_append,
    sourceConditions]
  split
  next h => simp [hkey, h]
  next h => simp [h]

theorem mem_words_classAttribute :
    name ∈ words (r.rule scope number).classAttribute ↔
      name ∈ r.sourceWords ∨ (r.HasKey ∧ name = r.key scope number) := by
  have hkey : words (r.key scope number) = [r.key scope number] :=
    words_eq_singleton (key_ne_nil scope number r) fun _ hb => isBlank_of_mem_key scope number r hb
  simp only [Rule.classAttribute, words_join, rule, classNames_eq, List.flatMap_append,
    List.mem_append, sourceWords]
  split
  next h => simp [hkey, h]
  next h => simp [h]

/-- A rule selects the tag of another record just if the text gives that tag the key of the rule,
where it has one, and each name of the rule's own, which the key of the tag may be as well. -/
theorem selects_iff_sourceWords (h : m ≠ n) :
    (r.rule scope m).Selects (other.rule scope n) ↔
      (r.HasKey → r.key scope m ∈ other.sourceWords) ∧
        ∀ name ∈ r.sourceConditions, name ∈ other.sourceWords ∨
          (other.HasKey ∧ name = other.key scope n) := by
  simp only [Rule.Selects, mem_conditions, mem_words_classAttribute]
  constructor
  · intro hall
    refine ⟨fun hkey => ?_, fun name hname => hall name (.inl hname)⟩
    rcases hall _ (.inr ⟨hkey, rfl⟩) with hsource | ⟨-, hsame⟩
    · exact hsource
    · -- the key of the other tag ends with the number of the other record
      exact absurd (key_injective hsame) h
  · rintro ⟨hkey, hsource⟩ name (hname | ⟨hr, rfl⟩)
    · exact hsource name hname
    · exact .inl (hkey hr)

theorem dot_or_blank_of_selects (hids : r.id = other.id → r.id = []) (hr : ¬ r.HasKey)
    (hother : ¬ other.HasKey) (h : (r.rule scope m).Selects (other.rule scope n)) :
    dot ∈ r.id ∨ ∃ b ∈ other.id, isBlank b = true := by
  have hnames {r : Record} (hr : ¬ r.HasKey) : r.id ≠ [] ∧ r.sourceNames = [r.id] := by
    obtain ⟨hwords, hid⟩ := not_or.1 hr
    exact ⟨hid, by simp [sourceNames, Decidable.not_not.1 hwords, hid]⟩
  obtain ⟨hne, hname⟩ := hnames hr
  obtain ⟨hother_ne, hother_name⟩ := hnames hother
  by_cases hdot : dot ∈ r.id
  · exact .inl hdot
  by_cases hblank : ∃ b ∈ other.id, isBlank b = true
  · exact .inr hblank
  exfalso
  have hcondition : r.id ∈ (r.rule scope m).conditions := by
    rw [mem_conditions, sourceConditions, hname, List.flatMap_singleton,
      Bytes.splitOnP_of_not_mem hdot]
    exact .inl List.mem_cons_self
  have hwords : words other.id = [other.id] := by
    refine words_eq_singleton hother_ne fun b hb => ?_
    rw [← Bool.not_eq_true]
    exact fun hb' => hblank ⟨b, hb, hb'⟩
  have hword := h r.id hcondition
  rw [mem_words_classAttribute, sourceWords, hother_name, List.flatMap_singleton, hwords,
    List.mem_singleton] at hword
  rcases hword with hsame | ⟨hkey, -⟩
  · exact hne (hids hsame)
  · exact hother hkey

theorem ne_nil_of_mem_classNames (h : name ∈ r.classNames scope number) : name ≠ [] := by
  unfold classNames at h
  split at h
  · split at h
    · rw [List.mem_singleton.1 h]
      exact key_ne_nil scope number r
    next hid => rwa [List.mem_singleton.1 h]
  · rcases List.mem_append.1 h with hword | hkey
    · exact (mem_words hword).1
    · rw [List.mem_singleton.1 hkey]
      exact key_ne_nil scope number r

theorem classNames_ne_nil (scope : Bytes) (number : Nat) (r : Record) :
    r.classNames scope number ≠ [] := by
  unfold classNames
  split
  · split <;> simp
  · simp

private theorem plain_classNames_iff :
    (∀ name ∈ r.classNames scope number, ∀ b ∈ name, b ≠ dot ∧ isBlank b = false) ↔
      dot ∉ r.classes ∧ (words r.classes = [] → ∀ b ∈ r.id, b ≠ dot ∧ isBlank b = false) := by
  have hkey : ∀ b ∈ r.key scope number, b ≠ dot ∧ isBlank b = false :=
    fun b hb => ⟨ne_of_mem_of_not_mem hb (dot_not_mem_key scope number r),
      isBlank_of_mem_key scope number r hb⟩
  have hclasses : (∀ b ∈ r.classes, isBlank b = false → b ≠ dot ∧ isBlank b = false) ↔
      dot ∉ r.classes := by
    constructor
    · intro h hdot
      exact (h dot hdot (by decide)).1 rfl
    · intro h b hb hblank
      exact ⟨ne_of_mem_of_not_mem hb h, hblank⟩
  rw [forall_mem_classNames_iff hkey, hclasses]

/-- A selector asks for the classes that the tag of its rule gets, in their order, just if no class
in the text holds a dot, and an id that is used as a class neither a dot nor a blank. -/
theorem selector_spells_classes_iff (scope : Bytes) (number : Nat) (r : Record) :
    ∃ rest, (r.rule scope number).selector = dot :: rest ∧
      (rest.splitOnP (· == dot) = words (r.rule scope number).classAttribute ↔
        dot ∉ r.classes ∧ (words r.classes = [] → ∀ b ∈ r.id, b ≠ dot ∧ isBlank b = false)) := by
  obtain ⟨first, others, hnames⟩ :=
    List.exists_cons_of_ne_nil (classNames_ne_nil scope number r)
  have hselector : (r.rule scope number).selector =
      dot :: (first ++ others.flatMap (dot :: ·)) := by
    simp [Rule.selector, rule, hnames]
  have hconditions : (first ++ others.flatMap (dot :: ·)).splitOnP (· == dot) =
      (r.classNames scope number).flatMap (·.splitOnP (· == dot)) := by
    rw [Bytes.splitOnP_append_flatMap (p := (· == dot)) (by decide), hnames, List.flatMap_cons]
  refine ⟨_, hselector, ?_⟩
  rw [hconditions, Rule.classAttribute, words_join, rule,
    flatMap_splitOnP_eq_words_iff fun _ => ne_nil_of_mem_classNames, plain_classNames_iff]

/-- A class with a dot, as in `w-1.5`: the selector asks for the classes `w-1` and `5`. -/
theorem dotted_class_spelled_apart :
    let rule := Record.rule [] 1 ⟨utf8 "p", [], utf8 "w-1.5", utf8 "x", [], 1, []⟩
    rule.selector = utf8 ".w-1.5.p_line_1_1" ∧ rule.classAttribute = utf8 "w-1.5 p_line_1_1" ∧
      ¬ ∃ rest, rule.selector = dot :: rest ∧
        rest.splitOnP (· == dot) = words rule.classAttribute := by
  refine ⟨by decide +kernel, by decide +kernel, ?_⟩
  rintro ⟨rest, hselector, hwords⟩
  obtain rfl := congrArg List.tail hselector
  exact absurd hwords (by decide +kernel)

end Record

theorem getElem?_rulesOf (scope : Bytes) (records : List Record) (i : Nat) :
    (rulesOf scope records)[i]? = records[i]?.map fun r => r.rule scope (i + 1) := by
  simp [rulesOf, Nat.add_comm, Function.comp_def]

theorem rules_of_rewrite {scope marked : Bytes} {records : List Record} {result : Rewrite}
    (h : rewrite scope marked records = .ok result) : result.rules = rulesOf scope records := by
  simp only [rewrite] at h
  generalize substitute _ marked = html at h
  cases html with
  | error error => cases h
  | ok html =>
    cases h
    rfl

/-- The rule of a record selects the tag of another just if the text gives that tag the key of the
rule, where it has one, and each of the rule's other names, which the key of the tag may be as well.
Where no two ids are equal, an id that is used as a class selects another one only if it holds a
dot or the other holds a blank. -/
theorem selects_iff {mode : Mode} {stamp : Stamp} {text scope marked : Bytes} {result : Rewrite}
    {i j : Nat} {r other : Record} (hne : i ≠ j)
    (hr : (scan mode stamp text).records[i]? = some r)
    (hother : (scan mode stamp text).records[j]? = some other)
    (hrewrite : rewrite scope marked (scan mode stamp text).records = .ok result) :
    ∃ rule otherRule, result.rules[i]? = some rule ∧ result.rules[j]? = some otherRule ∧
      (rule.Selects otherRule ↔
        (r.HasKey → r.key scope (i + 1) ∈ other.sourceWords) ∧
          ∀ name ∈ r.sourceConditions, name ∈ other.sourceWords ∨
            (other.HasKey ∧ name = other.key scope (j + 1))) ∧
      (Record.DistinctIds (scan mode stamp text).records → ¬ r.HasKey → ¬ other.HasKey →
        rule.Selects otherRule → dot ∈ r.id ∨ ∃ b ∈ other.id, isBlank b = true) := by
  refine ⟨r.rule scope (i + 1), other.rule scope (j + 1), ?_, ?_, ?_, ?_⟩
  · rw [rules_of_rewrite hrewrite, getElem?_rulesOf, hr, Option.map_some]
  · rw [rules_of_rewrite hrewrite, getElem?_rulesOf, hother, Option.map_some]
  · exact Record.selects_iff_sourceWords (by omega)
  · intro hdistinct
    exact Record.dot_or_blank_of_selects (hdistinct.id_eq_nil hne hr hother)

/-- An id that is no class of the other tag. -/
theorem selects_iff_paragraphs :
    let text := utf8 "<p id=\"x\" style=\"a\"><p class=\"n\" style=\"b\">"
    let scanned := scan .strict (Stamp.ofSeed 0) text
    ∃ marked result rule other, scanned.marked = .ok marked ∧
      Record.DistinctIds scanned.records ∧ rewrite [] marked scanned.records = .ok result ∧
      result.rules[0]? = some rule ∧ result.rules[1]? = some other ∧ ¬ rule.Selects other := by
  intro text scanned
  let stamp := Stamp.ofSeed 0
  let records : List Record :=
    [⟨utf8 "p", utf8 "x", [], utf8 "a", [], 1, stamp.token 1⟩,
      ⟨utf8 "p", [], utf8 "n", utf8 "b", [], 1, stamp.token 2⟩]
  have hrecords : scanned.records = records := by
    refine (records_scan .strict stamp text).trans ?_
    decide +kernel
  let marked := utf8 "<p" ++ stamp.token 1 ++ utf8 "><p" ++ stamp.token 2 ++ utf8 ">"
  have hmarked : scanned.marked = .ok marked :=
    (marked_of_error? stamp (by decide +kernel)).trans (congrArg _ (by decide +kernel))
  have hrewrite : rewrite [] marked scanned.records =
      .ok ⟨utf8 "<p id=\"x\" class=\"x\"><p class=\"n p_line_1_2\">", rulesOf [] records⟩ := by
    rw [hrecords]
    decide +kernel
  have hr : scanned.records[0]? = records[0]? := by rw [hrecords]
  have hother : scanned.records[1]? = records[1]? := by rw [hrecords]
  obtain ⟨rule, other, hrule, hotherRule, hselects, -⟩ :=
    selects_iff (by decide) hr hother hrewrite
  refine ⟨_, _, rule, other, hmarked, ?_, hrewrite, hrule, hotherRule, ?_⟩
  · rw [hrecords]
    decide +kernel
  · rw [hselects]
    decide +kernel

/-- An id that is used as a class, and another tag that has it as its class. -/
theorem selects_other :
    let text := utf8 "<p id=\"x\" style=\"a\"><p class=\"x\" style=\"b\">"
    let scanned := scan .strict (Stamp.ofSeed 0) text
    ∃ marked result rule other, scanned.marked = .ok marked ∧
      Record.DistinctIds scanned.records ∧ rewrite [] marked scanned.records = .ok result ∧
      result.rules[0]? = some rule ∧ result.rules[1]? = some other ∧ rule.Selects other := by
  intro text scanned
  let stamp := Stamp.ofSeed 0
  let records : List Record :=
    [⟨utf8 "p", utf8 "x", [], utf8 "a", [], 1, stamp.token 1⟩,
      ⟨utf8 "p", [], utf8 "x", utf8 "b", [], 1, stamp.token 2⟩]
  have hrecords : scanned.records = records := by
    refine (records_scan .strict stamp text).trans ?_
    decide +kernel
  let marked := utf8 "<p" ++ stamp.token 1 ++ utf8 "><p" ++ stamp.token 2 ++ utf8 ">"
  have hmarked : scanned.marked = .ok marked :=
    (marked_of_error? stamp (by decide +kernel)).trans (congrArg _ (by decide +kernel))
  have hrewrite : rewrite [] marked scanned.records =
      .ok ⟨utf8 "<p id=\"x\" class=\"x\"><p class=\"x p_line_1_2\">", rulesOf [] records⟩ := by
    rw [hrecords]
    decide +kernel
  refine ⟨_, _, ⟨[utf8 "x"], utf8 "a"⟩, ⟨[utf8 "x", utf8 "p_line_1_2"], utf8 "b"⟩, hmarked, ?_,
    hrewrite, ?_, ?_, ?_⟩
  · rw [hrecords]
    decide +kernel
  all_goals decide +kernel

end StyleHoist
