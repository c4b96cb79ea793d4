import StyleHoist.Files.Disk

/-!
What a program may rely on when it reads and writes files.  A file system says which file a path
names and what is in it: reading changes nothing, and a write replaces the whole of one file or
fails and changes nothing.  Main statement: the disks in memory are one (`Disk.fileSystem`), since
a path names the same file after a write as before it (`Disk.Puts.findFile_iff`).
-/

set_option autoImplicit false
set_option relaxedAutoImplicit false

namespace StyleHoist

open Ascii

section Access

variable {σ : Type} [FileAccess (StateM σ)]

/-- What reading a file gives, and the state that it leaves. -/
def readOn (p : Path) (s : σ) : Except Fault Bytes × σ := (FileAccess.read (m := StateM σ) p).run s

/-- How writing a file ends, and the state that it leaves. -/
def writeOn (p : Path) (content : Bytes) (s : σ) : Except Fault Unit × σ :=
  (FileAccess.write (m := StateM σ) p content).run s

end Access

/-- The files of a state, and what a program may rely on about them.  Reading changes none of them,
and a write replaces the whole content of one of them or fails and changes nothing.  Two paths may
name the same file. -/
structure FileSystem (σ : Type) [FileAccess (StateM σ)] where
  File : Type
  /-- The file that a path names, whether it is there or not. -/
  named? : σ → Path → Option File
  content? : σ → File → Option Bytes
  read {p : Path} {s after : σ} {result : Except Fault Bytes} :
    readOn p s = (result, after) → named? after = named? s ∧ content? after = content? s
  write_error {p : Path} {content : Bytes} {s after : σ} {fault : Fault} :
    writeOn p content s = (.error fault, after) →
      named? after = named? s ∧ content? after = content? s
  write_ok {p : Path} {content : Bytes} {s after : σ} :
    writeOn p content s = (.ok (), after) → named? after = named? s ∧
      ∃ file, named? s p = some file ∧ content? after file = some content ∧
        ∀ other, other ≠ file → content? after other = content? s other

namespace FileSystem

variable {σ : Type} [FileAccess (StateM σ)] (fs : FileSystem σ)

/-- Whether no file but those that some paths name has another content afterwards. -/
def ChangesOnly (paths : List Path) (before after : σ) : Prop :=
  fs.named? after = fs.named? before ∧
    ∀ file, (∀ p ∈ paths, fs.named? before p ≠ some file) →
      fs.content? after file = fs.content? before file

/-- Whether the file that a path names is there with a content. -/
def Holds (s : σ) (p : Path) (content : Bytes) : Prop :=
  ∃ file, fs.named? s p = some file ∧ fs.content? s file = some content

variable {fs} {before between after s : σ} {p q : Path} {paths others : List Path}
  {content other : Bytes}

theorem changesOnly_nil_iff :
    fs.ChangesOnly [] before after ↔
      fs.named? after = fs.named? before ∧ fs.content? after = fs.content? before := by
  simp [ChangesOnly, funext_iff]

theorem ChangesOnly.refl (s : σ) : fs.ChangesOnly paths s s := ⟨rfl, fun _ _ => rfl⟩

theorem ChangesOnly.trans (h : fs.ChangesOnly paths before between)
    (h' : fs.ChangesOnly others between after) :
    fs.ChangesOnly (paths ++ others) before after := by
  refine ⟨h'.1.trans h.1, fun file hfile => ?_⟩
  rw [h'.2 file ?_, h.2 file ?_]
  · exact fun p hp => hfile p (List.mem_append_left _ hp)
  · intro p hp
    rw [h.1]
    exact hfile p (List.mem_append_right _ hp)

theorem changesOnly_readOn (p : Path) (s : σ) : fs.ChangesOnly [] s (readOn p s).2 :=
  changesOnly_nil_iff.2 (fs.read rfl)

theorem changesOnly_of_write_error {fault : Fault}
    (h : writeOn p content s = (.error fault, after)) : fs.ChangesOnly [] s after :=
  changesOnly_nil_iff.2 (fs.write_error h)

theorem changesOnly_of_write_ok (h : writeOn p content s = (.ok (), after)) :
    fs.ChangesOnly [p] s after := by
  obtain ⟨hnamed, file, hfile, -, hothers⟩ := fs.write_ok h
  refine ⟨hnamed, fun other hother => hothers other ?_⟩
  rintro rfl
  exact hother p List.mem_cons_self hfile

theorem holds_of_write_ok (h : writeOn p content s = (.ok (), after)) :
    fs.Holds after p content := by
  obtain ⟨hnamed, file, hfile, hcontent, -⟩ := fs.write_ok h
  exact ⟨file, by rw [hnamed, hfile], hcontent⟩

theorem Holds.of_changesOnly (h : fs.Holds before p content)
    (hchanges : fs.ChangesOnly paths before after)
    (hne : ∀ q ∈ paths, fs.named? before q ≠ fs.named? before p) : fs.Holds after p content := by
  obtain ⟨file, hfile, hcontent⟩ := h
  refine ⟨file, by rw [hchanges.1, hfile], ?_⟩
  rw [hchanges.2 file ?_, hcontent]
  intro q hq
  rw [← hfile]
  exact hne q hq

theorem Holds.congr (h : fs.Holds s p content) (hsame : fs.named? s q = fs.named? s p) :
    fs.Holds s q content := by
  obtain ⟨file, hfile, hcontent⟩ := h
  exact ⟨file, by rw [hsame, hfile], hcontent⟩

theorem Holds.unique (h : fs.Holds s p content) (h' : fs.Holds s p other) : content = other := by
  obtain ⟨file, hfile, hcontent⟩ := h
  obtain ⟨file', hfile', hother⟩ := h'
  obtain rfl : file = file' := Option.some.inj (hfile.symm.trans hfile')
  exact Option.some.inj (hcontent.symm.trans hother)

end FileSystem

/-! ### Disks -/

namespace Disk

variable {disk : Disk} {location here there : Location} {content : Bytes} {component : Bytes}
  {components : List Bytes}

theorem writeOn_eq (p : Path) (content : Bytes) (disk : Disk) :
    writeOn p content disk =
      match disk.write p content with
      | .ok after => (.ok (), after)
      | .error fault => (.error fault, disk) := by
  have hrun : writeOn p content disk = (match disk.write p content with
      | .ok after => (do set after; return .ok () : StateM Disk (Except Fault Unit))
      | .error fault => return .error fault).run disk := rfl
  rw [hrun]
  cases disk.write p content <;> rfl

def content? (disk : Disk) (location : Location) : Option Bytes :=
  match disk.lookup? location with
  | some (.file content) => some content
  | _ => none

private theorem ite_error_eq_ok_iff {α : Type} {c : Prop} [Decidable c] {fault : Fault}
    {result : Except Fault α} {a : α} :
    (if c then .error fault else result) = .ok a ↔ ¬ c ∧ result = .ok a := by
  split <;> simp_all

theorem enter_eq_ok_iff :
    disk.enter here component = .ok there ↔ disk.lookup? here = some .directory ∧
      (component = [dot] ∧ there = here ∨ component = [dot, dot] ∧ there = here.dropLast ∨
        component ≠ [dot] ∧ component ≠ [dot, dot] ∧ component.length ≤ longestName ∧
          disk.lookup? (here ++ [component]) ≠ none ∧ there = here ++ [component]) := by
  rw [enter, ite_error_eq_ok_iff, ne_eq, Decidable.not_not]
  apply and_congr_right
  intro _
  by_cases hdot : component = [dot]
  · simp [hdot, @eq_comm _ there]
  by_cases hdots : component = [dot, dot]
  · simp [hdots, @eq_comm _ there]
  rw [if_neg hdot, if_neg hdots, ite_error_eq_ok_iff, ite_error_eq_ok_iff]
  simp [hdot, hdots, @eq_comm _ there]

theorem findFile_eq_ok_iff {p : Path} :
    disk.findFile p = .ok location ↔
      p.fault? = none ∧ ∃ name parent, p.components.getLast? = some name ∧
        disk.follow p p.components.dropLast = .ok parent ∧
        disk.lookup? parent = some .directory ∧
        ¬ (name = [dot] ∨ name = [dot, dot] ∨ p.demandsDirectory) ∧ name.length ≤ longestName ∧
        disk.lookup? (parent ++ [name]) ≠ some .directory ∧ location = parent ++ [name] := by
  unfold findFile
  cases hfault : p.fault? with
  | some fault => simp
  | none =>
    cases hname : p.components.getLast? with
    | none => simp
    | some name =>
      cases hparent : disk.follow p p.components.dropLast with
      | error fault => simp [bind, Except.bind]
      | ok parent =>
        simp only [bind, Except.bind, ite_error_eq_ok_iff, ne_eq, Decidable.not_not, Nat.not_lt,
          Option.some.injEq, Except.ok.injEq, true_and, @eq_comm _ location]
        constructor
        · intro h
          exact ⟨name, parent, rfl, rfl, h⟩
        · rintro ⟨_, _, rfl, rfl, h⟩
          exact h

/-- Whether a disk is another one with a content in a file, which is created if need be. -/
structure Puts (location : Location) (content : Bytes) (before after : Disk) : Prop where
  ne_nil : location ≠ []
  not_directory : before.lookup? location ≠ some .directory
  eq : after = before.put location (.file content)

namespace Puts

variable {before after : Disk} (h : Puts location content before after)

include h

theorem lookup?_eq (other : Location) :
    after.lookup? other =
      if other = location then some (.file content) else before.lookup? other := by
  rw [h.eq, lookup?_put _ _ _ _ h.ne_nil]

theorem directory_iff (other : Location) :
    after.lookup? other = some .directory ↔ before.lookup? other = some .directory := by
  rw [h.lookup?_eq]
  split
  next heq => simp [heq, h.not_directory]
  next => exact Iff.rfl

theorem enter_of_before (hthere : before.enter here component = .ok there) :
    after.enter here component = .ok there := by
  rw [enter_eq_ok_iff] at hthere ⊢
  obtain ⟨hhere, hcomponent⟩ := hthere
  refine ⟨(h.directory_iff here).2 hhere, ?_⟩
  rcases hcomponent with hdot | hdots | ⟨hdot, hdots, hlength, hexists, hthere⟩
  · exact .inl hdot
  · exact .inr (.inl hdots)
  · refine .inr (.inr ⟨hdot, hdots, hlength, ?_, hthere⟩)
    rw [h.lookup?_eq]
    split
    · exact Option.some_ne_none _
    · exact hexists

theorem enter_of_after (hthere : after.enter here component = .ok there)
    (hne : there ≠ location) : before.enter here component = .ok there := by
  rw [enter_eq_ok_iff] at hthere ⊢
  obtain ⟨hhere, hcomponent⟩ := hthere
  refine ⟨(h.directory_iff here).1 hhere, ?_⟩
  rcases hcomponent with hdot | hdots | ⟨hdot, hdots, hlength, hexists, rfl⟩
  · exact .inl hdot
  · exact .inr (.inl hdots)
  · refine .inr (.inr ⟨hdot, hdots, hlength, ?_, rfl⟩)
    rwa [h.lookup?_eq, if_neg hne] at hexists

theorem follow_of_before {p : Path} (hthere : before.follow p components = .ok there) :
    after.follow p components = .ok there := by
  have hstart : after.workingDirectory = before.workingDirectory := by rw [h.eq, put]
  rw [follow, hstart]
  rw [follow] at hthere
  generalize (if p.isAbsolute then [] else before.workingDirectory) = here at hthere ⊢
  induction components generalizing here with
  | nil => exact hthere
  | cons component components ih =>
    rw [List.foldlM_cons] at hthere ⊢
    cases hnext : before.enter here component with
    | error fault =>
      rw [hnext] at hthere
      cases hthere
    | ok next =>
      rw [hnext] at hthere
      rw [h.enter_of_before hnext]
      exact ih next hthere

theorem eq_of_foldlM (hthere : components.foldlM after.enter location = .ok there) :
    there = location := by
  cases components with
  | nil =>
    cases hthere
    rfl
  | cons component components =>
    rw [List.foldlM_cons] at hthere
    cases hnext : after.enter location component with
    | error fault =>
      rw [hnext] at hthere
      cases hthere
    | ok next =>
      have hdirectory := (h.directory_iff location).1 (enter_eq_ok_iff.1 hnext).1
      exact absurd hdirectory h.not_directory

theorem follow_of_after {p : Path} (hthere : after.follow p components = .ok there)
    (hdirectory : before.lookup? there = some .directory) :
    before.follow p components = .ok there := by
  have hstart : after.workingDirectory = before.workingDirectory := by rw [h.eq, put]
  rw [follow, hstart] at hthere
  rw [follow]
  generalize (if p.isAbsolute then [] else before.workingDirectory) = here at hthere ⊢
  induction components generalizing here with
  | nil => exact hthere
  | cons component components ih =>
    rw [List.foldlM_cons] at hthere ⊢
    cases hnext : after.enter here component with
    | error fault =>
      rw [hnext] at hthere
      cases hthere
    | ok next =>
      rw [hnext] at hthere
      by_cases hne : next = location
      · subst hne
        rw [h.eq_of_foldlM hthere] at hdirectory
        exact absurd hdirectory h.not_directory
      · rw [h.enter_of_after hnext hne]
        exact ih next hthere

theorem findFile_iff {p : Path} {other : Location} :
    after.findFile p = .ok other ↔ before.findFile p = .ok other := by
  rw [findFile_eq_ok_iff, findFile_eq_ok_iff]
  apply and_congr_right
  intro _
  constructor
  · rintro ⟨name, parent, hname, hparent, hdirectory, hfile⟩
    rw [h.directory_iff] at hdirectory
    rw [ne_eq, h.directory_iff] at hfile
    exact ⟨name, parent, hname, h.follow_of_after hparent hdirectory, hdirectory, hfile⟩
  · rintro ⟨name, parent, hname, hparent, hdirectory, hfile⟩
    refine ⟨name, parent, hname, h.follow_of_before hparent, (h.directory_iff parent).2 hdirectory,
      ?_⟩
    rwa [ne_eq, h.directory_iff]

end Puts

theorem puts_of_write {before after : Disk} {p : Path} (h : before.write p content = .ok after) :
    ∃ location, before.findFile p = .ok location ∧ Puts location content before after := by
  rw [write] at h
  cases hfile : before.findFile p with
  | error fault =>
    rw [hfile] at h
    cases h
  | ok location =>
    rw [hfile] at h
    cases h
    obtain ⟨-, name, parent, -, -, -, -, -, hnew, rfl⟩ := findFile_eq_ok_iff.1 hfile
    exact ⟨_, rfl, by simp, hnew, rfl⟩

theorem writeOn_ok_iff {p : Path} {after : Disk} :
    writeOn p content disk = (.ok (), after) ↔ disk.write p content = .ok after := by
  rw [writeOn_eq]
  cases disk.write p content <;> simp

def fileSystem : FileSystem Disk where
  File := Location
  named? disk p := (disk.findFile p).toOption
  content? := content?
  read h := by
    cases h
    exact ⟨rfl, rfl⟩
  write_error {p content disk after fault} h := by
    rw [writeOn_eq] at h
    cases hwrite : disk.write p content with
    | ok other =>
      rw [hwrite] at h
      cases h
    | error fault =>
      rw [hwrite] at h
      cases h
      exact ⟨rfl, rfl⟩
  write_ok {p content disk after} h := by
    obtain ⟨location, hfile, hputs⟩ := puts_of_write (writeOn_ok_iff.1 h)
    refine ⟨?_, location, by rw [hfile]; rfl, ?_, fun other hne => ?_⟩
    · funext q
      apply Option.ext
      intro other
      have hiff := @Puts.findFile_iff _ _ _ _ hputs q other
      revert hiff
      cases after.findFile q <;> cases disk.findFile q <;> simp [Except.toOption]
    · rw [content?, hputs.lookup?_eq, if_pos rfl]
    · rw [content?, hputs.lookup?_eq, if_neg hne]
      rfl

theorem holds_iff {p : Path} :
    fileSystem.Holds disk p content ↔
      ∃ location, disk.findFile p = .ok location ∧
        disk.lookup? location = some (.file content) := by
  have hnamed (location : Location) :
      (disk.findFile p).toOption = some location ↔ disk.findFile p = .ok location := by
    cases disk.findFile p <;> simp [Except.toOption]
  have hcontent (location : Location) :
      disk.content? location = some content ↔ disk.lookup? location = some (.file content) := by
    rw [content?]
    split <;> simp_all
  simp only [← hnamed, ← hcontent]
  rfl

theorem read_of_holds {p : Path} (h : fileSystem.Holds disk p content) :
    disk.read p = .ok content := by
  obtain ⟨location, hfile, hlookup⟩ := holds_iff.1 h
  obtain ⟨hfault, name, parent, hname, hparent, hdirectory, hplain, hlength, -, rfl⟩ :=
    findFile_eq_ok_iff.1 hfile
  rw [not_or, not_or] at hplain
  obtain ⟨hdot, hdots, hdemands⟩ := hplain
  have henter : disk.enter parent name = .ok (parent ++ [name]) :=
    enter_eq_ok_iff.2 ⟨hdirectory, .inr (.inr ⟨hdot, hdots, hlength, by simp [hlookup], rfl⟩)⟩
  have hfollow : disk.follow p p.components = .ok (parent ++ [name]) := by
    obtain ⟨before, hbefore⟩ := List.getLast?_eq_some_iff.1 hname
    rw [hbefore, List.dropLast_concat] at hparent
    rw [hbefore, follow, List.foldlM_append, ← follow, hparent]
    simp [bind, Except.bind, pure, Except.pure, henter]
  have hfind : disk.find p = .ok (parent ++ [name]) := by
    simp [find, hfault, hfollow, hdemands, bind, Except.bind]
  simp [read, hfind, hlookup, bind, Except.bind]

end Disk

end StyleHoist
