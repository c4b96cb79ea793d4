import Mathlib.Control.Monad.Basic
import StyleHoist.Conversion
import StyleHoist.Proofs.FileSystem

/-!
What a conversion does to the files.  It reads one file, and what becomes of the document is then
settled without writing (`convert_eq_bind`); only the two writes at its end change anything.  Main
statements: what each of the ways to end leaves of the files (`convert_effect`), and the exact
condition under which both the document and the stylesheet are there after a conversion that
succeeds (`holds_document_iff`): the second write must not go over the first.
-/

set_option autoImplicit false
set_option relaxedAutoImplicit false

namespace StyleHoist

namespace Conversion

def Error.IsWrite : Error → Prop
  | write _ _ => True
  | _ => False

variable (stampFor : Bytes → Stamp) (options : Options) (path : Path)

def planRead : Except Fault Bytes → Result
  | .error fault => ⟨[], .error (.read path fault)⟩
  | .ok content =>
    if (Utf8.decode? content).isNone then ⟨[], .error (.read path .malformedText)⟩
    else
      let text := content.filter (· != Ascii.carriageReturn)
      plan options (stampFor text) path text

section Monads

variable {m : Type → Type} [Monad m] [FileAccess m]

private theorem carryOut_dryRun (result : Result) :
    result.carryOut (m := m) { options with dryRun := true } = pure result := by
  unfold Result.carryOut
  split <;> simp

private theorem carryOut_error {result : Result} {error : Error}
    (h : result.outcome = .error error) : result.carryOut (m := m) options = pure result := by
  simp [Result.carryOut, h]

variable [LawfulMonad m]

/-- A conversion is what it would be without writing, and then the writing. -/
theorem convert_eq_bind :
    convert (m := m) stampFor options path =
      convert stampFor { options with dryRun := true } path >>= Result.carryOut options := by
  simp only [convert]
  split
  · rw [pure_bind, carryOut_error options rfl]
  · rw [bind_assoc]
    congr 1
    funext loaded
    cases loaded with
    | error error => rw [pure_bind, carryOut_error options rfl]
    | ok text =>
      -- what is planned does not depend on whether it is carried out
      have hplan : plan { options with dryRun := true } (stampFor text) path text =
          plan options (stampFor text) path text := rfl
      simp only [carryOut_dryRun, pure_bind, hplan]

theorem convert_dryRun :
    convert (m := m) stampFor { options with dryRun := true } path =
      if !options.force && !path.isHtml then pure ⟨[], .error (.notHtml path)⟩
      else planRead stampFor options path <$> FileAccess.read path := by
  simp only [convert]
  split
  · rfl
  · rw [load, bind_assoc, map_eq_pure_bind]
    congr 1
    funext result
    cases result with
    | error fault => rw [pure_bind]; rfl
    | ok content =>
      simp only [planRead]
      split
      · rw [pure_bind]
      · rw [pure_bind]
        exact carryOut_dryRun options _

end Monads

/-! ### Without writing -/

theorem plan_ne_write (stamp : Stamp) (text : Bytes) {error : Error}
    (h : (plan options stamp path text).outcome = .error error) : ¬ error.IsWrite := by
  simp only [plan] at h
  cases hmarked : (scan options.mode stamp text).marked with
  | error scanError =>
    rw [hmarked] at h
    cases h
    exact id
  | ok marked =>
    rw [hmarked] at h
    simp only [Except.mapError, bind, Except.bind] at h
    split at h
    · cases h
    · cases hrewrite : rewrite options.scope marked (scan options.mode stamp text).records with
      | error rewriteError =>
        rw [hrewrite] at h
        cases h
        exact id
      | ok rewritten =>
        rw [hrewrite] at h
        cases h

theorem planRead_ne_write {result : Except Fault Bytes} {error : Error}
    (h : (planRead stampFor options path result).outcome = .error error) : ¬ error.IsWrite := by
  cases result with
  | error fault =>
    cases h
    exact id
  | ok content =>
    rw [planRead] at h
    split at h
    · cases h
      exact id
    · exact plan_ne_write options path _ _ h

section States

variable {σ : Type} [FileAccess (StateM σ)] (s : σ)

def run : Result × σ := (convert (m := StateM σ) stampFor options path).run s

def Product.storeOn (product : Product) : Except Error Unit × σ :=
  (product.store (m := StateM σ)).run s

theorem run_dryRun :
    run stampFor { options with dryRun := true } path s =
      if !options.force && !path.isHtml then (⟨[], .error (.notHtml path)⟩, s)
      else (planRead stampFor options path (readOn path s).1, (readOn path s).2) := by
  rw [run, convert_dryRun]
  split <;> rfl

theorem changesOnly_dryRun (fs : FileSystem σ) :
    fs.ChangesOnly [] s (run stampFor { options with dryRun := true } path s).2 := by
  rw [run_dryRun]
  split
  · exact FileSystem.ChangesOnly.refl s
  · exact FileSystem.changesOnly_readOn path s

theorem dryRun_ne_write {error : Error}
    (h : (run stampFor { options with dryRun := true } path s).1.outcome = .error error) :
    ¬ error.IsWrite := by
  rw [run_dryRun] at h
  split at h
  · cases h
    exact id
  · exact planRead_ne_write stampFor options path h

/-! ### Writing -/

private theorem run_store (content : Bytes) :
    (store (m := StateM σ) path content).run s =
      match writeOn path content s with
      | (.error fault, after) => (.error (.write path fault), after)
      | (.ok (), after) => (.ok (), after) := by
  rw [store, StateT.run_bind, ← writeOn]
  rcases writeOn path content s with ⟨_ | _, after⟩ <;> rfl

theorem storeOn_eq (product : Product) :
    product.storeOn s =
      match writeOn product.htmlPath product.rewrite.html s with
      | (.error fault, after) => (.error (.write product.htmlPath fault), after)
      | (.ok (), between) =>
        match writeOn product.stylesheetPath product.rewrite.css between with
        | (.error fault, after) => (.error (.write product.stylesheetPath fault), after)
        | (.ok (), after) => (.ok (), after) := by
  rw [Product.storeOn, Product.store, StateT.run_bind, run_store]
  rcases writeOn product.htmlPath product.rewrite.html s with ⟨_ | _, between⟩
  · rfl
  · exact run_store product.stylesheetPath between product.rewrite.css

private theorem run_carryOut (planned : Result) :
    (planned.carryOut (m := StateM σ) { options with dryRun := false }).run s =
      match planned.outcome with
      | .ok (.converted product) =>
        match product.storeOn s with
        | (.error error, after) => ({ planned with outcome := .error error }, after)
        | (.ok (), after) => (planned, after)
      | _ => (planned, s) := by
  obtain ⟨reports, error | (_ | product)⟩ := planned
  · rfl
  · rfl
  · simp only [Result.carryOut]
    rw [if_neg Bool.false_ne_true, StateT.run_bind, ← Product.storeOn]
    rcases product.storeOn s with ⟨_ | _, after⟩ <;> rfl

private theorem run_eq :
    run stampFor { options with dryRun := false } path s =
      let (planned, ready) := run stampFor { options with dryRun := true } path s
      match planned.outcome with
      | .ok (.converted product) =>
        match product.storeOn ready with
        | (.error error, after) => ({ planned with outcome := .error error }, after)
        | (.ok (), after) => (planned, after)
      | _ => (planned, ready) := by
  rw [run, convert_eq_bind, StateT.run_bind, ← run]
  exact run_carryOut options _ _

variable {stampFor} {options} {path} {s} {planned : Result} {ready between last : σ}
  {product : Product} {fault : Fault}

section Plans

variable (hplan : run stampFor { options with dryRun := true } path s = (planned, ready))

include hplan

theorem run_of_not_converted (h : ∀ product, planned.outcome ≠ .ok (.converted product)) :
    run stampFor { options with dryRun := false } path s = (planned, ready) := by
  rw [run_eq, hplan]
  obtain ⟨reports, error | (_ | product)⟩ := planned
  · rfl
  · rfl
  · exact absurd rfl (h product)

variable (hproduct : planned.outcome = .ok (.converted product))

include hproduct

theorem run_of_document_fault
    (hhtml : writeOn product.htmlPath product.rewrite.html ready = (.error fault, last)) :
    run stampFor { options with dryRun := false } path s =
      ({ planned with outcome := .error (.write product.htmlPath fault) }, last) := by
  simp only [run_eq, hplan, hproduct, storeOn_eq, hhtml]

theorem run_of_stylesheet_fault
    (hhtml : writeOn product.htmlPath product.rewrite.html ready = (.ok (), between))
    (hcss : writeOn product.stylesheetPath product.rewrite.css between = (.error fault, last)) :
    run stampFor { options with dryRun := false } path s =
      ({ planned with outcome := .error (.write product.stylesheetPath fault) }, last) := by
  simp only [run_eq, hplan, hproduct, storeOn_eq, hhtml, hcss]

theorem run_of_writes
    (hhtml : writeOn product.htmlPath product.rewrite.html ready = (.ok (), between))
    (hcss : writeOn product.stylesheetPath product.rewrite.css between = (.ok (), last)) :
    run stampFor { options with dryRun := false } path s = (planned, last) := by
  simp only [run_eq, hplan, hproduct, storeOn_eq, hhtml, hcss]

theorem exists_writes
    (hfault : ∀ error,
      (run stampFor { options with dryRun := false } path s).1.outcome = .error error →
        ¬ error.IsWrite) :
    ∃ between last, writeOn product.htmlPath product.rewrite.html ready = (.ok (), between) ∧
      writeOn product.stylesheetPath product.rewrite.css between = (.ok (), last) := by
  rcases hhtml : writeOn product.htmlPath product.rewrite.html ready with ⟨fault | _, between⟩
  · rw [run_of_document_fault hplan hproduct hhtml] at hfault
    exact absurd trivial (hfault _ rfl)
  rcases hcss : writeOn product.stylesheetPath product.rewrite.css between with ⟨fault | _, last⟩
  · rw [run_of_stylesheet_fault hplan hproduct hhtml hcss] at hfault
    exact absurd trivial (hfault _ rfl)
  exact ⟨between, last, rfl, hcss⟩

omit hproduct in
theorem run_fst_eq
    (hfault : ∀ error,
      (run stampFor { options with dryRun := false } path s).1.outcome = .error error →
        ¬ error.IsWrite) :
    (run stampFor { options with dryRun := false } path s).1 = planned := by
  by_cases hconverted : ∃ product, planned.outcome = .ok (.converted product)
  · obtain ⟨product, hproduct⟩ := hconverted
    obtain ⟨between, last, hhtml, hcss⟩ := exists_writes hplan hproduct hfault
    rw [run_of_writes hplan hproduct hhtml hcss]
  · rw [run_of_not_converted hplan fun product hproduct => hconverted ⟨product, hproduct⟩]

end Plans

end States

/-! ### What is left of the files -/

/-- A disk with one file in its working directory. -/
def diskWith (name content : Bytes) : Disk := (Disk.empty [utf8 "w"]).withFile name content

def defaults : Options where
  output := none
  stylesheet := none
  scope := []
  mode := .permissive
  force := false
  dryRun := false

def paragraphProduct (path stylesheet : Path) : Product where
  records := [⟨utf8 "p", [], [], utf8 "a", [], 1, (Stamp.ofSeed 0).token 1⟩]
  rewrite := ⟨utf8 "<p class=\"p_line_1_1\">", [⟨[utf8 "p_line_1_1"], utf8 "a"⟩]⟩
  htmlPath := path
  stylesheetPath := stylesheet

variable {σ : Type} [FileAccess (StateM σ)] {stampFor : Bytes → Stamp} {options : Options}
  {path : Path} {s ready : σ} {planned : Result} {product : Product}

/-- What a conversion does to the files.  Without writing it changes none, and unless a write fails
it ends as it does without writing.  Nothing changes if it converts nothing or cannot write the
document, and only the document does if it cannot write the stylesheet. -/
theorem convert_effect (fs : FileSystem σ) {result : Result} {after : σ}
    (hplan : run stampFor { options with dryRun := true } path s = (planned, ready))
    (hrun : run stampFor { options with dryRun := false } path s = (result, after)) :
    fs.ChangesOnly [] s ready ∧
    (∀ error, planned.outcome = .error error → ¬ error.IsWrite) ∧
    ((∀ error, result.outcome = .error error → ¬ error.IsWrite) →
      result = planned ∧
      ((∀ product, result.outcome ≠ .ok (.converted product)) → fs.ChangesOnly [] s after) ∧
      ∀ product, result.outcome = .ok (.converted product) →
        fs.ChangesOnly [product.htmlPath, product.stylesheetPath] s after) ∧
    ((∀ product, planned.outcome ≠ .ok (.converted product)) → result = planned) ∧
    ∀ product, planned.outcome = .ok (.converted product) →
      (∀ fault last, writeOn product.htmlPath product.rewrite.html ready = (.error fault, last) →
        result = { planned with outcome := .error (.write product.htmlPath fault) } ∧
        fs.ChangesOnly [] s after) ∧
      ∀ between, writeOn product.htmlPath product.rewrite.html ready = (.ok (), between) →
        (∀ fault last,
          writeOn product.stylesheetPath product.rewrite.css between = (.error fault, last) →
            result = { planned with outcome := .error (.write product.stylesheetPath fault) } ∧
            fs.ChangesOnly [product.htmlPath] s after ∧
            fs.Holds after product.htmlPath product.rewrite.html) ∧
        ∀ last, writeOn product.stylesheetPath product.rewrite.css between = (.ok (), last) →
          result = planned := by
  have hready := changesOnly_dryRun stampFor options path s fs
  rw [hplan] at hready
  refine ⟨hready, fun error herror => ?_, fun hfault => ?_, fun hother => ?_,
    fun product hproduct => ⟨fun fault last hhtml => ?_, fun between hhtml =>
      ⟨fun fault last hcss => ?_, fun last hcss => ?_⟩⟩⟩
  · apply dryRun_ne_write stampFor options path s
    rw [hplan, herror]
  · have hresult := run_fst_eq hplan (by rwa [hrun])
    rw [hrun] at hresult
    subst hresult
    refine ⟨rfl, fun hother => ?_, fun product hproduct => ?_⟩
    · cases hrun.symm.trans (run_of_not_converted hplan hother)
      exact hready
    · obtain ⟨between, last, hhtml, hcss⟩ := exists_writes hplan hproduct (by rwa [hrun])
      cases hrun.symm.trans (run_of_writes hplan hproduct hhtml hcss)
      have hwritten := hready.trans (FileSystem.changesOnly_of_write_ok hhtml)
      exact hwritten.trans (FileSystem.changesOnly_of_write_ok hcss)
  · cases hrun.symm.trans (run_of_not_converted hplan hother)
    rfl
  · cases hrun.symm.trans (run_of_document_fault hplan hproduct hhtml)
    exact ⟨rfl, hready.trans (FileSystem.changesOnly_of_write_error hhtml)⟩
  · cases hrun.symm.trans (run_of_stylesheet_fault hplan hproduct hhtml hcss)
    have hwritten := hready.trans (FileSystem.changesOnly_of_write_ok hhtml)
    have hfault : fs.ChangesOnly [] between after := FileSystem.changesOnly_of_write_error hcss
    exact ⟨rfl, hwritten.trans hfault,
      (FileSystem.holds_of_write_ok hhtml).of_changesOnly hfault (by simp)⟩
  · cases hrun.symm.trans (run_of_writes hplan hproduct hhtml hcss)
    rfl

/-- A stylesheet that belongs into a directory that is not there. -/
theorem convert_effect_directory :
    let disk := diskWith (utf8 "index.html") (utf8 "<p style=\"a\">")
    let options := { defaults with stylesheet := some (utf8 "css/index.css") }
    let product := paragraphProduct (utf8 "index.html") (utf8 "css/index.css")
    let real := run (fun _ => Stamp.ofSeed 0) options (utf8 "index.html") disk
    real.1.outcome = .error (.write (utf8 "css/index.css") .notFound) ∧
      Disk.fileSystem.ChangesOnly [utf8 "index.html"] disk real.2 ∧
      real.2.read (utf8 "index.html") = .ok product.rewrite.html := by
  intro disk options product real
  let planned := (run (fun _ => Stamp.ofSeed 0) { options with dryRun := true }
    (utf8 "index.html") disk).1
  have hready : (run (fun _ => Stamp.ofSeed 0) { options with dryRun := true }
      (utf8 "index.html") disk).2 = disk := by decide +kernel
  have hplan : run (fun _ => Stamp.ofSeed 0) { options with dryRun := true }
      (utf8 "index.html") disk = (planned, disk) := Prod.ext rfl hready
  have hproduct : planned.outcome = .ok (.converted product) := by decide +kernel
  have hhtml : (writeOn product.htmlPath product.rewrite.html disk).1 = .ok () := by
    decide +kernel
  have hcss : (writeOn product.stylesheetPath product.rewrite.css
      (writeOn product.htmlPath product.rewrite.html disk).2).1 = .error .notFound := by
    decide +kernel
  have hrun : run (fun _ => Stamp.ofSeed 0) { options with dryRun := false }
      (utf8 "index.html") disk = (real.1, real.2) := rfl
  obtain ⟨-, -, -, -, hwrites⟩ := convert_effect Disk.fileSystem hplan hrun
  obtain ⟨-, hstored⟩ := hwrites product hproduct
  obtain ⟨hunstored, -⟩ := hstored _ (Prod.ext hhtml rfl)
  obtain ⟨hresult, hchanges, hholds⟩ := hunstored .notFound _ (Prod.ext hcss rfl)
  exact ⟨congrArg Result.outcome hresult, hchanges, Disk.read_of_holds hholds⟩

/-- What a conversion that succeeds leaves on disk.  The stylesheet is there, and the document is
there just if the stylesheet was not written over it, or is the same text. -/
theorem holds_document_iff (fs : FileSystem σ) (hwriting : options.dryRun = false)
    (hproduct : (run stampFor options path s).1.outcome = .ok (.converted product)) :
    let after := (run stampFor options path s).2
    fs.Holds after product.stylesheetPath product.rewrite.css ∧
      (fs.Holds after product.htmlPath product.rewrite.html ↔
        fs.named? s product.htmlPath ≠ fs.named? s product.stylesheetPath ∨
          product.rewrite.html = product.rewrite.css) := by
  have hreal : run stampFor options path s =
      run stampFor { options with dryRun := false } path s := by rw [← hwriting]
  rw [hreal] at hproduct ⊢
  rcases hplan : run stampFor { options with dryRun := true } path s with ⟨planned, ready⟩
  have hready := changesOnly_dryRun stampFor options path s fs
  rw [hplan] at hready
  have hfault : ∀ error,
      (run stampFor { options with dryRun := false } path s).1.outcome = .error error →
        ¬ error.IsWrite := by
    rw [hproduct]
    rintro error ⟨⟩
  have hplanned : planned.outcome = .ok (.converted product) := by
    rw [← run_fst_eq hplan hfault, hproduct]
  obtain ⟨between, last, hhtml, hcss⟩ := exists_writes hplan hplanned hfault
  rw [run_of_writes hplan hplanned hhtml hcss]
  have hwritten : fs.ChangesOnly [product.htmlPath] s between :=
    hready.trans (FileSystem.changesOnly_of_write_ok hhtml)
  have hstylesheet : fs.ChangesOnly [product.stylesheetPath] between last :=
    FileSystem.changesOnly_of_write_ok hcss
  have hholds : fs.Holds last product.stylesheetPath product.rewrite.css :=
    FileSystem.holds_of_write_ok hcss
  have hnamed : fs.named? last = fs.named? s := hstylesheet.1.trans hwritten.1
  have hdistinct : fs.named? s product.htmlPath ≠ fs.named? s product.stylesheetPath →
      fs.Holds last product.htmlPath product.rewrite.html := by
    intro hne
    refine (FileSystem.holds_of_write_ok hhtml).of_changesOnly hstylesheet ?_
    rw [List.forall_mem_singleton, hwritten.1]
    exact hne.symm
  refine ⟨hholds, ?_⟩
  by_cases hsame : fs.named? s product.htmlPath = fs.named? s product.stylesheetPath
  · have hover : fs.Holds last product.htmlPath product.rewrite.css :=
      hholds.congr (by rw [hnamed, hsame])
    constructor
    · intro hdocument
      exact .inr (hdocument.unique hover)
    · rintro (hne | heq)
      · exact absurd hsame hne
      · rwa [heq]
  · exact ⟨fun _ => .inl hsame, fun _ => hdistinct hsame⟩

/-- A document that is converted in its place, and its stylesheet beside it. -/
theorem holds_document_index :
    let disk := diskWith (utf8 "index.html") (utf8 "<p style=\"a\">")
    let product := paragraphProduct (utf8 "index.html") (utf8 "index.css")
    let real := run (fun _ => Stamp.ofSeed 0) defaults (utf8 "index.html") disk
    real.1.outcome = .ok (.converted product) ∧
      real.2.read (utf8 "index.html") = .ok product.rewrite.html ∧
      real.2.read (utf8 "index.css") = .ok product.rewrite.css := by
  intro disk product real
  have hproduct : real.1.outcome = .ok (.converted product) := by decide +kernel
  have hpaths : (disk.findFile (utf8 "index.html")).toOption ≠
      (disk.findFile (utf8 "index.css")).toOption := by decide +kernel
  obtain ⟨hstylesheet, hdocument⟩ := holds_document_iff Disk.fileSystem rfl hproduct
  exact ⟨hproduct, Disk.read_of_holds (hdocument.2 (.inl hpaths)), Disk.read_of_holds hstylesheet⟩

/-- A document with the name of a stylesheet, which is written over it. -/
theorem stylesheet_over_document :
    let disk := diskWith (utf8 "a.css") (utf8 "<p style=\"a\">")
    let product := paragraphProduct (utf8 "a.css") (utf8 "a.css")
    let real := run (fun _ => Stamp.ofSeed 0) { defaults with force := true } (utf8 "a.css") disk
    real.1.outcome = .ok (.converted product) ∧
      real.2.read (utf8 "a.css") = .ok product.rewrite.css ∧
      ¬ Disk.fileSystem.Holds real.2 product.htmlPath product.rewrite.html := by
  intro disk product real
  have hproduct : real.1.outcome = .ok (.converted product) := by decide +kernel
  have hread : real.2.read (utf8 "a.css") = .ok product.rewrite.css := by decide +kernel
  refine ⟨hproduct, hread, fun hholds => ?_⟩
  have hhtml : Except.ok product.rewrite.css = .ok product.rewrite.html :=
    hread.symm.trans (Disk.read_of_holds hholds)
  exact absurd hhtml (by decide +kernel)

end Conversion

end StyleHoist
