/-
What the programs do, over all file systems.

A program converts by stages of its own: it parses, builds and encodes one after the other where
reading a document does the first two at once. That makes no difference (`convert_result`): what
comes out, be it a text to write or the failure of a stage, is what the reader and the writer of
documents give.

Around the conversion there is one reading and one writing. How files are kept is left open
(`Files`): a path may lead nowhere, reading and writing may fail for reasons of their own, and all
that is asked of a file system is that what is read is what is there, and that writing, if it is
done, replaces one whole file. A run then ends in one of four ways (`Ending`), which say everything
about exit codes, output and untouched files (`run_agrees`).
-/
import DataLisp.Proofs.Directories
import DataLisp.Proofs.RoundTrip

set_option autoImplicit false

namespace DataLisp

theorem Parsed.logged_value (text : String) : (Parsed.logged text).value = Parsed.ofText text :=
  rfl

theorem Document.ofFormsLogged_value (registry : Registry) (forms : List Form) :
    (ofFormsLogged registry forms).value =
      ((ofForms registry forms).value, (ofForms registry forms).diagnostics) :=
  rfl

namespace Command

/-! ## File systems -/

/-- Files as a program meets them, in some state. -/
structure Files (σ ρ : Type) where
  /-- The place that a path leads to, if it leads to a place of a file. -/
  resolve : σ → String → Option ρ
  /-- The bytes of the file at a place, if there is one. -/
  content? : σ → ρ → Option (List UInt8)
  /-- Reading, which can fail also where there is a file. -/
  read? : σ → String → Option (List UInt8)
  /-- Writing, which can fail for any reason. -/
  write? : σ → String → String → Option σ
  /-- What is read is what is there. -/
  content?_of_read? : ∀ {s path bytes}, read? s path = some bytes →
    ∃ place, resolve s path = some place ∧ content? s place = some bytes
  /-- Writing replaces a whole file, and no other. -/
  content?_of_write? : ∀ {s s' path text}, write? s path text = some s' →
    ∃ place, resolve s path = some place ∧
      content? s' place = some (Text.Utf8.encode text.toList) ∧
      ∀ other, other ≠ place → content? s' other = content? s other

namespace Files

variable {σ ρ : Type} (files : Files σ ρ)

/-- The text of a file that can be read and is valid UTF-8. -/
def text? (s : σ) (path : String) : Option String := do
  let bytes ← files.read? s path
  return String.ofList (← Text.Utf8.decode? bytes)

/-- A file system as the place where a program keeps its files. -/
def storage : Storage (StateM σ) where
  read path := return files.text? (← get) path
  write path text := do
    match files.write? (← get) path text with
    | some s =>
      set s
      return true
    | none => return false

/-- Runs a program on a state of the files. -/
def run (s : σ) (program : Program) (o : Options) : Outcome × σ :=
  (Command.run files.storage program o).run s

theorem text?_eq_none_iff (s : σ) (path : String) :
    files.text? s path = none ↔ files.read? s path = none ∨
      ∃ bytes, files.read? s path = some bytes ∧ Text.Utf8.decode? bytes = none := by
  unfold text?
  cases files.read? s path with
  | none => simp
  | some bytes => cases hdecode : Text.Utf8.decode? bytes <;> simp [hdecode]

end Files

/-- Directories are a file system. -/
def Directory.files : Files Directory (List String) where
  resolve d path := (d.resolve path).bind fun target =>
    if target.isFolder then none else some target.place
  content? d place := (d.get? place).bind fun node =>
    match node with
    | .file bytes => some bytes
    | .folder => none
  read? := readBytes?
  write? := writeText?
  content?_of_read? := by
    intro d path bytes h
    simp only [readBytes?, Option.bind_eq_bind, Option.bind_eq_some_iff] at h
    obtain ⟨⟨place, isFolder⟩, hresolve, hbytes⟩ := h
    refine ⟨place, ?_⟩
    split at hbytes
    · rename_i hfolder hnode
      dsimp only at hfolder hnode
      subst hfolder
      cases hbytes
      exact ⟨by simp [hresolve], by simp [hnode]⟩
    · cases hbytes
  content?_of_write? := by
    intro d d' path text h
    obtain ⟨place, hresolve, hfile, rfl⟩ := writeText?_eq_some h
    have hplace : place ≠ [] := by
      rintro rfl
      exact hfile rfl
    refine ⟨place, by simp [hresolve], ?_, ?_⟩
    · rw [get?_put d hplace, if_pos rfl, Option.bind_some]
    · intro other hother
      rw [get?_put d hplace, if_neg hother]

/-- A run on a directory is a run on this file system. -/
theorem Directory.run_eq (d : Directory) (program : Program) (o : Options) :
    d.run program o = Directory.files.run d program o := by
  have hstorage : storage = Directory.files.storage := by
    unfold storage Files.storage
    congr 1
    funext path text
    apply StateT.ext
    intro d
    cases hwrite : d.writeText? path text <;> simp [files, hwrite]
  rw [Directory.run, Files.run, hstorage]

/-! ## The ways to end -/

section Run

variable {σ ρ : Type} (files : Files σ ρ) (s : σ) (program : Program) (o : Options)

/-- **How a run can end**: with its failure if it fails, what it prints, and the files after it.
Only the last way goes through a writing. -/
inductive Ending : Option Failure → String → σ → Prop where
  | unreadable (hread : files.text? s o.input = none) :
      Ending (some (.unreadable o.input)) "" s
  | unconverted {text : String} {failure : Failure} (hread : files.text? s o.input = some text)
      (hresult : (convert program o text).value.result = .error failure) :
      Ending (some failure) (convert program o text).value.printed s
  | unwritable {text written : String} {groups : Nat}
      (hread : files.text? s o.input = some text)
      (hresult : (convert program o text).value.result = .ok (written, groups))
      (hwrite : files.write? s o.output written = none) :
      Ending (some (.unwritable o.output)) (convert program o text).value.printed s
  | converted {text written : String} {groups : Nat} {s' : σ}
      (hread : files.text? s o.input = some text)
      (hresult : (convert program o text).value.result = .ok (written, groups))
      (hwrite : files.write? s o.output written = some s') :
      Ending none (convert program o text).value.printed s'

theorem ending_run : Ending files s program o (files.run s program o).1.failure
    (files.run s program o).1.printed (files.run s program o).2 := by
  simp only [Files.run, Command.run, runLogged, Files.storage, StateT.run_bind, StateT.run_get,
    pure_bind, bind_assoc]
  cases hread : files.text? s o.input with
  | none => exact .unreadable hread
  | some text =>
    cases hresult : (convert program o text).value.result with
    | error failure =>
      simp only [hresult]
      exact .unconverted hread hresult
    | ok result =>
      obtain ⟨written, groups⟩ := result
      cases hwrite : files.write? s o.output written with
      | none =>
        simp only [hresult, StateT.run_bind, StateT.run_get, pure_bind, hwrite]
        exact .unwritable hread hresult hwrite
      | some s' =>
        simp only [hresult, StateT.run_bind, StateT.run_get, pure_bind, hwrite]
        exact .converted hread hresult hwrite

end Run

/-! ## Conversions -/

/-- The layout that is asked for. -/
def Options.layout (o : Options) : Json.Layout :=
  if o.compact then .compact else .pretty

/-- What the reader and the writer of documents make of a text: the text to write, with the
number of groups in it, or the failure. -/
def libraryResult (o : Options) (text : String) : Program → Except Failure (String × Nat)
  | .toJson =>
    match Document.read text with
    | .error (.malformed ds) => .error (.malformed o.input ds)
    | .error (.unbuildable ds) => .error (.unbuildable o.input ds)
    | .ok doc =>
      match (doc.toJsonText o.layout).value with
      | .error e => .error (.unencodable e)
      | .ok json => .ok (json ++ "\n", doc.length)
  | .toText =>
    match (Document.ofJsonText text).value with
    | .error e => .error (.undecodable o.input e)
    | .ok doc =>
      match doc.write o.indent with
      | .error e => .error (.inexpressible e)
      | .ok written => .ok (written, doc.length)

/-- The stages of the conversion to JSON, without the log. -/
theorem convertToJson_value (o : Options) (text : String) :
    (convertToJson o text).value =
      if (Parsed.ofText text).diagnostics.hasErrors then
        ⟨"", .error (.malformed o.input (Parsed.ofText text).diagnostics)⟩
      else
        ⟨if o.dump then Outline.print (Parsed.ofText text).forms else "",
          if (Document.ofForms .standard (Parsed.ofText text).forms).diagnostics.hasErrors then
            .error (.unbuildable o.input
              (Document.ofForms .standard (Parsed.ofText text).forms).diagnostics)
          else
            match ((Document.ofForms .standard (Parsed.ofText text).forms).value.toJsonText
              o.layout).value with
            | .error e => .error (.unencodable e)
            | .ok json => .ok (json ++ "\n",
              (Document.ofForms .standard (Parsed.ofText text).forms).value.length)⟩ := by
  have hlayout : (if o.compact = true then Json.Layout.compact else .pretty) = o.layout := rfl
  cases hparsed : (Parsed.ofText text).diagnostics.hasErrors with
  | true => simp [convertToJson, Parsed.logged_value, hparsed, -bind_pure_comp]
  | false =>
    cases hbuilt :
      (Document.ofForms .standard (Parsed.ofText text).forms).diagnostics.hasErrors with
    | true =>
      simp [convertToJson, Parsed.logged_value, hparsed, Document.ofFormsLogged_value, hbuilt,
        -bind_pure_comp]
    | false =>
      cases hjson : ((Document.ofForms .standard (Parsed.ofText text).forms).value.toJsonText
        o.layout).value <;>
      simp [convertToJson, Parsed.logged_value, hparsed, Document.ofFormsLogged_value, hbuilt,
        hlayout, hjson]

/-- **The stages of a program are those of the library.** Parsing and building one after the
other, each with a test for errors of its own, classifies every text as reading it does. -/
theorem convert_result (program : Program) (o : Options) (text : String) :
    (convert program o text).value.result = libraryResult o text program := by
  cases program with
  | toText =>
    rw [convert, convertToText, libraryResult, Noted.value_bind]
    cases (Document.ofJsonText text).value with
    | error e => rfl
    | ok doc =>
      dsimp only
      cases doc.write o.indent <;> rfl
  | toJson =>
    rw [convert, convertToJson_value, libraryResult, Document.read, Document.readWith_value]
    by_cases hparsed : (Parsed.ofText text).diagnostics.hasErrors = true
    · rw [if_pos hparsed, if_pos hparsed]
    · rw [if_neg hparsed, if_neg hparsed]
      by_cases hbuilt :
          (Document.ofForms .standard (Parsed.ofText text).forms).diagnostics.hasErrors = true
      · rw [if_pos hbuilt, if_pos hbuilt]
      · rw [if_neg hbuilt, if_neg hbuilt]

/-- The dump is printed as soon as the text is known to have no errors. -/
theorem printed_toJson (o : Options) (text : String) :
    (convert .toJson o text).value.printed =
      if o.dump && !(Parsed.ofText text).diagnostics.hasErrors then
        Outline.print (Parsed.ofText text).forms
      else "" := by
  rw [convert, convertToJson_value]
  cases (Parsed.ofText text).diagnostics.hasErrors with
  | true => simp
  | false => simp

theorem printed_toText (o : Options) (text : String) :
    (convert .toText o text).value.printed = "" := by
  rw [convert, convertToText, Noted.value_bind]
  cases (Document.ofJsonText text).value with
  | error e => rfl
  | ok doc =>
    dsimp only
    cases doc.write o.indent <;> rfl

/-! ## Agreement with the library -/

/-- **What a run comes to**, in terms of its input: which texts are rejected, for which texts the
program fails, and what it writes for which others. Nothing but a successful run changes any file,
and it changes only the file that the output path leads to. -/
structure Agrees {σ ρ : Type} (files : Files σ ρ) (s : σ) (o : Options)
    (rejected failed : String → Prop) (result : String → String → Prop) (outcome : Outcome)
    (after : σ) : Prop where
  unreadable : outcome.exitCode = -2 ↔ files.read? s o.input = none ∨
    ∃ bytes, files.read? s o.input = some bytes ∧ Text.Utf8.decode? bytes = none
  rejected : outcome.exitCode = -3 ↔ ∃ text, files.text? s o.input = some text ∧ rejected text
  failed : outcome.exitCode = -4 ↔ ∃ text, files.text? s o.input = some text ∧ failed text
  unwritable : outcome.exitCode = -5 ↔ ∃ text written, files.text? s o.input = some text ∧
    result text written ∧ files.write? s o.output written = none
  converted : outcome.exitCode = 0 ↔ ∃ text written, files.text? s o.input = some text ∧
    result text written ∧ (files.write? s o.output written).isSome
  output : outcome.exitCode = 0 → ∃ text written place, files.text? s o.input = some text ∧
    result text written ∧ files.resolve s o.output = some place ∧
    files.content? after place = some (Text.Utf8.encode written.toList)
  unchanged : outcome.exitCode ≠ 0 → after = s
  others : ∀ place, files.resolve s o.output ≠ some place →
    files.content? after place = files.content? s place

/-- The texts of which the library makes a failure with a given exit code. -/
def FailsWith (program : Program) (o : Options) (code : Int) (text : String) : Prop :=
  ∃ failure, libraryResult o text program = .error failure ∧ failure.exitCode = code

/-- What the library makes of a text to be written. -/
def Writes (program : Program) (o : Options) (text written : String) : Prop :=
  ∃ groups, libraryResult o text program = .ok (written, groups)

section Library

variable {o : Options}

/-- What becomes of a text in `toJson`, by what reading it gives. -/
theorem libraryResult_toJson (text : String) :
    (FailsWith .toJson o (-3) text ↔ ∃ ds, Document.read text = .error (.malformed ds)) ∧
    (FailsWith .toJson o (-4) text ↔ (∃ ds, Document.read text = .error (.unbuildable ds)) ∨
      ∃ doc e, Document.read text = .ok doc ∧ (doc.toJsonText o.layout).value = .error e) ∧
    ∀ written, Writes .toJson o text written ↔ ∃ doc json, Document.read text = .ok doc ∧
      (doc.toJsonText o.layout).value = .ok json ∧ written = json ++ "\n" := by
  unfold FailsWith Writes libraryResult
  cases Document.read text with
  | error e => cases e <;> simp [Failure.exitCode]
  | ok doc =>
    cases hjson : (doc.toJsonText o.layout).value <;> simp [Failure.exitCode, hjson, eq_comm]

/-- What becomes of a text in `toText`, by what importing it gives. -/
theorem libraryResult_toText (text : String) :
    (FailsWith .toText o (-3) text ↔ ∃ e, (Document.ofJsonText text).value = .error e) ∧
    (FailsWith .toText o (-4) text ↔
      ∃ doc e, (Document.ofJsonText text).value = .ok doc ∧ doc.write o.indent = .error e) ∧
    ∀ written, Writes .toText o text written ↔
      ∃ doc, (Document.ofJsonText text).value = .ok doc ∧ doc.write o.indent = .ok written := by
  unfold FailsWith Writes libraryResult
  cases (Document.ofJsonText text).value with
  | error e => simp [Failure.exitCode]
  | ok doc => cases hwrite : doc.write o.indent <;> simp [Failure.exitCode, hwrite]

/-- A failure of the library is one of the two stages in the middle. -/
theorem exitCode_of_libraryResult {program : Program} {text : String} {failure : Failure}
    (h : libraryResult o text program = .error failure) :
    failure.exitCode = -3 ∨ failure.exitCode = -4 := by
  cases program with
  | toJson =>
    simp only [libraryResult] at h
    split at h
    · cases h
      exact .inl rfl
    · cases h
      exact .inr rfl
    · split at h
      · cases h
        exact .inr rfl
      · cases h
  | toText =>
    simp only [libraryResult] at h
    split at h
    · cases h
      exact .inl rfl
    · split at h
      · cases h
        exact .inr rfl
      · cases h

end Library

/-- **A run agrees with the library**, whatever the files: the text that it reads decides how it
ends, unless there is none or the writing fails. -/
theorem agrees_run {σ ρ : Type} (files : Files σ ρ) (s : σ) (program : Program) (o : Options) :
    Agrees files s o (FailsWith program o (-3)) (FailsWith program o (-4)) (Writes program o)
      (files.run s program o).1 (files.run s program o).2 := by
  have hending := ending_run files s program o
  generalize files.run s program o = outcome at hending ⊢
  obtain ⟨⟨failure, log, printed⟩, after⟩ := outcome
  dsimp only at hending ⊢
  have hnone := files.text?_eq_none_iff s o.input
  cases hending with
  | unreadable hread =>
    constructor <;> simp [Outcome.exitCode, Failure.exitCode, ← hnone, hread]
  | @unconverted text failure hread hresult =>
    rw [convert_result] at hresult
    -- the stages in the middle have the exit codes in the middle
    have hother : ∀ code ∈ [-2, -5, 0], failure.exitCode ≠ code := by
      rcases exitCode_of_libraryResult hresult with hcode | hcode <;> simp [hcode]
    simp only [List.forall_mem_cons] at hother
    constructor <;> simp [Outcome.exitCode, ← hnone, hread, FailsWith, Writes, hresult, hother]
  | unwritable hread hresult hwrite =>
    rw [convert_result] at hresult
    constructor <;> simp [Outcome.exitCode, Failure.exitCode, ← hnone, hread, FailsWith, Writes,
      hresult, hwrite]
  | @converted text written groups after hread hresult hwrite =>
    rw [convert_result] at hresult
    obtain ⟨place, hresolve, hcontent, hothers⟩ := files.content?_of_write? hwrite
    constructor
    case output =>
      exact fun _ => ⟨text, written, place, hread, ⟨groups, hresult⟩, hresolve, hcontent⟩
    case others =>
      intro other hother
      apply hothers
      rintro rfl
      exact hother hresolve
    all_goals simp [Outcome.exitCode, ← hnone, hread, FailsWith, Writes, hresult, hwrite]

/-- Other words for what decides about a run. -/
theorem Agrees.congr {σ ρ : Type} {files : Files σ ρ} {s after : σ} {o : Options}
    {outcome : Outcome} {rejected rejected' failed failed' : String → Prop}
    {result result' : String → String → Prop}
    (h : Agrees files s o rejected failed result outcome after)
    (hiff : ∀ text, (rejected text ↔ rejected' text) ∧ (failed text ↔ failed' text) ∧
      ∀ written, result text written ↔ result' text written) :
    Agrees files s o rejected' failed' result' outcome after := by
  have hrejected : rejected = rejected' := funext fun text => propext (hiff text).1
  have hfailed : failed = failed' := funext fun text => propext (hiff text).2.1
  have hresult : result = result' :=
    funext fun text => funext fun written => propext ((hiff text).2.2 written)
  rwa [← hrejected, ← hfailed, ← hresult]

theorem printed_run {σ ρ : Type} (files : Files σ ρ) (s : σ) (program : Program) (o : Options) :
    (files.run s program o).1.printed = (match files.text? s o.input with
      | none => ""
      | some text => (convert program o text).value.printed) := by
  have hending := ending_run files s program o
  generalize files.run s program o = outcome at hending ⊢
  obtain ⟨⟨failure, log, printed⟩, after⟩ := outcome
  cases hending with
  | unreadable hread | unconverted hread _ | unwritable hread _ _ | converted hread _ _ =>
    rw [hread]

/-- **The programs agree with the library and leave no partial output.** On any file system in any
state, a run of `toJson` fails with the code of a stage just when reading the document, exporting
it or writing the file does, and otherwise writes the exported JSON and a line break; the dump is
printed if it is asked for and the text has no syntax error. A run of `toText` does the same for
importing and generating, and prints nothing. An input that is not there cannot be read. -/
theorem run_agrees {σ ρ : Type} (files : Files σ ρ) (s : σ) (o : Options) :
    Agrees files s o
        (fun text => ∃ ds, Document.read text = .error (.malformed ds))
        (fun text => (∃ ds, Document.read text = .error (.unbuildable ds)) ∨
          ∃ doc e, Document.read text = .ok doc ∧ (doc.toJsonText o.layout).value = .error e)
        (fun text written => ∃ doc json, Document.read text = .ok doc ∧
          (doc.toJsonText o.layout).value = .ok json ∧ written = json ++ "\n")
        (files.run s .toJson o).1 (files.run s .toJson o).2 ∧
      (files.run s .toJson o).1.printed = (match files.text? s o.input with
        | none => ""
        | some text =>
          if o.dump && !(Parsed.ofText text).diagnostics.hasErrors then
            Outline.print (Parsed.ofText text).forms
          else "") ∧
      Agrees files s o
        (fun text => ∃ e, (Document.ofJsonText text).value = .error e)
        (fun text => ∃ doc e, (Document.ofJsonText text).value = .ok doc ∧
          doc.write o.indent = .error e)
        (fun text written => ∃ doc, (Document.ofJsonText text).value = .ok doc ∧
          doc.write o.indent = .ok written)
        (files.run s .toText o).1 (files.run s .toText o).2 ∧
      (files.run s .toText o).1.printed = "" ∧
      ∀ program, (∀ place, files.resolve s o.input = some place → files.content? s place = none) →
        (files.run s program o).1.exitCode = -2 := by
  refine ⟨(agrees_run files s .toJson o).congr libraryResult_toJson, ?_,
    (agrees_run files s .toText o).congr libraryResult_toText, ?_, ?_⟩
  · simp only [printed_run, printed_toJson]
  · rw [printed_run]
    cases files.text? s o.input with
    | none => rfl
    | some text => exact printed_toText o text
  · intro program hmissing
    apply (agrees_run files s program o).unreadable.mpr
    left
    rw [Option.eq_none_iff_forall_ne_some]
    intro bytes hread
    obtain ⟨place, hresolve, hcontent⟩ := files.content?_of_read? hread
    rw [hmissing place hresolve] at hcontent
    cases hcontent

end Command

end DataLisp
