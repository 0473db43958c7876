import WordAssembler.Proofs.Assembly
import WordAssembler.Proofs.FileTree
import WordAssembler.Proofs.Transcript

/-!
# How a run ends

A run reads its input, assembles it, and only then writes: the memory image, and after it the symbol
file if there is to be one. Every file is complete before it is written, so a run that fails leaves
the files that it wrote before and nothing else. There are six ways for a run to end, and each fixes
the status, all of the output and the files; what is to be known about runs is read off them.
-/

namespace WordAssembler

namespace Plan

def imageWriting (arguments : Arguments) (assembly : Assembly) : Writing :=
  writing arguments.input "3. Write Memory Image\n" arguments.output assembly.program.image

def symbolWriting (arguments : Arguments) (assembly : Assembly) (path : String) : Writing :=
  writing arguments.input "" path assembly.labels.symbolMap.render

theorem writings_of_none {arguments : Arguments} (hsymbols : arguments.symbols? = none)
    (assembly : Assembly) : writings arguments assembly = [imageWriting arguments assembly] := by
  rw [writings, hsymbols]
  rfl

theorem writings_of_some {arguments : Arguments} {path : String}
    (hsymbols : arguments.symbols? = some path) (assembly : Assembly) :
    writings arguments assembly =
      [imageWriting arguments assembly, symbolWriting arguments assembly path] := by
  rw [writings, hsymbols]
  rfl

theorem path_imageWriting (arguments : Arguments) (assembly : Assembly) :
    (imageWriting arguments assembly).path = arguments.output :=
  rfl

theorem content_imageWriting (arguments : Arguments) (assembly : Assembly) :
    (imageWriting arguments assembly).content = assembly.program.image := by
  rw [imageWriting, writing]

theorem path_symbolWriting (arguments : Arguments) (assembly : Assembly) (path : String) :
    (symbolWriting arguments assembly path).path = path :=
  rfl

theorem content_symbolWriting (arguments : Arguments) (assembly : Assembly) (path : String) :
    (symbolWriting arguments assembly path).content = assembly.labels.symbolMap.render := by
  rw [symbolWriting, writing]

end Plan

namespace Command

/-! ### Reading and writing -/

theorem source?_eq_some_iff {arguments : Arguments} {tree : FileTree} {text : String} :
    source? arguments tree = some text ↔ tree.read? arguments.input = some text.toUTF8 := by
  have hdecode : ∀ bytes, String.fromUTF8? bytes = some text ↔ bytes = text.toUTF8 := by
    intro bytes
    unfold String.fromUTF8?
    split_ifs with hvalid
    · rw [Option.some.injEq, ← String.toByteArray_inj]
      rfl
    · simp only [false_iff]
      rintro rfl
      exact hvalid text.isValidUTF8
  simp only [source?, Option.bind_eq_bind, Option.bind_eq_some_iff, hdecode, exists_eq_right]

def WrittenAll (tree : FileTree) : List Writing → FileTree → Prop
  | [], after => after = tree
  | file :: files, after => ∃ middle, tree.Written file.path file.content.toUTF8 middle ∧
      WrittenAll middle files after

theorem writtenAll_nil {tree after : FileTree} : WrittenAll tree [] after ↔ after = tree :=
  Iff.rfl

theorem writtenAll_cons {tree after : FileTree} {file : Writing} {files : List Writing} :
    WrittenAll tree (file :: files) after ↔
      ∃ middle, tree.Written file.path file.content.toUTF8 middle ∧
        WrittenAll middle files after :=
  Iff.rfl

section WriteFiles

variable {tree : FileTree} {files : List Writing}

/-- A file that is written does not change which paths are the terminal. -/
theorem shown_of_written {path : String} {content : ByteArray} {after : FileTree}
    (hwritten : tree.Written path content after) : shown after = shown tree := by
  funext file
  rw [shown, shown, hwritten.prints_eq]

/-- Writing a file takes no directory away and adds none, so files that can be created one by one
can be created one after the other. -/
theorem writeFiles_of_creatable (hfiles : ∀ file ∈ files, tree.isCreatable file.path)
    (closing output : String) :
    (writeFiles closing files output tree).status = 0 ∧
      (writeFiles closing files output tree).output =
        output ++ String.join (files.map (shown tree)) ++ closing ∧
      WrittenAll tree files (writeFiles closing files output tree).tree := by
  induction files generalizing tree output with
  | nil =>
      rw [List.map_nil, String.join_nil, String.append_empty]
      exact ⟨rfl, rfl, rfl⟩
  | cons file files ih =>
      rw [List.forall_mem_cons] at hfiles
      obtain ⟨middle, hmiddle, hwritten⟩ :=
        FileTree.exists_write? hfiles.1 file.content.toUTF8
      rw [writeFiles, hmiddle]
      have hrest : ∀ file ∈ files, middle.isCreatable file.path := by
        simpa only [hwritten.isCreatable_eq] using hfiles.2
      obtain ⟨hstatus, houtput, hall⟩ := ih hrest _
      refine ⟨hstatus, ?_, middle, hwritten, hall⟩
      rw [houtput, shown_of_written hwritten, List.map_cons, String.join_cons, shown]
      simp only [String.append_assoc]

/-- The first file that cannot be created ends the run, whatever comes after it. -/
theorem writeFiles_of_not_creatable {before later : List Writing} {file : Writing}
    (hfiles : files = before ++ file :: later)
    (hbefore : ∀ file ∈ before, tree.isCreatable file.path) (hfile : ¬tree.isCreatable file.path)
    (closing output : String) :
    (writeFiles closing files output tree).status = 1 ∧
      (writeFiles closing files output tree).output =
        output ++ String.join (before.map (shown tree)) ++ (file.announcement ++ file.refusal) ∧
      WrittenAll tree before (writeFiles closing files output tree).tree := by
  subst hfiles
  induction before generalizing tree output with
  | nil =>
      rw [List.nil_append, writeFiles, FileTree.write?_of_not_creatable hfile, List.map_nil,
        String.join_nil, String.append_empty, ← String.append_assoc]
      exact ⟨rfl, rfl, rfl⟩
  | cons first before ih =>
      rw [List.forall_mem_cons] at hbefore
      obtain ⟨middle, hmiddle, hwritten⟩ :=
        FileTree.exists_write? hbefore.1 first.content.toUTF8
      rw [List.cons_append, writeFiles, hmiddle]
      have hrest : ∀ file ∈ before, middle.isCreatable file.path := by
        simpa only [hwritten.isCreatable_eq] using hbefore.2
      have hstill : ¬middle.isCreatable file.path := by rwa [hwritten.isCreatable_eq]
      obtain ⟨hstatus, houtput, hall⟩ := ih hrest hstill _
      refine ⟨hstatus, ?_, middle, hwritten, hall⟩
      rw [houtput, shown_of_written hwritten, List.map_cons, String.join_cons, shown]
      simp only [String.append_assoc]

end WriteFiles

/-! ### The whole run -/

/-- The ways a run can end, each with its status, its output and the files that it leaves. -/
inductive Ends (arguments : Arguments) (tree : FileTree) : Nat → String → FileTree → Prop
  | unreadable (hinput : ∀ text : String, tree.read? arguments.input ≠ some text.toUTF8) :
      Ends arguments tree 1 (reading arguments.input ++
        told .error ("Failed to open file: " ++ arguments.input) arguments.input none) tree
  | faulty {text : String} {report : Report}
      (hinput : tree.read? arguments.input = some text.toUTF8)
      (hreport : assemble text = .error report) :
      Ends arguments tree 1 (reading arguments.input ++ "2. Resolve Labels & Encode\n" ++
        toldReport arguments.input report) tree
  | imageRefused {text : String} {assembly : Assembly}
      (hinput : tree.read? arguments.input = some text.toUTF8)
      (hassemble : assemble text = .ok assembly) (houtput : ¬tree.isCreatable arguments.output) :
      Ends arguments tree 1 (encoding arguments assembly ++
        refusing arguments.input arguments.output) tree
  | symbolsRefused {text : String} {assembly : Assembly} {path : String} {imaged : FileTree}
      (hinput : tree.read? arguments.input = some text.toUTF8)
      (hassemble : assemble text = .ok assembly) (houtput : tree.isCreatable arguments.output)
      (hsymbols : arguments.symbols? = some path) (hpath : ¬tree.isCreatable path)
      (himaged : tree.Written arguments.output assembly.program.image.toUTF8 imaged) :
      Ends arguments tree 1 (encoding arguments assembly ++
        saving tree arguments.output assembly.program.image ++
        refusing arguments.input path) imaged
  | imageSaved {text : String} {assembly : Assembly} {imaged : FileTree}
      (hinput : tree.read? arguments.input = some text.toUTF8)
      (hassemble : assemble text = .ok assembly) (houtput : tree.isCreatable arguments.output)
      (hsymbols : arguments.symbols? = none)
      (himaged : tree.Written arguments.output assembly.program.image.toUTF8 imaged) :
      Ends arguments tree 0 (encoding arguments assembly ++
        saving tree arguments.output assembly.program.image ++
        doneLine assembly.program.size assembly.program.depth) imaged
  | bothSaved {text : String} {assembly : Assembly} {path : String} {imaged after : FileTree}
      (hinput : tree.read? arguments.input = some text.toUTF8)
      (hassemble : assemble text = .ok assembly) (houtput : tree.isCreatable arguments.output)
      (hsymbols : arguments.symbols? = some path) (hpath : tree.isCreatable path)
      (himaged : tree.Written arguments.output assembly.program.image.toUTF8 imaged)
      (hafter : imaged.Written path assembly.labels.symbolMap.render.toUTF8 after) :
      Ends arguments tree 0 (encoding arguments assembly ++
        saving tree arguments.output assembly.program.image ++
        saving tree path assembly.labels.symbolMap.render ++
        doneLine assembly.program.size assembly.program.depth) after

/-- Holds where a run gets to no file: the input cannot be read or is no text, or it cannot be
assembled, or the memory image cannot be created. -/
inductive Barred (arguments : Arguments) (tree : FileTree) : Prop
  | unreadable (hinput : ∀ text : String, tree.read? arguments.input ≠ some text.toUTF8)
  | faulty {text : String} {report : Report}
      (hinput : tree.read? arguments.input = some text.toUTF8)
      (hreport : assemble text = .error report)
  | uncreatable (houtput : ¬tree.isCreatable arguments.output)

section Run

variable {arguments : Arguments} {tree : FileTree} {text : String} {assembly : Assembly}

theorem ends_of_unreadable
    (hinput : ∀ text : String, tree.read? arguments.input ≠ some text.toUTF8) :
    Ends arguments tree (run arguments tree).status (run arguments tree).output
      (run arguments tree).tree := by
  have hnone : source? arguments tree = none := by
    rw [Option.eq_none_iff_forall_ne_some]
    intro text htext
    exact hinput text (source?_eq_some_iff.mp htext)
  have htold := render_eq_told arguments.input
    ⟨.error, "Failed to open file: " ++ arguments.input, none⟩
  rw [run, hnone, Plan.ofSource, perform, Plan.fileFailure, htold]
  exact .unreadable hinput

theorem ends_of_faulty {report : Report} (hinput : tree.read? arguments.input = some text.toUTF8)
    (hreport : assemble text = .error report) :
    Ends arguments tree (run arguments tree).status (run arguments tree).output
      (run arguments tree).tree := by
  rw [run, source?_eq_some_iff.mpr hinput, Plan.ofSource]
  simp only [hreport, perform, report_render_eq]
  exact .faulty hinput hreport

/-- All that is printed up to the image and with it. -/
theorem printed_image : reading arguments.input ++ "2. Resolve Labels & Encode\n" ++
    Plan.summary arguments assembly ++ shown tree (Plan.imageWriting arguments assembly) =
      encoding arguments assembly ++ saving tree arguments.output assembly.program.image := by
  rw [Plan.imageWriting, shown_writing, String.append_assoc, String.append_assoc]
  exact summary_append arguments assembly _

theorem shown_symbolWriting (path : String) :
    shown tree (Plan.symbolWriting arguments assembly path) =
      saving tree path assembly.labels.symbolMap.render := by
  rw [Plan.symbolWriting, shown_writing, String.empty_append]

/-- The image is the first of the files, whatever comes after it. -/
theorem exists_imaged {files : List Writing} {after : FileTree}
    (hall : WrittenAll tree (Plan.imageWriting arguments assembly :: files) after) :
    ∃ imaged, tree.Written arguments.output assembly.program.image.toUTF8 imaged ∧
      WrittenAll imaged files after := by
  obtain ⟨imaged, himaged, hrest⟩ := writtenAll_cons.mp hall
  rw [Plan.path_imageWriting, Plan.content_imageWriting] at himaged
  exact ⟨imaged, himaged, hrest⟩

section Assembled

variable (hinput : tree.read? arguments.input = some text.toUTF8)
  (hassemble : assemble text = .ok assembly)

include hinput hassemble

/-- A run on a source that assembles has only its files left to write. -/
theorem run_of_assembled : run arguments tree =
    writeFiles (doneLine assembly.program.size assembly.program.depth)
      (Plan.writings arguments assembly)
      (reading arguments.input ++ "2. Resolve Labels & Encode\n" ++
        Plan.summary arguments assembly) tree := by
  rw [run, source?_eq_some_iff.mpr hinput, Plan.ofSource, ← closing_eq]
  simp only [hassemble, perform]
  rfl

theorem ends_of_image_refused (houtput : ¬tree.isCreatable arguments.output) :
    Ends arguments tree (run arguments tree).status (run arguments tree).output
      (run arguments tree).tree := by
  have hfiles : Plan.writings arguments assembly =
      [] ++ Plan.imageWriting arguments assembly :: _ := rfl
  rw [run_of_assembled hinput hassemble]
  obtain ⟨hstatus, hprinted, hnothing⟩ :=
    writeFiles_of_not_creatable hfiles (by simp) houtput _ _
  have hends := Ends.imageRefused hinput hassemble houtput
  rw [hstatus, hprinted, writtenAll_nil.mp hnothing, Plan.imageWriting, refusal_writing]
  simpa only [List.map_nil, String.join_nil, String.append_empty, String.append_assoc,
    summary_append] using hends

theorem ends_of_symbols_refused (houtput : tree.isCreatable arguments.output) {path : String}
    (hsymbols : arguments.symbols? = some path) (hpath : ¬tree.isCreatable path) :
    Ends arguments tree (run arguments tree).status (run arguments tree).output
      (run arguments tree).tree := by
  have hfiles : Plan.writings arguments assembly = [Plan.imageWriting arguments assembly] ++
      Plan.symbolWriting arguments assembly path :: [] := Plan.writings_of_some hsymbols assembly
  have hbefore : ∀ file ∈ [Plan.imageWriting arguments assembly], tree.isCreatable file.path := by
    rw [List.forall_mem_singleton]
    exact houtput
  rw [run_of_assembled hinput hassemble]
  obtain ⟨hstatus, hprinted, hall⟩ := writeFiles_of_not_creatable hfiles hbefore hpath _ _
  obtain ⟨imaged, himaged, hlast⟩ := exists_imaged hall
  have hends := Ends.symbolsRefused hinput hassemble houtput hsymbols hpath himaged
  rw [hstatus, hprinted, writtenAll_nil.mp hlast, List.map_singleton, String.join_cons,
    String.join_nil, String.append_empty, printed_image, Plan.symbolWriting, refusal_writing,
    String.empty_append]
  exact hends

theorem ends_of_image_saved (houtput : tree.isCreatable arguments.output)
    (hsymbols : arguments.symbols? = none) :
    Ends arguments tree (run arguments tree).status (run arguments tree).output
      (run arguments tree).tree := by
  have hfiles : ∀ file ∈ [Plan.imageWriting arguments assembly], tree.isCreatable file.path := by
    rw [List.forall_mem_singleton]
    exact houtput
  rw [run_of_assembled hinput hassemble, Plan.writings_of_none hsymbols]
  obtain ⟨hstatus, hprinted, hall⟩ := writeFiles_of_creatable hfiles _ _
  obtain ⟨imaged, himaged, hlast⟩ := exists_imaged hall
  have hends := Ends.imageSaved hinput hassemble houtput hsymbols himaged
  rw [hstatus, hprinted, writtenAll_nil.mp hlast, List.map_singleton, String.join_cons,
    String.join_nil, String.append_empty, printed_image]
  exact hends

theorem ends_of_both_saved (houtput : tree.isCreatable arguments.output) {path : String}
    (hsymbols : arguments.symbols? = some path) (hpath : tree.isCreatable path) :
    Ends arguments tree (run arguments tree).status (run arguments tree).output
      (run arguments tree).tree := by
  have hfiles : ∀ file ∈ [Plan.imageWriting arguments assembly,
      Plan.symbolWriting arguments assembly path], tree.isCreatable file.path := by
    rw [List.forall_mem_cons, List.forall_mem_singleton]
    exact ⟨houtput, hpath⟩
  rw [run_of_assembled hinput hassemble, Plan.writings_of_some hsymbols]
  obtain ⟨hstatus, hprinted, hall⟩ := writeFiles_of_creatable hfiles _ _
  obtain ⟨imaged, himaged, hrest⟩ := exists_imaged hall
  obtain ⟨after, hafter, hlast⟩ := writtenAll_cons.mp hrest
  rw [Plan.path_symbolWriting, Plan.content_symbolWriting] at hafter
  have hends := Ends.bothSaved hinput hassemble houtput hsymbols hpath himaged hafter
  rw [hstatus, hprinted, writtenAll_nil.mp hlast, List.map_cons, List.map_singleton,
    String.join_cons, String.join_cons, String.join_nil, String.append_empty,
    ← String.append_assoc, printed_image, shown_symbolWriting]
  exact hends

end Assembled

/-- What `run` does, in one statement: the cases follow the order in which a run can fail. -/
theorem run_ends (arguments : Arguments) (tree : FileTree) :
    Ends arguments tree (run arguments tree).status (run arguments tree).output
      (run arguments tree).tree := by
  by_cases hinput : ∃ text : String, tree.read? arguments.input = some text.toUTF8
  · obtain ⟨text, hinput⟩ := hinput
    cases hassemble : assemble text with
    | error report => exact ends_of_faulty hinput hassemble
    | ok assembly =>
        by_cases houtput : tree.isCreatable arguments.output
        · cases hsymbols : arguments.symbols? with
          | none => exact ends_of_image_saved hinput hassemble houtput hsymbols
          | some path =>
              by_cases hpath : tree.isCreatable path
              · exact ends_of_both_saved hinput hassemble houtput hsymbols hpath
              · exact ends_of_symbols_refused hinput hassemble houtput hsymbols hpath
        · exact ends_of_image_refused hinput hassemble houtput
  · exact ends_of_unreadable fun text htext => hinput ⟨text, htext⟩

/-- A run is not barred where there is an assembly and a place for its image. -/
theorem not_barred_iff : ¬Barred arguments tree ↔ tree.isCreatable arguments.output ∧
    ∃ text assembly, tree.read? arguments.input = some text.toUTF8 ∧
      assemble text = .ok assembly := by
  constructor
  · intro hbarred
    refine ⟨by_contra fun houtput => hbarred (.uncreatable houtput), ?_⟩
    by_cases hinput : ∃ text : String, tree.read? arguments.input = some text.toUTF8
    · obtain ⟨text, hinput⟩ := hinput
      cases hassemble : assemble text with
      | error report => exact absurd (.faulty hinput hassemble) hbarred
      | ok assembly => exact ⟨text, assembly, hinput, hassemble⟩
    · exact absurd (.unreadable fun text htext => hinput ⟨text, htext⟩) hbarred
  · rintro ⟨houtput, text, assembly, hinput, hassemble⟩ hbarred
    cases hbarred with
    | unreadable hunreadable => exact hunreadable text hinput
    | faulty hother hreport =>
        rw [← source?_eq_some_iff] at hinput hother
        rw [hinput] at hother
        cases hother
        rw [hassemble] at hreport
        cases hreport
    | uncreatable hbad => exact hbad houtput

section Ends

variable {status : Nat} {output : String} {after : FileTree}

/-- A barred run fails before the first file is written. -/
theorem Ends.of_barred (hends : Ends arguments tree status output after)
    (hbarred : Barred arguments tree) : status = 1 ∧ after = tree := by
  have hopen : tree.isCreatable arguments.output → ∀ text assembly,
      tree.read? arguments.input = some text.toUTF8 → assemble text ≠ .ok assembly := by
    intro houtput text assembly hinput hassemble
    exact not_barred_iff.mpr ⟨houtput, text, assembly, hinput, hassemble⟩ hbarred
  cases hends with
  | unreadable hinput => exact ⟨rfl, rfl⟩
  | faulty hinput hreport => exact ⟨rfl, rfl⟩
  | imageRefused hinput hassemble houtput => exact ⟨rfl, rfl⟩
  | symbolsRefused hinput hassemble houtput hsymbols hpath himaged =>
      exact absurd hassemble (hopen houtput _ _ hinput)
  | imageSaved hinput hassemble houtput hsymbols himaged =>
      exact absurd hassemble (hopen houtput _ _ hinput)
  | bothSaved hinput hassemble houtput hsymbols hpath himaged hafter =>
      exact absurd hassemble (hopen houtput _ _ hinput)

theorem Ends.of_not_barred (hends : Ends arguments tree status output after)
    (hbarred : ¬Barred arguments tree) : ∃ text assembly,
      tree.read? arguments.input = some text.toUTF8 ∧ assemble text = .ok assembly ∧
      ((∃ path, arguments.symbols? = some path ∧ ¬tree.isCreatable path) → status = 1 ∧
        tree.Written arguments.output assembly.program.image.toUTF8 after) ∧
      ((¬∃ path, arguments.symbols? = some path ∧ ¬tree.isCreatable path) → status = 0 ∧
        ∃ imaged, tree.Written arguments.output assembly.program.image.toUTF8 imaged ∧
          (arguments.symbols? = none → after = imaged) ∧
          ∀ path, arguments.symbols? = some path →
            imaged.Written path assembly.labels.symbolMap.render.toUTF8 after) := by
  cases hends with
  | unreadable hinput => exact absurd (.unreadable hinput) hbarred
  | faulty hinput hreport => exact absurd (.faulty hinput hreport) hbarred
  | imageRefused hinput hassemble houtput => exact absurd (.uncreatable houtput) hbarred
  | symbolsRefused hinput hassemble houtput hsymbols hpath himaged =>
      refine ⟨_, _, hinput, hassemble, fun _ => ⟨rfl, himaged⟩, ?_⟩
      intro hnone
      exact absurd ⟨_, hsymbols, hpath⟩ hnone
  | imageSaved hinput hassemble houtput hsymbols himaged =>
      refine ⟨_, _, hinput, hassemble, ?_, fun _ => ⟨rfl, _, himaged, fun _ => rfl, ?_⟩⟩
      · rintro ⟨path, hpath, -⟩
        rw [hsymbols] at hpath
        cases hpath
      · intro path hpath
        rw [hsymbols] at hpath
        cases hpath
  | bothSaved hinput hassemble houtput hsymbols hpath himaged hafter =>
      refine ⟨_, _, hinput, hassemble, ?_, fun _ => ⟨rfl, _, himaged, ?_, ?_⟩⟩
      · rintro ⟨other, hother, hrefused⟩
        rw [hsymbols] at hother
        cases hother
        exact absurd hpath hrefused
      · intro hnone
        rw [hsymbols] at hnone
        cases hnone
      · intro other hother
        rw [hsymbols] at hother
        cases hother
        exact hafter

/-- The last line alone tells a success from a failure. -/
theorem Ends.doneLine_iff (hends : Ends arguments tree status output after) :
    (∃ printed words depth, output = printed ++ doneLine words depth) ↔ status = 0 := by
  have hfailed : EndsPainted output →
      ((∃ printed words depth, output = printed ++ doneLine words depth) ↔ 1 = 0) := by
    intro hpainted
    constructor
    · rintro ⟨printed, words, depth, hdone⟩
      rw [hdone] at hpainted
      exact absurd hpainted (not_endsPainted_doneLine printed words depth)
    · intro hzero
      cases hzero
  cases hends with
  | unreadable hinput => exact hfailed ((endsPainted_told _ _ _ _).append_left _)
  | faulty hinput hreport => exact hfailed ((endsPainted_toldReport _ _).append_left _)
  | imageRefused hinput hassemble houtput =>
      exact hfailed ((endsPainted_refusing _ _).append_left _)
  | symbolsRefused hinput hassemble houtput hsymbols hpath himaged =>
      exact hfailed ((endsPainted_refusing _ _).append_left _)
  | imageSaved hinput hassemble houtput hsymbols himaged =>
      exact ⟨fun _ => rfl, fun _ => ⟨_, _, _, rfl⟩⟩
  | bothSaved hinput hassemble houtput hsymbols hpath himaged hafter =>
      exact ⟨fun _ => rfl, fun _ => ⟨_, _, _, rfl⟩⟩

end Ends

end Run

/-- **How a run ends.** A run whose input cannot be read or assembled, or whose memory image cannot
be created, fails and leaves the files as they were. Any other run leaves the complete memory image.
It fails if a symbol file is asked for that cannot be created, and leaves nothing more then; else it
leaves the complete symbol file as well, in place of the image if both are one file, and succeeds.
All that is printed is fixed by how the run ends, and the line that says it is done stands at the
end of the output of the runs that succeed and of no other. -/
theorem run_exact (arguments : Arguments) (tree : FileTree) :
    (Barred arguments tree →
      (run arguments tree).status = 1 ∧ (run arguments tree).tree = tree) ∧
    (¬Barred arguments tree → ∃ text assembly,
      tree.read? arguments.input = some text.toUTF8 ∧ assemble text = .ok assembly ∧
      ((∃ path, arguments.symbols? = some path ∧ ¬tree.isCreatable path) →
        (run arguments tree).status = 1 ∧
        tree.Written arguments.output assembly.program.image.toUTF8 (run arguments tree).tree) ∧
      ((¬∃ path, arguments.symbols? = some path ∧ ¬tree.isCreatable path) →
        (run arguments tree).status = 0 ∧
        ∃ imaged, tree.Written arguments.output assembly.program.image.toUTF8 imaged ∧
          (arguments.symbols? = none → (run arguments tree).tree = imaged) ∧
          ∀ path, arguments.symbols? = some path →
            imaged.Written path assembly.labels.symbolMap.render.toUTF8
              (run arguments tree).tree)) ∧
    Ends arguments tree (run arguments tree).status (run arguments tree).output
      (run arguments tree).tree ∧
    ((∃ (printed : String) (words depth : Nat), (run arguments tree).output = printed ++
        ("\x1b[32m\x1b[1mdone\x1b[39m\x1b[22m: " ++ toString words ++ " words, depth " ++
          toString depth ++ "\n")) ↔ (run arguments tree).status = 0) := by
  have hends := run_ends arguments tree
  exact ⟨hends.of_barred, hends.of_not_barred, hends, hends.doneLine_iff⟩

theorem run_exact_image_replaced :
    let tree : FileTree := ⟨[(["a.s"], "top: jmp top".toUTF8), (["d", "x"], "".toUTF8)]⟩
    let replaced := run ⟨some "a.s", some "d/../out", some "out", false⟩ tree
    let refused := run ⟨some "a.s", some "out", some "d", false⟩ tree
    replaced.status = 0 ∧
      (∃ (printed : String) (words depth : Nat), replaced.output = printed ++
        ("\x1b[32m\x1b[1mdone\x1b[39m\x1b[22m: " ++ toString words ++ " words, depth " ++
          toString depth ++ "\n")) ∧
      replaced.tree.files.lookup ["out"] =
        some "\x7b\n  \"code\": \x7b\n    \"top\": 0\n  \x7d\n\x7d".toUTF8 ∧
      replaced.tree.files.lookup ["a.s"] = some "top: jmp top".toUTF8 ∧
      refused.status = 1 ∧
      (¬∃ (printed : String) (words depth : Nat), refused.output = printed ++
        ("\x1b[32m\x1b[1mdone\x1b[39m\x1b[22m: " ++ toString words ++ " words, depth " ++
          toString depth ++ "\n")) ∧
      ∃ program, Program.ofWords [0xfff2] = .ok program ∧
        refused.tree.files.lookup ["out"] = some program.image.toUTF8 := by
  intro tree replaced refused
  have hassembled : (assemble "top: jmp top").toOption.map (fun assembly =>
      (assembly.labels.toList, assembly.program.words)) = some ([("top", 0)], [0xfff2]) := by
    decide +kernel
  obtain ⟨assembly, hassemble, hfacts⟩ := Pass.map_toOption_eq_some.mp hassembled
  obtain ⟨hlabels, hwords⟩ := Prod.mk.inj hfacts
  have hinput : tree.read? "a.s" = some "top: jmp top".toUTF8 := rfl
  have hsymbols : assembly.labels.symbolMap.render =
      "\x7b\n  \"code\": \x7b\n    \"top\": 0\n  \x7d\n\x7d" := by
    have hcode : assembly.labels.symbolMap.symbols = [("top", 0)] := hlabels
    unfold SymbolMap.render
    rw [hcode]
    decide +kernel
  have hunique : ∀ text other, tree.read? "a.s" = some text.toUTF8 → assemble text = .ok other →
      other = assembly := by
    intro text other htext hother
    have hsame : text = "top: jmp top" :=
      String.toByteArray_inj.mp (Option.some.inj (htext.symm.trans hinput))
    rw [hsame, hassemble] at hother
    exact (Except.ok.inj hother).symm
  have hreplaced : replaced.status = 0 ∧
      replaced.tree.files.lookup ["out"] = some assembly.labels.symbolMap.render.toUTF8 ∧
      replaced.tree.files.lookup ["a.s"] = some "top: jmp top".toUTF8 := by
    have hopen : ¬Barred ⟨some "a.s", some "d/../out", some "out", false⟩ tree :=
      not_barred_iff.mpr ⟨by decide +kernel, _, assembly, hinput, hassemble⟩
    obtain ⟨text, other, htext, hother, -, hsuccess⟩ := (run_exact _ tree).2.1 hopen
    obtain rfl := hunique text other htext hother
    obtain ⟨hstatus, imaged, himaged, -, hlast⟩ := hsuccess (by decide +kernel)
    have hwritten := hlast "out" rfl
    have hplace : imaged.locate? "out" = some (.file ["out"]) := himaged.locate?_eq "out"
    have houtput : tree.locate? "d/../out" = some (.file ["out"]) := rfl
    refine ⟨hstatus, ?_, ?_⟩
    · rw [hwritten.lookup_eq hplace, if_pos rfl]
    · rw [hwritten.lookup_eq hplace, if_neg (by decide), himaged.lookup_eq houtput,
        if_neg (by decide)]
      rfl
  have hrefused : refused.status = 1 ∧
      refused.tree.files.lookup ["out"] = some assembly.program.image.toUTF8 := by
    have hopen : ¬Barred ⟨some "a.s", some "out", some "d", false⟩ tree :=
      not_barred_iff.mpr ⟨by decide +kernel, _, assembly, hinput, hassemble⟩
    obtain ⟨text, other, htext, hother, hfailure, -⟩ := (run_exact _ tree).2.1 hopen
    obtain rfl := hunique text other htext hother
    obtain ⟨hstatus, hwritten⟩ := hfailure ⟨"d", rfl, by decide +kernel⟩
    refine ⟨hstatus, ?_⟩
    have hplace : tree.locate? "out" = some (.file ["out"]) := rfl
    rw [hwritten.lookup_eq hplace, if_pos rfl]
  rw [← hsymbols]
  refine ⟨hreplaced.1, (run_exact _ tree).2.2.2.mpr hreplaced.1, hreplaced.2.1, hreplaced.2.2,
    hrefused.1, ?_, assembly.program, Program.ofWords_eq_ok.mpr hwords, hrefused.2⟩
  intro hdone
  have hzero := (run_exact _ tree).2.2.2.mp hdone
  rw [hrefused.1] at hzero
  cases hzero

end Command

end WordAssembler
