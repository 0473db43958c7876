import WordAssembler.Command.Run
import WordAssembler.Proofs.Numeral

/-!
# What a run prints

A run tells of every step before it takes it, so its output grows with the steps that it reaches,
and ends with a diagnostic or with the line that says it is done. The texts are written out here,
escape sequences and all, apart from the functions that print them. The two ends cannot be taken for
one another: a diagnostic ends with a place, which is painted, and the last line of a success with a
number, which is not.
-/

namespace WordAssembler.Command

/-! ### Diagnostics -/

def heading : Severity → String
  | .error => "\x1b[31m\x1b[1merror\x1b[39m\x1b[22m: "
  | .warn => "\x1b[33m\x1b[1mwarn\x1b[39m\x1b[22m: "
  | .note => "\x1b[32m\x1b[1mnote\x1b[39m\x1b[22m: "

def place (file : String) : Option SourceLine → List String
  | none => ["     \x1b[34m-->\x1b[39m \x1b[4m" ++ file ++ "\x1b[24m\n"]
  | some line =>
    ["     \x1b[34m-->\x1b[39m \x1b[4m" ++ (file ++ ":" ++ toString line.number) ++ "\x1b[24m\n",
      "      \x1b[34m|\x1b[39m\n",
      " \x1b[34m" ++ Text.alignRight 4 (toString line.number) ++ " |\x1b[39m " ++ line.text ++ "\n",
      "      \x1b[34m|\x1b[39m\n"]

def told (severity : Severity) (message file : String) (line : Option SourceLine) : String :=
  heading severity ++ message ++ "\n" ++ String.join (place file line)

def toldReport (file : String) (report : Report) : String :=
  told .error report.fault.message file report.line ++
    match report.previous with
    | none => ""
    | some line => told .note "Already defined here" file (some line)

def toldWarning (file : String) (warning : Warning) : String :=
  told .warn warning.truncation.message file (some warning.line)

theorem arrow_eq (place : String) :
    "     " ++ Style.blue.paint "-->" ++ " " ++ Style.underline.paint place ++ "\n" =
      "     \x1b[34m-->\x1b[39m \x1b[4m" ++ place ++ "\x1b[24m\n" := by
  have hfront : "     " ++ Style.blue.paint "-->" ++ " " ++ Style.underline.on =
      "     \x1b[34m-->\x1b[39m \x1b[4m" := by decide +kernel
  have hback : Style.underline.off ++ "\n" = "\x1b[24m\n" := by decide +kernel
  rw [← hfront, ← hback]
  simp only [Style.paint, String.append_assoc]

theorem numbered_eq (column text : String) :
    " " ++ Style.blue.paint (column ++ " |") ++ " " ++ text ++ "\n" =
      " \x1b[34m" ++ column ++ " |\x1b[39m " ++ text ++ "\n" := by
  have hfront : " " ++ Style.blue.on = " \x1b[34m" := by decide +kernel
  have hback : " |" ++ Style.blue.off ++ " " = " |\x1b[39m " := by decide +kernel
  rw [← hfront, ← hback]
  simp only [Style.paint, String.append_assoc]

theorem map_location (file : String) (line : Option SourceLine) :
    (Diagnostic.location file line).map (· ++ "\n") = place file line := by
  have hmargin : "      " ++ Style.blue.paint "|" ++ "\n" = "      \x1b[34m|\x1b[39m\n" := by
    decide +kernel
  cases line with
  | none => exact congrArg (fun text => [text]) (arrow_eq file)
  | some line =>
      have hnumber : Numeral.decimal line.number = toString line.number := rfl
      simp only [Diagnostic.location, List.map_cons, List.map_nil, hnumber]
      exact congrArg₂ List.cons (arrow_eq _) (congrArg₂ List.cons hmargin
        (congrArg₂ List.cons (numbered_eq _ _) (congrArg (fun text => [text]) hmargin)))

/-- A diagnostic prints its heading, its place and the line it points at, spelled out. -/
theorem render_eq_told (file : String) (d : Diagnostic) :
    d.render file = told d.severity d.message file d.line := by
  have hheading : ∀ severity : Severity,
      Style.paintBold severity.colour severity.name ++ ": " = heading severity := by
    intro severity
    cases severity <;> decide +kernel
  rw [Diagnostic.render, List.map_cons, String.join_cons, map_location, hheading]
  rfl

theorem report_render_eq (file : String) (report : Report) :
    report.render file = toldReport file report := by
  rw [Report.render, Report.diagnostics, toldReport]
  cases report.previous with
  | none => simp [render_eq_told]
  | some line => simp [render_eq_told]

/-! ### Steps -/

def reading (input : String) : String :=
  "1. Read Source\n  < " ++ input ++ "\n"

/-- All that comes before the first file of a source that was assembled. -/
def encoding (arguments : Arguments) (assembly : Assembly) : String :=
  reading arguments.input ++ "2. Resolve Labels & Encode\n" ++
    String.join (assembly.warnings.map (toldWarning arguments.input)) ++
    "  - " ++ toString assembly.program.size ++ " instructions, " ++
    toString assembly.labels.size ++ " labels\n" ++
    (if arguments.dump then assembly.dump else "") ++ "3. Write Memory Image\n"

/-- A file is named before it is written, and shown if it goes to the output of the run. -/
def saving (tree : FileTree) (path content : String) : String :=
  "  > " ++ path ++ "\n" ++ if tree.prints path then content else ""

def refusing (input path : String) : String :=
  "  > " ++ path ++ "\n" ++ told .error ("Failed to create file: " ++ path) input none

def doneLine (words depth : Nat) : String :=
  "\x1b[32m\x1b[1mdone\x1b[39m\x1b[22m: " ++ toString words ++ " words, depth " ++
    toString depth ++ "\n"

def shown (tree : FileTree) (file : Writing) : String :=
  file.announcement ++ if tree.prints file.path then file.content else ""

theorem summary_append (arguments : Arguments) (assembly : Assembly) (rest : String) :
    reading arguments.input ++ ("2. Resolve Labels & Encode\n" ++
      (Plan.summary arguments assembly ++ ("3. Write Memory Image\n" ++ rest))) =
      encoding arguments assembly ++ rest := by
  have hwarning : (fun warning : Warning => warning.render arguments.input) =
      toldWarning arguments.input := by
    funext warning
    exact render_eq_told arguments.input warning.diagnostic
  rw [Plan.summary, encoding, hwarning]
  simp only [String.append_assoc]
  rfl

theorem shown_writing (tree : FileTree) (input announcement path content : String) :
    shown tree (Plan.writing input announcement path content) =
      announcement ++ saving tree path content := by
  simp only [shown, Plan.writing, saving, String.append_assoc]

theorem refusal_writing (input announcement path content : String) :
    (Plan.writing input announcement path content).announcement ++
      (Plan.writing input announcement path content).refusal =
      announcement ++ refusing input path := by
  simp only [Plan.writing, Plan.fileFailure, render_eq_told, refusing, String.append_assoc]

theorem closing_eq (assembly : Assembly) :
    Plan.closing assembly = doneLine assembly.program.size assembly.program.depth := by
  have hdone : Style.paintBold .green "done" ++ ": " =
      "\x1b[32m\x1b[1mdone\x1b[39m\x1b[22m: " := by decide +kernel
  rw [Plan.closing, hdone]
  rfl

/-! ### The last line -/

def EndsPainted (text : String) : Prop :=
  ∃ front, text = front ++ "m\n"

/-- Only the end of a text decides whether it ends painted. -/
theorem EndsPainted.append_left {text : String} (hends : EndsPainted text) (front : String) :
    EndsPainted (front ++ text) := by
  obtain ⟨inner, rfl⟩ := hends
  exact ⟨front ++ inner, by rw [String.append_assoc]⟩

theorem endsPainted_told (severity : Severity) (message file : String)
    (line : Option SourceLine) : EndsPainted (told severity message file line) := by
  apply EndsPainted.append_left
  have hescape : EndsPainted "\x1b[24m\n" := ⟨"\x1b[24", by decide +kernel⟩
  have hmargin : EndsPainted "      \x1b[34m|\x1b[39m\n" :=
    ⟨"      \x1b[34m|\x1b[39", by decide +kernel⟩
  cases line with
  | none =>
      rw [place, String.join_cons, String.join_nil, String.append_empty]
      exact hescape.append_left _
  | some line =>
      simp only [place, String.join_cons, String.join_nil, String.append_empty]
      apply EndsPainted.append_left
      apply EndsPainted.append_left
      apply EndsPainted.append_left
      exact hmargin

theorem endsPainted_toldReport (file : String) (report : Report) :
    EndsPainted (toldReport file report) := by
  rw [toldReport]
  cases report.previous with
  | none =>
      simp only [String.append_empty]
      exact endsPainted_told _ _ _ _
  | some line => exact (endsPainted_told _ _ _ _).append_left _

theorem endsPainted_refusing (input path : String) : EndsPainted (refusing input path) :=
  (endsPainted_told _ _ _ _).append_left _

theorem not_endsPainted_decimal (front : String) (n : Nat) :
    ¬EndsPainted (front ++ (Numeral.decimal n ++ "\n")) := by
  rintro ⟨other, heq⟩
  obtain ⟨digits, last, hdigits⟩ := (List.eq_nil_or_concat _).resolve_left
    (Numeral.toList_decimal_ne_nil n)
  have hlast : last ∈ (Numeral.decimal n).toList := by simp [hdigits]
  have hends := congrArg (fun text => text.toList.dropLast.getLast?) heq
  have hm : last = 'm' := by simpa [hdigits, ← List.append_assoc] using hends
  exact absurd (Numeral.mem_decimal hlast) (by rw [hm]; decide)

/-- The last line of a run that is done ends in a number, where every diagnostic ends in a colour
being switched off. This is what keeps the two apart whatever was printed before. -/
theorem not_endsPainted_doneLine (printed : String) (words depth : Nat) :
    ¬EndsPainted (printed ++ doneLine words depth) := by
  have hdone : doneLine words depth = _ ++ (Numeral.decimal depth ++ "\n") :=
    String.append_assoc
  rw [hdone, ← String.append_assoc]
  exact not_endsPainted_decimal _ depth

end WordAssembler.Command
