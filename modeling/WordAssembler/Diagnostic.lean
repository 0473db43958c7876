import WordAssembler.Assembly
import WordAssembler.Text.Style

/-!
# Diagnostics

A diagnostic is a message with the place in the source that it is about: the file alone, or a line
of it, which is then shown.
-/

namespace WordAssembler

inductive Severity where
  | error
  | warn
  | note
deriving DecidableEq, Repr

namespace Severity

def name : Severity → String
  | error => "error"
  | warn => "warn"
  | note => "note"

def colour : Severity → Style
  | error => .red
  | warn => .yellow
  | note => .green

end Severity

structure Diagnostic where
  severity : Severity
  message : String
  line : Option SourceLine := none
deriving DecidableEq, Repr

namespace Diagnostic

open Style

def location (file : String) : Option SourceLine → List String
  | none => ["     " ++ blue.paint "-->" ++ " " ++ underline.paint file]
  | some line =>
    let number := Numeral.decimal line.number
    let margin := "      " ++ blue.paint "|"
    ["     " ++ blue.paint "-->" ++ " " ++ underline.paint (file ++ ":" ++ number), margin,
      " " ++ blue.paint (Text.alignRight 4 number ++ " |") ++ " " ++ line.text, margin]

def render (file : String) (d : Diagnostic) : String :=
  let heading := paintBold d.severity.colour d.severity.name ++ ": " ++ d.message
  String.join ((heading :: location file d.line).map (· ++ "\n"))

end Diagnostic

/-- The diagnostics of a report: the fault, and the earlier line that it collides with. -/
def Report.diagnostics (report : Report) : List Diagnostic :=
  ⟨.error, report.fault.message, report.line⟩ ::
    (report.previous.map fun line => ⟨.note, "Already defined here", some line⟩).toList

def Report.render (file : String) (report : Report) : String :=
  String.join (report.diagnostics.map (·.render file))

def Warning.diagnostic (warning : Warning) : Diagnostic :=
  ⟨.warn, warning.truncation.message, some warning.line⟩

def Warning.render (file : String) (warning : Warning) : String :=
  warning.diagnostic.render file

end WordAssembler
