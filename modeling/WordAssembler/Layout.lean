import WordAssembler.LabelTable
import WordAssembler.Source.LineContent

/-!
# Layout of a program

Every line with code is a statement and takes up one word; statements are placed at consecutive
addresses from zero on. A label stands for the address of the next statement. Laying out stops at
the first line that is malformed or defines a label again.
-/

namespace WordAssembler

structure Statement where
  address : Nat
  code : String
  line : SourceLine
deriving DecidableEq, Repr

structure Layout where
  labels : LabelTable := ∅
  statements : Array Statement := #[]

namespace Layout

def next (layout : Layout) : Nat :=
  layout.statements.size

def define (layout : Layout) (name : String) (line : SourceLine) : Except Report Layout :=
  match layout.labels.insert ⟨name, line, layout.next⟩ with
  | .ok labels => .ok { layout with labels }
  | .error previous => .error
      { fault := .duplicateLabel name, line := some line, previous := some previous }

def place (layout : Layout) (code : String) (line : SourceLine) : Layout :=
  { layout with statements := layout.statements.push ⟨layout.next, code, line⟩ }

def addLine (layout : Layout) (line : SourceLine) : Except Report Layout := do
  let content ← (LineContent.ofText line.text).mapError (Report.at line)
  let layout ← match content.label with
    | some name => layout.define name line
    | none => .ok layout
  return if content.hasCode then layout.place content.code line else layout

def ofLines (lines : List SourceLine) : Except Report Layout :=
  lines.foldlM addLine {}

end Layout

end WordAssembler
