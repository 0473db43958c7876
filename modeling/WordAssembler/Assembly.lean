import WordAssembler.Layout
import WordAssembler.Operation.Parse
import WordAssembler.Operation.Truncation
import WordAssembler.Program

/-!
# Assembly

A source is assembled in two passes: the first lays out the statements and collects the labels, the
second turns each statement into an instruction against the complete label table. The first fault
found ends the assembly, so a fault of the first pass hides those of the second, and only a source
without faults is measured against the size of the instruction memory.
-/

namespace WordAssembler

structure Listed where
  statement : Statement
  operation : Operation
  instruction : Instruction
deriving DecidableEq, Repr

structure Warning where
  line : SourceLine
  truncation : Truncation
deriving DecidableEq, Repr

namespace Listed

def word (listed : Listed) : Word :=
  Instruction.encode listed.instruction

def warning? (listed : Listed) : Option Warning :=
  (Operation.truncation? listed.operation).map (⟨listed.statement.line, ·⟩)

end Listed

def Statement.assemble (labels : LabelTable) (statement : Statement) : Except Report Listed :=
  Except.mapError (Report.at statement.line) do
    let operation ← Operation.parse statement.code
    let instruction ← Operation.resolve labels statement.address operation
    return ⟨statement, operation, instruction⟩

structure Assembly where
  labels : LabelTable
  listing : List Listed
  program : Program

namespace Assembly

def warnings (assembly : Assembly) : List Warning :=
  assembly.listing.filterMap Listed.warning?

/-- The second pass. -/
def ofLayout (layout : Layout) : Except Report Assembly := do
  let listing ← layout.statements.toList.mapM (Statement.assemble layout.labels)
  let program ← (Program.ofWords (listing.map Listed.word)).mapError ({ fault := · })
  return ⟨layout.labels, listing, program⟩

end Assembly

def assemble (source : String) : Except Report Assembly := do
  Assembly.ofLayout (← Layout.ofLines (SourceLine.kept source))

end WordAssembler
