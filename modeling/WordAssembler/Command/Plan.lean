import WordAssembler.Command.Arguments
import WordAssembler.Diagnostic
import WordAssembler.Dump
import WordAssembler.SymbolMap

/-!
# Plan of a run

All that a run prints and writes follows from its arguments and the text of its input. Every file
is complete before the first one is written, so no failure leaves part of a file behind.
-/

namespace WordAssembler

structure Writing where
  /-- Printed before the file is created. -/
  announcement : String
  path : String
  content : String
  /-- Printed if the file cannot be created, which ends the run. -/
  refusal : String

inductive Plan where
  /-- Prints, and fails. -/
  | fail (output : String)
  /-- Prints, writes the files in turn, and prints the closing text. -/
  | write (output : String) (files : List Writing) (closing : String)

namespace Plan

open Numeral

def fileFailure (input message : String) : String :=
  Diagnostic.render input { severity := .error, message }

def writing (input announcement path content : String) : Writing where
  announcement := announcement ++ "  > " ++ path ++ "\n"
  path
  content
  refusal := fileFailure input ("Failed to create file: " ++ path)

def summary (arguments : Arguments) (assembly : Assembly) : String :=
  String.join (assembly.warnings.map (·.render arguments.input)) ++
    "  - " ++ decimal assembly.program.size ++ " instructions, " ++
    decimal assembly.labels.size ++ " labels\n" ++
    (if arguments.dump then assembly.dump else "")

def writings (arguments : Arguments) (assembly : Assembly) : List Writing :=
  writing arguments.input "3. Write Memory Image\n" arguments.output assembly.program.image ::
    (arguments.symbols?.map fun path =>
      writing arguments.input "" path assembly.labels.symbolMap.render).toList

def closing (assembly : Assembly) : String :=
  Style.paintBold .green "done" ++ ": " ++ decimal assembly.program.size ++ " words, depth " ++
    decimal assembly.program.depth ++ "\n"

/-- The plan for the given arguments, where `source` is the text of the input if it can be read. -/
def ofSource (arguments : Arguments) (source : Option String) : Plan :=
  let reading := "1. Read Source\n  < " ++ arguments.input ++ "\n"
  match source with
  | none => fail (reading ++
      fileFailure arguments.input ("Failed to open file: " ++ arguments.input))
  | some text =>
    let encoding := reading ++ "2. Resolve Labels & Encode\n"
    match assemble text with
    | .error report => fail (encoding ++ report.render arguments.input)
    | .ok assembly => write (encoding ++ summary arguments assembly)
        (writings arguments assembly) (closing assembly)

end Plan

end WordAssembler
