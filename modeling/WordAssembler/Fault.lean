import WordAssembler.Machine.Mnemonic
import WordAssembler.Source.SourceLine
import WordAssembler.Text.Numeral

/-!
# Faults

What can be wrong with a source, and how it is told to the user. A report ties a fault to the line
where it was found.
-/

namespace WordAssembler

inductive Expected where
  | register
  | literal
  | registerOrLiteral
deriving DecidableEq, Repr

def Expected.description : Expected → String
  | register => "a register"
  | literal => "an integer literal"
  | registerOrLiteral => "a register or an integer literal"

inductive Fault where
  | malformedLine
  | reservedLabel (name : String)
  | duplicateLabel (name : String)
  | unknownInstruction (name : String)
  | malformedArguments (m : Mnemonic)
  | invalidOperand (token : String) (expected : Expected)
  | invalidLiteral (token : String)
  | undefinedLabel (name : String)
  | branchOutOfRange (offset least greatest : Int)
  | programTooLarge (count limit : Nat)
deriving DecidableEq, Repr

namespace Fault

open Numeral

def quoted (name : String) : String :=
  "`" ++ name ++ "`"

def message : Fault → String
  | malformedLine => "Malformed statement"
  | reservedLabel name => "Cannot use reserved keyword " ++ quoted name ++ " as label"
  | duplicateLabel name => "Duplicate label: " ++ quoted name
  | unknownInstruction name => "Unknown instruction: " ++ quoted name
  | malformedArguments m => "Invalid arguments: " ++ quoted m.name ++ " takes " ++
      m.family.signature
  | invalidOperand token expected => "Invalid operand " ++ quoted token ++ ": expected " ++
      expected.description
  | invalidLiteral token => "Cannot parse " ++ quoted token ++ " as integer literal"
  | undefinedLabel name => "Undefined label: " ++ quoted name
  | branchOutOfRange offset least greatest => "Jump out of range: offset " ++ decimalInt offset ++
      " is outside " ++ decimalInt least ++ "..=" ++ decimalInt greatest
  | programTooLarge count limit => "Program too large (" ++ decimal count ++
      " instructions, max allowed is " ++ decimal limit ++ ")"

end Fault

/-- A fault, the line it was found on, and the earlier line that this line collides with. -/
structure Report where
  fault : Fault
  line : Option SourceLine := none
  previous : Option SourceLine := none
deriving DecidableEq, Repr

def Report.at (line : SourceLine) (fault : Fault) : Report :=
  { fault, line := some line }

end WordAssembler
