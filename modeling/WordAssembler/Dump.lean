import WordAssembler.Assembly
import WordAssembler.Machine.Disassembly
import WordAssembler.Text.Style

/-!
# Dump of an assembly

A table with a row for each statement (source line, address, word, instruction), followed by the
labels and their addresses if there are any.
-/

namespace WordAssembler.Assembly

open Style Numeral

def dumpRule : String :=
  "+------+------+------+-----------------------------------------------"

def dumpRow (listed : Listed) : String :=
  "| " ++ Text.alignRight 4 (decimal listed.statement.line.number) ++
    " | " ++ green.paint (hexUpper 4 listed.statement.address) ++
    " | " ++ yellow.paint (hexUpper 4 listed.word.toNat) ++
    " | " ++ Instruction.painted listed.instruction

def dumpLabel (label : String × Nat) : String :=
  "  " ++ green.paint (hexUpper 4 label.2) ++ " " ++ label.1

def dumpLines (assembly : Assembly) : List String :=
  [dumpRule, "| line | pc   | word | inst", dumpRule] ++ assembly.listing.map dumpRow ++
    [dumpRule] ++
    (if assembly.labels.size = 0 then []
    else assembly.labels.toList.map dumpLabel ++ [dumpRule])

def dump (assembly : Assembly) : String :=
  String.join (assembly.dumpLines.map (· ++ "\n"))

end WordAssembler.Assembly
