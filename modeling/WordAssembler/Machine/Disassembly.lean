import WordAssembler.Machine.Encoding
import WordAssembler.Text.Style

/-!
# Instructions as text

How an instruction is shown in a listing: the mnemonic in red in a column of six, then the operands
in blue, with immediates and offsets in yellow. The blue of the operands takes over from the red,
so the colour is switched off only at the end.
-/

namespace WordAssembler.Instruction

open Style Numeral

def paintTarget : Operand Int16 → String
  | .reg r => r.name
  | .val o => yellow.paint (signed o.toInt)

def paintOperands : Instruction → String
  | .alu _ d a (.reg b) => d.name ++ ", " ++ a.name ++ ", " ++ b.name
  | .alu _ d a (.val v) => d.name ++ ", " ++ a.name ++ ", " ++
      yellow.paint ("0x" ++ hexUpper 1 v.toNat)
  | .loadImm _ d v => d.name ++ ", " ++ yellow.paint ("0x" ++ hexUpper 2 v.toNat)
  | .loadStore _ d a => d.name ++ ", " ++ a.name
  | .condJump _ c t => c.name ++ ", " ++ paintTarget t
  | .jump _ t => paintTarget t
  | .zero _ => ""

def painted (i : Instruction) : String :=
  red.on ++ Text.alignLeft 6 i.mnemonic.name ++ blue.on ++ paintOperands i ++ blue.off

end WordAssembler.Instruction
