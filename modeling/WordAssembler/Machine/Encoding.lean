import WordAssembler.Machine.Instruction

/-!
# Encoding instructions

An instruction is encoded as its opcode together with the bit fields of its family. A word decodes
to the instruction of its opcode if encoding that instruction gives the word back; a word with
stray bits outside the fields of its family decodes to nothing.
-/

namespace WordAssembler

namespace BitField

def aluImmediate : BitField := ⟨6, 4⟩

/-- Set where the last operand of an ALU instruction is an immediate. -/
def aluImmediateFlag : BitField := ⟨5, 1⟩

def loadImmediate : BitField := ⟨5, 8⟩

def condOffset : BitField := ⟨5, 8⟩

def jumpOffset : BitField := ⟨5, 11⟩

/-- Set where the target of a jump is an offset. -/
def offsetFlag : BitField := ⟨4, 1⟩

end BitField

namespace Register

def destOffset : Nat := 13

def sourceOffset : Nat := 10

def aluOffset : Nat := 7

/-- The register's index in the three bits from `offset` on. -/
def field (r : Register) (offset : Nat) : Word :=
  (BitField.mk offset 3).put r.index

def ofField (w : Word) (offset : Nat) : Register :=
  ofIndex ((BitField.mk offset 3).get w)

end Register

namespace Instruction

open BitField Register

def encode : Instruction → Word
  | .alu m d a (.reg b) => m.opcode ||| d.field destOffset ||| a.field sourceOffset |||
      b.field aluOffset
  | .alu m d a (.val v) => m.opcode ||| aluImmediateFlag.put 1 ||| d.field destOffset |||
      a.field sourceOffset ||| aluImmediate.put v.toNat
  | .loadImm m d v => m.opcode ||| loadImmediate.put v.toNat ||| d.field destOffset
  | .loadStore m d a => m.opcode ||| d.field destOffset ||| a.field sourceOffset
  | .condJump m c (.reg t) => m.opcode ||| c.field destOffset ||| t.field sourceOffset
  | .condJump m c (.val o) => m.opcode ||| offsetFlag.put 1 ||| condOffset.putInt o.toInt |||
      c.field destOffset
  | .jump m (.reg t) => m.opcode ||| t.field sourceOffset
  | .jump m (.val o) => m.opcode ||| offsetFlag.put 1 ||| jumpOffset.putInt o.toInt
  | .zero m => m.opcode

def targetOf (offset : BitField) (w : Word) : Operand Int16 :=
  if offsetFlag.get w = 1 then .val (Int16.ofInt (offset.getInt w))
  else .reg (.ofField w sourceOffset)

def ofFields (m : Mnemonic) (w : Word) : Instruction :=
  match m.family with
  | .alu => .alu m (.ofField w destOffset) (.ofField w sourceOffset)
      (if aluImmediateFlag.get w = 1 then .val (UInt8.ofNat (aluImmediate.get w))
      else .reg (.ofField w aluOffset))
  | .loadImm => .loadImm m (.ofField w destOffset) (UInt8.ofNat (loadImmediate.get w))
  | .loadStore => .loadStore m (.ofField w destOffset) (.ofField w sourceOffset)
  | .condJump => .condJump m (.ofField w destOffset) (targetOf condOffset w)
  | .jump => .jump m (targetOf jumpOffset w)
  | .zero => .zero m

def decode? (w : Word) : Option Instruction :=
  ((Mnemonic.ofWord? w).map (ofFields · w)).filter (encode · == w)

end Instruction

end WordAssembler
