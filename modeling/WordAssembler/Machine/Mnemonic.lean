import WordAssembler.Machine.BitField

/-!
# Mnemonics

Every instruction has a mnemonic. The mnemonic's family decides which operands the instruction
takes and how they are laid out in the word, and the opcode, in the low bits of the word, tells
mnemonics apart.
-/

namespace WordAssembler

inductive Family where
  | alu
  | loadImm
  | loadStore
  | condJump
  | jump
  | zero
deriving DecidableEq, Repr

namespace Family

/-- How many low bits of a word hold the opcode. -/
def opcodeWidth : Family → Nat
  | alu | loadImm => 5
  | loadStore => 7
  | condJump | jump => 4
  | zero => 16

def signature : Family → String
  | alu => "`dest, opA, opB`"
  | loadImm => "`dest, immediate`"
  | loadStore => "`data, address`"
  | condJump => "`cond, target`"
  | jump => "`target`"
  | zero => "no arguments"

end Family

inductive Mnemonic where
  | add
  | and
  | call
  | gt
  | gts
  | jez
  | jmp
  | jnz
  | ldhi
  | ldi
  | ldsi
  | ldw
  | lt
  | lts
  | nop
  | or
  | stw
  | sll
  | sra
  | srl
  | stop
  | sub
  | xor
deriving DecidableEq, Repr, Inhabited

namespace Mnemonic

def all : List Mnemonic :=
  [add, and, call, gt, gts, jez, jmp, jnz, ldhi, ldi, ldsi, ldw, lt, lts, nop, or, stw, sll, sra,
    srl, stop, sub, xor]

def name : Mnemonic → String
  | add => "add"
  | and => "and"
  | call => "call"
  | gt => "gt"
  | gts => "gts"
  | jez => "jez"
  | jmp => "jmp"
  | jnz => "jnz"
  | ldhi => "ldhi"
  | ldi => "ldi"
  | ldsi => "ldsi"
  | ldw => "ldw"
  | lt => "lt"
  | lts => "lts"
  | nop => "nop"
  | or => "or"
  | stw => "stw"
  | sll => "sll"
  | sra => "sra"
  | srl => "srl"
  | stop => "stop"
  | sub => "sub"
  | xor => "xor"

/-- The spellings a source may use. Only `nop` has two. -/
def spellings : Mnemonic → List String
  | nop => ["nop", "noop"]
  | m => [m.name]

def ofSpelling? (s : String) : Option Mnemonic :=
  all.find? (·.spellings.contains s)

def family : Mnemonic → Family
  | add | and | gt | gts | lt | lts | or | sll | sra | srl | sub | xor => .alu
  | ldi | ldsi | ldhi => .loadImm
  | ldw | stw => .loadStore
  | jez | jnz => .condJump
  | jmp | call => .jump
  | nop | stop => .zero

def opcode : Mnemonic → Word
  | add => 0b00011
  | and => 0b10111
  | call => 0b1010
  | gt => 0b01100
  | gts => 0b11100
  | jez => 0b0110
  | jmp => 0b0010
  | jnz => 0b1110
  | ldhi => 0b10001
  | ldi => 0b01001
  | ldsi => 0b11001
  | ldw => 0b1000001
  | lt => 0b00100
  | lts => 0b10100
  | nop => 0
  | or => 0b11011
  | stw => 0b1100001
  | sll => 0b10011
  | sra => 0b01111
  | srl => 0b01011
  | stop => 0x8000
  | sub => 0b00111
  | xor => 0b11111

/-- The mnemonic whose opcode has exactly `width` bits and stands in the low bits of the word. An
opcode of another width can agree with those bits by chance, and is then no match. -/
def ofOpcode? (w : Word) (width : Nat) : Option Mnemonic :=
  (all.find? fun m => m.opcode.toNat == (BitField.mk 0 width).get w).filter
    (·.family.opcodeWidth == width)

/-- The mnemonic of a word. Wide opcodes are tried first, since the low bits of a wide opcode may
agree with a narrow one. -/
def ofWord? (w : Word) : Option Mnemonic :=
  [16, 7, 5, 4].findSome? (ofOpcode? w)

theorem mem_all (m : Mnemonic) : m ∈ all := by
  cases m <;> decide

end Mnemonic

end WordAssembler
