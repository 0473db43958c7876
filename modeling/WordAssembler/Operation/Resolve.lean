import WordAssembler.Fault
import WordAssembler.LabelTable
import WordAssembler.Machine.Encoding
import WordAssembler.Source.Literal

/-!
# Resolving operations

An operation at an address becomes an instruction once the labels are known. A jump target that
names a label becomes the offset from the following instruction to the label; any other target has
to be a literal, and is the offset itself. Offsets must fit their field, while immediates keep
their low bits.
-/

namespace WordAssembler

def leastSigned (bits : Nat) : Int :=
  -(1 <<< (bits - 1) : Nat)

def greatestSigned (bits : Nat) : Int :=
  (1 <<< (bits - 1) : Nat) - 1

def lowBits (bits : Nat) (v : Int) : Nat :=
  (v % (1 <<< bits : Nat)).toNat

namespace Operation

/-- The offset that a target token stands for in a jump at the given address. Addresses count the
words of a source, so they and their differences stay far below `2 ^ 63`, and no bound on the width
of an integer is needed. -/
def offset (labels : LabelTable) (address : Nat) (token : String) : Except Fault Int :=
  match labels.address? token with
  | some destination => .ok (destination - (address + 1))
  | none =>
    match Literal.parse? token with
    | some v => .ok v
    | none =>
      if Literal.looksNumeric token then .error (.invalidLiteral token)
      else .error (.undefinedLabel token)

def boundedOffset (bits : Nat) (v : Int) : Except Fault Int16 :=
  if v < leastSigned bits ∨ greatestSigned bits < v then
    .error (.branchOutOfRange v (leastSigned bits) (greatestSigned bits))
  else .ok (Int16.ofInt v)

def resolveTarget (labels : LabelTable) (address bits : Nat) :
    Operand String → Except Fault (Operand Int16)
  | .reg r => .ok (.reg r)
  | .val token => do return .val (← boundedOffset bits (← offset labels address token))

def resolve (labels : LabelTable) (address : Nat) : Operation → Except Fault Instruction
  | .alu m d a b => .ok
      (.alu m d a (b.map fun v => UInt8.ofNat (lowBits BitField.aluImmediate.width v)))
  | .loadImm m d v => .ok
      (.loadImm m d (UInt8.ofNat (lowBits BitField.loadImmediate.width v)))
  | .loadStore m d a => .ok (.loadStore m d a)
  | .condJump m c t => do
    return .condJump m c (← resolveTarget labels address BitField.condOffset.width t)
  | .jump m t => do return .jump m (← resolveTarget labels address BitField.jumpOffset.width t)
  | .zero m => .ok (.zero m)

end Operation

end WordAssembler
