/-!
# Bit fields of a word

A word of the machine has sixteen bits. A bit field is a run of neighbouring bits; a value put into
a field keeps its low bits and touches no bit outside the field.
-/

namespace WordAssembler

abbrev Word := UInt16

/-- The `width` bits of a word from bit `offset` on. -/
structure BitField where
  offset : Nat
  width : Nat
deriving DecidableEq, Repr

namespace BitField

def size (field : BitField) : Nat :=
  1 <<< field.width

/-- The word with the low bits of `v` in the field and zeros elsewhere. -/
def put (field : BitField) (v : Nat) : Word :=
  UInt16.ofNat ((v % field.size) <<< field.offset)

def get (field : BitField) (w : Word) : Nat :=
  (w.toNat >>> field.offset) % field.size

def putInt (field : BitField) (v : Int) : Word :=
  field.put (v % field.size).toNat

def getInt (field : BitField) (w : Word) : Int :=
  Int.bmod (field.get w) field.size

end BitField

end WordAssembler
