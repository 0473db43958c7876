import WordAssembler.Operation.Resolve
import WordAssembler.Text.Numeral

/-!
# Truncated immediates

An immediate loses information when its field can hold it neither as a signed nor as an unsigned
number. Such an immediate is kept in part, and the user is warned.
-/

namespace WordAssembler

structure Truncation where
  value : Int
  bits : Nat
deriving DecidableEq, Repr

namespace Truncation

open Numeral

def message (t : Truncation) : String :=
  "Immediate `" ++ decimalInt t.value ++ "` does not fit in " ++ decimal t.bits ++
    " bits, truncated to 0x" ++ hexUpper 1 (lowBits t.bits t.value)

end Truncation

namespace Operation

/-- Holds of integers that a field of the given width can hold, signed or unsigned. -/
def Fits (bits : Nat) (v : Int) : Prop :=
  leastSigned bits ≤ v ∧ v < (1 <<< bits : Nat)

instance (bits : Nat) (v : Int) : Decidable (Fits bits v) :=
  inferInstanceAs (Decidable (_ ∧ _))

def immediate? : Operation → Option (Int × Nat)
  | .alu _ _ _ (.val v) => some (v, BitField.aluImmediate.width)
  | .loadImm _ _ v => some (v, BitField.loadImmediate.width)
  | _ => none

def truncation? (op : Operation) : Option Truncation :=
  match immediate? op with
  | some (v, bits) => if Fits bits v then none else some ⟨v, bits⟩
  | none => none

end Operation

end WordAssembler
