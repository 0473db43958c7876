import WordAssembler.Text.Numeral

/-!
# Integer literals

A literal is a decimal number, with a minus sign in front if it is negative, or a binary, octal or
hexadecimal number after `0b`, `0o` or `0x`, which has no sign. Literals are 64-bit integers; how
many bits an instruction keeps is not decided here.
-/

namespace WordAssembler.Literal

def InRange (v : Int) : Prop :=
  -0x8000000000000000 ≤ v ∧ v < 0x8000000000000000

instance (v : Int) : Decidable (InRange v) :=
  inferInstanceAs (Decidable (_ ∧ _))

def integer? : List Char → Option Int
  | '0' :: 'b' :: digits => (Numeral.value? 2 digits).map Int.ofNat
  | '0' :: 'o' :: digits => (Numeral.value? 8 digits).map Int.ofNat
  | '0' :: 'x' :: digits => (Numeral.value? 16 digits).map Int.ofNat
  | '-' :: digits => (Numeral.value? 10 digits).map fun n => -Int.ofNat n
  | digits => (Numeral.value? 10 digits).map Int.ofNat

def parse? (s : String) : Option Int :=
  (integer? s.toList).filter fun v => decide (InRange v)

/-- Holds of tokens that were meant as a number: they start with a digit or a minus sign. -/
def looksNumeric (s : String) : Bool :=
  s.toList.head?.any fun c => c.isDigit || c == '-'

end WordAssembler.Literal
