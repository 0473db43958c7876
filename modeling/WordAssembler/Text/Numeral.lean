/-!
# Numerals

Natural numbers and integers as digits in a base, written and read. Digits above nine are letters,
read in either case and written in the case the output asks for.
-/

namespace WordAssembler.Numeral

def digitValue? (c : Char) : Option Nat :=
  if '0' ≤ c ∧ c ≤ '9' then some (c.toNat - '0'.toNat)
  else if 'a' ≤ c ∧ c ≤ 'f' then some (c.toNat - 'a'.toNat + 10)
  else if 'A' ≤ c ∧ c ≤ 'F' then some (c.toNat - 'A'.toNat + 10)
  else none

def digit? (base : Nat) (c : Char) : Option Nat :=
  (digitValue? c).filter (· < base)

/-- The number whose leading digits are worth `high` and whose remaining digits are `ds`. -/
def valueFrom? (base high : Nat) (ds : List Char) : Option Nat :=
  ds.foldlM (fun acc c => (digit? base c).map (base * acc + ·)) high

def value? (base : Nat) (ds : List Char) : Option Nat :=
  if ds.isEmpty then none else valueFrom? base 0 ds

def decimal (n : Nat) : String :=
  String.ofList (Nat.toDigits 10 n)

def decimalInt (v : Int) : String :=
  if v < 0 then "-" ++ decimal v.natAbs else decimal v.natAbs

/-- Decimal digits after a sign, which a number that is not negative has too. -/
def signed (v : Int) : String :=
  if v < 0 then "-" ++ decimal v.natAbs else "+" ++ decimal v.natAbs

inductive LetterCase where
  | lower
  | upper

def LetterCase.write : LetterCase → Char → Char
  | lower => id
  | upper => Char.toUpper

def hex (letters : LetterCase) (width n : Nat) : String :=
  String.ofList (((Nat.toDigits 16 n).map letters.write).leftpad width '0')

def hexLower (width n : Nat) : String :=
  hex .lower width n

def hexUpper (width n : Nat) : String :=
  hex .upper width n

end WordAssembler.Numeral
