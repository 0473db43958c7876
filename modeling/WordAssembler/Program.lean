import WordAssembler.Fault
import WordAssembler.Machine.BitField
import WordAssembler.Text.Numeral

/-!
# Programs and memory images

A program is the list of its words in address order, no longer than the instruction memory. Its
memory image initialises a memory twice as deep as the program rounded up to a power of two, so
the upper half is left for data; cells past the program are zero.
-/

namespace WordAssembler

def capacity : Nat := 32768

structure Program where
  words : List Word
  length_le : words.length ≤ capacity
deriving DecidableEq, Repr

namespace Program

def ofWords (words : List Word) : Except Fault Program :=
  if hle : words.length ≤ capacity then .ok ⟨words, hle⟩
  else .error (.programTooLarge words.length capacity)

def size (program : Program) : Nat :=
  program.words.length

/-- The number of binary digits of `n`, none for zero. -/
def bitLength (n : Nat) : Nat :=
  if n = 0 then 0 else n.log2 + 1

/-- The number of cells of the memory. For a program that is not empty,
`1 <<< bitLength (size - 1)` is the least power of two that is no less than its size. -/
def depth (program : Program) : Nat :=
  if program.size = 0 then 0 else 2 * (1 <<< bitLength (program.size - 1))

def cells (program : Program) : List Word :=
  program.words ++ List.replicate (program.depth - program.size) 0

def cellLine (word : Word) (address : Nat) : String :=
  Numeral.hexLower 4 address ++ " : " ++ Numeral.hexLower 4 word.toNat ++ ";"

def imageHeader (depth : Nat) : List String :=
  ["DEPTH = " ++ Numeral.decimal depth ++ ";", "WIDTH = 16;", "ADDRESS_RADIX = HEX;",
    "DATA_RADIX = HEX;", "CONTENT", "BEGIN", ""]

def imageLines (program : Program) : List String :=
  imageHeader program.depth ++ program.cells.zipIdx.map (fun cell => cellLine cell.1 cell.2) ++
    ["", "END;"]

def image (program : Program) : String :=
  String.join (program.imageLines.map (· ++ "\n"))

end Program

end WordAssembler
