/-!
# Blank characters

The characters that separate tokens and are dropped at both ends of a field. They are the code
points with the Unicode property White_Space, so a no-break space is blank and a zero-width space
is not.
-/

namespace WordAssembler.Text

/-- The ranges of code points with the property White_Space, ends included. -/
def blankRanges : List (Nat × Nat) :=
  [(0x0009, 0x000D), (0x0020, 0x0020), (0x0085, 0x0085), (0x00A0, 0x00A0), (0x1680, 0x1680),
    (0x2000, 0x200A), (0x2028, 0x2029), (0x202F, 0x202F), (0x205F, 0x205F), (0x3000, 0x3000)]

def isBlank (c : Char) : Bool :=
  blankRanges.any fun range => range.1 ≤ c.toNat && c.toNat ≤ range.2

def dropBlanks (cs : List Char) : List Char :=
  cs.dropWhile isBlank

def dropTrailingBlanks (cs : List Char) : List Char :=
  (dropBlanks cs.reverse).reverse

def trim (cs : List Char) : List Char :=
  dropTrailingBlanks (dropBlanks cs)

@[simp]
theorem trim_nil : trim [] = [] := rfl

end WordAssembler.Text
