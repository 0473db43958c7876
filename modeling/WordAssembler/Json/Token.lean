import WordAssembler.Text.Numeral

/-!
# JSON tokens

A JSON text is cut into tokens by a machine that takes one character at a time. A string token
keeps the units that its characters and escapes spell: an escape may spell half of a surrogate
pair, which is a valid token though no text contains it.
-/

namespace WordAssembler.Json

inductive Token where
  | openObject
  | closeObject
  | openArray
  | closeArray
  | comma
  | colon
  | null
  | bool (b : Bool)
  | number (digits : List Char)
  | string (units : List Nat)
deriving DecidableEq, Repr

/-- How far the characters of a number have come. -/
inductive NumberPart where
  | sign
  | leadingZero
  | whole
  | point
  | fraction
  | mark
  | markSign
  | exponent
deriving DecidableEq, Repr

namespace NumberPart

def afterWhole (c : Char) : Option NumberPart :=
  if c == '.' then some point
  else if c == 'e' || c == 'E' then some mark
  else none

def next : NumberPart → Char → Option NumberPart
  | sign, c =>
    if c == '0' then some leadingZero else if c.isDigit then some whole else none
  | leadingZero, c => afterWhole c
  | whole, c => if c.isDigit then some whole else afterWhole c
  | point, c => if c.isDigit then some fraction else none
  | fraction, c =>
    if c.isDigit then some fraction else if c == 'e' || c == 'E' then some mark else none
  | mark, c =>
    if c.isDigit then some exponent else if c == '+' || c == '-' then some markSign else none
  | markSign, c | exponent, c => if c.isDigit then some exponent else none

def isComplete : NumberPart → Bool
  | leadingZero | whole | fraction | exponent => true
  | sign | point | mark | markSign => false

end NumberPart

/-- What the scanner is in the middle of. Characters and units read so far are kept in reverse. -/
inductive ScanMode where
  | between
  | word (left : List Char) (token : Token)
  | number (part : NumberPart) (digits : List Char)
  | string (units : List Nat)
  | escape (units : List Nat)
  | hex (units : List Nat) (left value : Nat)
deriving DecidableEq, Repr

/-- The scanner between two characters, with the tokens so far in reverse. -/
structure Scanner where
  mode : ScanMode := .between
  tokens : List Token := []

namespace Scanner

def isSpace (c : Char) : Bool :=
  c == ' ' || c == '\n' || c == '\r' || c == '\t'

def emit (tokens : List Token) (token : Token) : Scanner :=
  { tokens := token :: tokens }

def start (tokens : List Token) (c : Char) : Option Scanner :=
  if isSpace c then some { tokens }
  else if c == '\x7b' then some (emit tokens .openObject)
  else if c == '\x7d' then some (emit tokens .closeObject)
  else if c == '[' then some (emit tokens .openArray)
  else if c == ']' then some (emit tokens .closeArray)
  else if c == ',' then some (emit tokens .comma)
  else if c == ':' then some (emit tokens .colon)
  else if c == '"' then some ⟨.string [], tokens⟩
  else if c == 'n' then some ⟨.word ['u', 'l', 'l'] .null, tokens⟩
  else if c == 't' then some ⟨.word ['r', 'u', 'e'] (.bool true), tokens⟩
  else if c == 'f' then some ⟨.word ['a', 'l', 's', 'e'] (.bool false), tokens⟩
  else if c == '-' then some ⟨.number .sign [c], tokens⟩
  else if c == '0' then some ⟨.number .leadingZero [c], tokens⟩
  else if c.isDigit then some ⟨.number .whole [c], tokens⟩
  else none

/-- The unit that a character after a backslash stands for, where it stands for one alone. -/
def escapedUnit? (c : Char) : Option Nat :=
  if c == '"' || c == '\\' || c == '/' then some c.toNat
  else if c == 'b' then some 0x08
  else if c == 'f' then some 0x0C
  else if c == 'n' then some 0x0A
  else if c == 'r' then some 0x0D
  else if c == 't' then some 0x09
  else none

def step (scanner : Scanner) (c : Char) : Option Scanner :=
  let tokens := scanner.tokens
  match scanner.mode with
  | .between => start tokens c
  | .word [] _ => none
  | .word [d] token => if c == d then some (emit tokens token) else none
  | .word (d :: left) token => if c == d then some ⟨.word left token, tokens⟩ else none
  | .number part digits =>
    match part.next c with
    | some part => some ⟨.number part (c :: digits), tokens⟩
    | none => if part.isComplete then start (.number digits.reverse :: tokens) c else none
  | .string units =>
    if c == '"' then some (emit tokens (.string units.reverse))
    else if c == '\\' then some ⟨.escape units, tokens⟩
    else if c.toNat < 0x20 then none
    else some ⟨.string (c.toNat :: units), tokens⟩
  | .escape units =>
    if c == 'u' then some ⟨.hex units 4 0, tokens⟩
    else (escapedUnit? c).map fun unit => ⟨.string (unit :: units), tokens⟩
  | .hex units left value =>
    (Numeral.digit? 16 c).map fun digit =>
      let value := 16 * value + digit
      if left ≤ 1 then ⟨.string (value :: units), tokens⟩
      else ⟨.hex units (left - 1) value, tokens⟩

def finish (scanner : Scanner) : Option (List Token) :=
  match scanner.mode with
  | .between => some scanner.tokens.reverse
  | .number part digits =>
    if part.isComplete then some (.number digits.reverse :: scanner.tokens).reverse else none
  | _ => none

end Scanner

def tokens? (text : List Char) : Option (List Token) := do
  (← text.foldlM Scanner.step {}).finish

end WordAssembler.Json
