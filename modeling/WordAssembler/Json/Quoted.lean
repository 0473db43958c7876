import WordAssembler.Text.Numeral

/-!
# Quoted text

Texts as JSON strings. Written, a text has escapes only where JSON demands them; read, the units of
a string are a text unless they hold half of a surrogate pair.
-/

namespace WordAssembler.Json

def isHighSurrogate (unit : Nat) : Bool :=
  0xD800 ≤ unit && unit ≤ 0xDBFF

def isLowSurrogate (unit : Nat) : Bool :=
  0xDC00 ≤ unit && unit ≤ 0xDFFF

/-- The characters that the units of a string spell, a surrogate pair spelling one. -/
def chars? : List Nat → Option (List Char)
  | [] => some []
  | unit :: units =>
    if isHighSurrogate unit then
      match units with
      | [] => none
      | low :: rest =>
        if isLowSurrogate low then
          (chars? rest).map
            (Char.ofNat (0x10000 + (unit - 0xD800) * 0x400 + (low - 0xDC00)) :: ·)
        else none
    else if isLowSurrogate unit then none
    else (chars? units).map (Char.ofNat unit :: ·)

def text? (units : List Nat) : Option String :=
  (chars? units).map String.ofList

def escaped (c : Char) : String :=
  if c == '"' then "\\\""
  else if c == '\\' then "\\\\"
  else if c.toNat == 0x08 then "\\b"
  else if c.toNat == 0x0C then "\\f"
  else if c == '\n' then "\\n"
  else if c == '\r' then "\\r"
  else if c == '\t' then "\\t"
  else if c.toNat < 0x20 then "\\u" ++ Numeral.hexLower 4 c.toNat
  else String.ofList [c]

def quote (text : String) : String :=
  "\"" ++ String.join (text.toList.map escaped) ++ "\""

end WordAssembler.Json
