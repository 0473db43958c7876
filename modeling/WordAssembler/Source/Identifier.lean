/-!
# Identifiers

The tokens of the source: non-empty runs of ASCII letters, digits, underscores and hyphens. Labels,
mnemonics, register names and integer literals are all tokens of this shape.
-/

namespace WordAssembler

def isIdentifierChar (c : Char) : Bool :=
  c.isAlphanum || c == '_' || c == '-'

def isIdentifier (s : String) : Bool :=
  s != "" && s.toList.all isIdentifierChar

end WordAssembler
