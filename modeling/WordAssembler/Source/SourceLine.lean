import WordAssembler.Text.Blank
import WordAssembler.Text.Lines

/-!
# Source lines

The lines of a source text, numbered from one and kept as written. Lines that hold nothing but
blanks or a comment are idle; assembly works on the others.
-/

namespace WordAssembler

structure SourceLine where
  number : Nat
  text : String
deriving DecidableEq, Repr

namespace SourceLine

def numbered (source : String) : List SourceLine :=
  ((Text.lines source.toList).zipIdx 1).map fun line => ⟨line.2, String.ofList line.1⟩

/-- Holds of a line with only blanks before its end or its comment. -/
def isIdle (line : SourceLine) : Bool :=
  match Text.trim line.text.toList with
  | [] => true
  | c :: _ => c == ';'

def kept (source : String) : List SourceLine :=
  (numbered source).filter (!·.isIdle)

end SourceLine

end WordAssembler
