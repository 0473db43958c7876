/-!
# Cutting a text at a separator

A text is cut at its first separator: what stands before it and what stands after it, the
separator itself belonging to neither.
-/

namespace WordAssembler.Text

def cutAt? (p : Char → Bool) (cs : List Char) : Option (List Char × List Char) :=
  match cs.dropWhile (!p ·) with
  | [] => none
  | _ :: after => some (cs.takeWhile (!p ·), after)

/-- The part before the first character that satisfies `p`, or the whole text. -/
def before (p : Char → Bool) (cs : List Char) : List Char :=
  cs.takeWhile (!p ·)

end WordAssembler.Text
