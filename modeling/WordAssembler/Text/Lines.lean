/-!
# Lines of a text

A line ends at a line feed, and a carriage return directly before that line feed belongs to the
line end. Text after the last line feed is a line of its own unless it is empty, and keeps a
carriage return at its end.
-/

namespace WordAssembler.Text

/-- The piece without one carriage return at its end. -/
def dropReturn (piece : List Char) : List Char :=
  if piece.getLast? = some '\r' then piece.dropLast else piece

/-- The lines of a text. All pieces between line feeds but the last were ended by one. -/
def lines (text : List Char) : List (List Char) :=
  let pieces := text.splitOn '\n'
  pieces.dropLast.map dropReturn ++ (pieces.getLast?.filter (· ≠ [])).toList

end WordAssembler.Text
