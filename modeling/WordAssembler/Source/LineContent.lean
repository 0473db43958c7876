import WordAssembler.Fault
import WordAssembler.Machine.Reserved
import WordAssembler.Source.Identifier
import WordAssembler.Text.Blank
import WordAssembler.Text.Cut

/-!
# Content of a line

A line holds a label, code, both or neither. A semicolon starts a comment and the first colon
outside the comment ends the label.
-/

namespace WordAssembler

structure LineContent where
  label : Option String
  code : String
deriving DecidableEq, Repr

namespace LineContent

/-- The line's text up to its comment, without blanks at the ends. -/
def body (text : String) : List Char :=
  Text.trim (Text.before (· == ';') text.toList)

/-- What a line of the given text holds. A label that is no identifier is told before one that is
reserved, and both before a second colon. -/
def ofText (text : String) : Except Fault LineContent :=
  let body := body text
  match Text.cutAt? (· == ':') body with
  | none => .ok ⟨none, String.ofList body⟩
  | some (before, after) =>
    let label := String.ofList (Text.trim before)
    let code := Text.trim after
    if !isIdentifier label then .error .malformedLine
    else if isReserved label then .error (.reservedLabel label)
    else if code.contains ':' then .error .malformedLine
    else .ok ⟨some label, String.ofList code⟩

def hasCode (content : LineContent) : Bool :=
  content.code != ""

end LineContent

end WordAssembler
