import WordAssembler.Fault
import WordAssembler.Machine.Instruction
import WordAssembler.Source.Identifier
import WordAssembler.Source.Literal
import WordAssembler.Text.Blank
import WordAssembler.Text.Cut

/-!
# Parsing statements

A statement is a mnemonic, then blanks, then operands between commas, with blanks around each
operand. The number of operands and their shape are checked before any operand is read, and
operands are read from left to right.
-/

namespace WordAssembler.Operation

def readRegister (token : String) : Except Fault Register :=
  match Register.ofSpelling? token with
  | some r => .ok r
  | none => .error (.invalidOperand token .register)

/-- Reads a literal. A token that was meant as a number is a bad literal; any other is an operand
of the wrong kind. -/
def readLiteral (token : String) (expected : Expected) : Except Fault Int :=
  match Literal.parse? token with
  | some v => .ok v
  | none =>
    if Literal.looksNumeric token then .error (.invalidLiteral token)
    else .error (.invalidOperand token expected)

def readImmediate (token : String) : Except Fault Int :=
  if (Register.ofSpelling? token).isSome then .error (.invalidOperand token .literal)
  else readLiteral token .literal

def readOperand (token : String) : Except Fault (Operand Int) :=
  match Register.ofSpelling? token with
  | some r => .ok (.reg r)
  | none => (readLiteral token .registerOrLiteral).map .val

/-- A jump target that is no register is left for later: it may be a label. -/
def readTarget (token : String) : Operand String :=
  match Register.ofSpelling? token with
  | some r => .reg r
  | none => .val token

def splitOperands (rest : List Char) : List String :=
  match Text.trim rest with
  | [] => []
  | text => (text.splitOn ',').map fun token => String.ofList (Text.trim token)

def ofOperands (m : Mnemonic) (tokens : List String) : Except Fault Operation :=
  if !tokens.all isIdentifier then .error (.malformedArguments m)
  else
    match m.family, tokens with
    | .alu, [d, a, b] => do
      return .alu m (← readRegister d) (← readRegister a) (← readOperand b)
    | .loadImm, [d, v] => do return .loadImm m (← readRegister d) (← readImmediate v)
    | .loadStore, [d, a] => do return .loadStore m (← readRegister d) (← readRegister a)
    | .condJump, [c, t] => do return .condJump m (← readRegister c) (readTarget t)
    | .jump, [t] => .ok (.jump m (readTarget t))
    | .zero, [] => .ok (.zero m)
    | _, _ => .error (.malformedArguments m)

/-- The operation that a statement's code states. The code is taken as it stands: blanks in front
of the mnemonic leave no mnemonic to read. -/
def parse (code : String) : Except Fault Operation :=
  let (word, rest) := (Text.cutAt? Text.isBlank code.toList).getD (code.toList, [])
  let name := String.ofList word
  if !isIdentifier name then .error .malformedLine
  else
    match Mnemonic.ofSpelling? name with
    | none => .error (.unknownInstruction name)
    | some m => ofOperands m (splitOperands rest)

end WordAssembler.Operation
