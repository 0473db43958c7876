import WordAssembler.Command.Path
import WordAssembler.Text.Cut

/-!
# Command-line arguments

Arguments are read one after the other. An option may stand once; its value is the next argument or
follows an equals sign, and the value of a one-letter option may also follow the letter directly.
One-letter flags may share a dash. After `--` every argument is an input. Asking for help or for
the version ends the reading, and so does the first misuse.
-/

namespace WordAssembler

structure Arguments where
  input? : Option String := none
  output? : Option String := none
  symbols? : Option String := none
  dump : Bool := false
deriving DecidableEq, Repr

namespace Arguments

def input (arguments : Arguments) : String :=
  arguments.input?.getD "main.s"

def output (arguments : Arguments) : String :=
  arguments.output?.getD (Path.defaultOutput arguments.input)

inductive Refusal where
  | help
  | version
  | misuse
deriving DecidableEq, Repr

inductive Setting where
  | output
  | symbols
deriving DecidableEq, Repr

inductive Switch where
  | setting (s : Setting)
  | dump
  | help
  | version
deriving DecidableEq, Repr

def ofLetter? : Char → Option Switch
  | 'o' => some (.setting .output)
  | 's' => some (.setting .symbols)
  | 'd' => some .dump
  | 'h' => some .help
  | 'V' => some .version
  | _ => none

def ofLongName? : String → Option Switch
  | "output" => some (.setting .output)
  | "symbols" => some (.setting .symbols)
  | "dump" => some .dump
  | "help" => some .help
  | "version" => some .version
  | _ => none

def setInput (arguments : Arguments) (value : String) : Except Refusal Arguments :=
  if arguments.input?.isSome then .error .misuse else .ok { arguments with input? := some value }

def set (arguments : Arguments) (value : String) : Setting → Except Refusal Arguments
  | .output =>
    if arguments.output?.isSome then .error .misuse
    else .ok { arguments with output? := some value }
  | .symbols =>
    if arguments.symbols?.isSome then .error .misuse
    else .ok { arguments with symbols? := some value }

def setDump (arguments : Arguments) : Except Refusal Arguments :=
  if arguments.dump then .error .misuse else .ok { arguments with dump := true }

/-- The reader between two arguments. -/
structure Reader where
  arguments : Arguments := {}
  /-- The option whose value comes next. -/
  awaiting : Option Setting := none
  /-- Whether every further argument is an input. -/
  onlyInputs : Bool := false

namespace Reader

def takeLetters (arguments : Arguments) : List Char → Except Refusal Reader
  | [] => .ok { arguments }
  | letter :: rest =>
    match ofLetter? letter with
    | none => .error .misuse
    | some .help => .error .help
    | some .version => .error .version
    | some .dump => do takeLetters (← arguments.setDump) rest
    | some (.setting s) =>
      match rest with
      | [] => .ok { arguments, awaiting := some s }
      | '=' :: value => do return { arguments := ← arguments.set (String.ofList value) s }
      | value => do return { arguments := ← arguments.set (String.ofList value) s }

/-- Takes an argument with two dashes: the name, and the value after an equals sign. -/
def takeLong (arguments : Arguments) (name : String) (value : Option String) :
    Except Refusal Reader :=
  match ofLongName? name, value with
  | some (.setting s), some value => do return { arguments := ← arguments.set value s }
  | some (.setting s), none => .ok { arguments, awaiting := some s }
  | some .dump, none => do return { arguments := ← arguments.setDump }
  | some .help, none => .error .help
  | some .version, none => .error .version
  | _, _ => .error .misuse

/-- Takes an argument that no option waits for. -/
def takeFree (arguments : Arguments) (argument : String) : Except Refusal Reader :=
  match argument.toList with
  | ['-', '-'] => .ok { arguments, onlyInputs := true }
  | '-' :: '-' :: long =>
    match Text.cutAt? (· == '=') long with
    | some (name, value) => takeLong arguments (String.ofList name) (some (String.ofList value))
    | none => takeLong arguments (String.ofList long) none
  | '-' :: letter :: letters => takeLetters arguments (letter :: letters)
  | _ => do return { arguments := ← arguments.setInput argument }

/-- Holds of arguments that are read as options. A dash alone is not one of them. -/
def isOption (argument : String) : Bool :=
  match argument.toList with
  | '-' :: _ :: _ => true
  | _ => false

def step (reader : Reader) (argument : String) : Except Refusal Reader :=
  let arguments := reader.arguments
  if reader.onlyInputs then do
    return { arguments := ← arguments.setInput argument, onlyInputs := true }
  else
    match reader.awaiting with
    | none => takeFree arguments argument
    | some s =>
      if isOption argument then .error .misuse
      else do return { arguments := ← arguments.set argument s }

def finish (reader : Reader) : Except Refusal Arguments :=
  if reader.awaiting.isSome then .error .misuse else .ok reader.arguments

end Reader

def parse (commandLine : List String) : Except Refusal Arguments := do
  (← commandLine.foldlM Reader.step {}).finish

end Arguments

end WordAssembler
