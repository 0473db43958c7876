import WordAssembler.Command.FileTree
import WordAssembler.Command.Plan

/-!
# Runs

A run of the command on a file tree: its exit status, what it prints and the files it leaves.
-/

namespace WordAssembler

structure Outcome where
  status : Nat
  output : String
  tree : FileTree

namespace Command

def version : String :=
  "cas 0.1.0\n"

def help : String :=
  version ++
    "  Two-pass assembler for the 16-bit word machine, emitting MIF memory images\n" ++
    "\n" ++
    "Usage:\n" ++
    "  cas [OPTIONS] [INPUT]\n" ++
    "\n" ++
    "Arguments:\n" ++
    "  [INPUT]  Input file [default: main.s]\n" ++
    "\n" ++
    "Options:\n" ++
    "  -o, --output <OUTPUT>    Output file [default: <input stem>.mif]\n" ++
    "  -d, --dump               Dump assembled listing\n" ++
    "  -s, --symbols <SYMBOLS>  Write label table as JSON\n" ++
    "  -h, --help               Print help\n" ++
    "  -V, --version            Print version\n"

def answer : Arguments.Refusal → Nat × String
  | .help => (0, help)
  | .version => (0, version)
  | .misuse => (2, "")

/-- Writes the files in turn, and stops at the first that cannot be created. -/
def writeFiles (closing : String) : List Writing → String → FileTree → Outcome
  | [], output, tree => ⟨0, output ++ closing, tree⟩
  | file :: files, output, tree =>
    match tree.write? file.path file.content.toUTF8 with
    | none => ⟨1, output ++ file.announcement ++ file.refusal, tree⟩
    | some written => writeFiles closing files
        (output ++ file.announcement ++ if tree.prints file.path then file.content else "") written

def perform (tree : FileTree) : Plan → Outcome
  | .fail output => ⟨1, output, tree⟩
  | .write output files closing => writeFiles closing files output tree

def source? (arguments : Arguments) (tree : FileTree) : Option String := do
  String.fromUTF8? (← tree.read? arguments.input)

def run (arguments : Arguments) (tree : FileTree) : Outcome :=
  perform tree (Plan.ofSource arguments (source? arguments tree))

def execute (commandLine : List String) (tree : FileTree) : Outcome :=
  match Arguments.parse commandLine with
  | .error refusal => ⟨(answer refusal).1, (answer refusal).2, tree⟩
  | .ok arguments => run arguments tree

end Command

end WordAssembler
