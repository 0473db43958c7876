/-!
# File trees

The files below the working directory, each under the names that lead to it. The directories are
those that hold a file. Outside the working directory only the devices are known; any other path
that leaves it leads nowhere. A path that cannot be read or written leaves the tree as it is.
-/

namespace WordAssembler

structure Device where
  /-- What reading gives, if it comes to an end. -/
  content? : Option ByteArray := none
  /-- Whether the device takes what is written to it. -/
  accepts : Bool := true
  /-- Whether what is written to the device shows up in the output of the run. -/
  prints : Bool := false

namespace Device

/-- The device of the given name. A run has no standard input, so that reads as empty as the null
device does. -/
def ofName? : String → Option Device
  | "null" | "stdin" => some { content? := some .empty }
  | "zero" | "stderr" => some {}
  | "full" => some { accepts := false }
  | "stdout" => some { prints := true }
  | _ => none

end Device

inductive Place where
  | file (names : List String)
  | device (d : Device)

structure FileTree where
  files : List (List String × ByteArray)

namespace FileTree

def nameLimit : Nat := 255

def pathLimit : Nat := 4095

def parts (path : String) : List String :=
  (path.toList.splitOn '/').map String.ofList

def isDirectory (tree : FileTree) (names : List String) : Bool :=
  names.isEmpty ||
    tree.files.any fun file => names.isPrefixOf file.1 && names.length < file.1.length

def enter (tree : FileTree) (names : List String) (name : String) : Option (List String) :=
  if name = "" ∨ name = "." then some names
  else if name = ".." then if names.isEmpty then none else some names.dropLast
  else if tree.isDirectory (names ++ [name]) then some (names ++ [name])
  else none

/-- Goes one step from a directory given from the root. The root is its own parent, and all that is
known below it is the directory of the devices. -/
def enterFromRoot (names : List String) (name : String) : Option (List String) :=
  if name = "" ∨ name = "." then some names
  else if name = ".." then some names.dropLast
  else if names ++ [name] = ["dev"] then some ["dev"]
  else none

/-- The place that a path leads to, whether or not there is a file. -/
def locate? (tree : FileTree) (path : String) : Option Place := do
  let names := parts path
  let name ← names.getLast?
  if pathLimit < path.utf8ByteSize ∨ nameLimit < name.utf8ByteSize then none
  else if name = "" ∨ name = "." ∨ name = ".." then none
  else if path.toList.head? = some '/' then
    if (← names.dropLast.foldlM enterFromRoot []) = ["dev"] then
      (Device.ofName? name).map .device
    else none
  else return .file ((← names.dropLast.foldlM tree.enter []) ++ [name])

def read? (tree : FileTree) (path : String) : Option ByteArray := do
  match ← tree.locate? path with
  | .file names => tree.files.lookup names
  | .device d => d.content?

def set (tree : FileTree) (names : List String) (content : ByteArray) : FileTree :=
  if tree.files.any (·.1 == names) then
    ⟨tree.files.map fun file => if file.1 == names then (names, content) else file⟩
  else ⟨tree.files ++ [(names, content)]⟩

/-- The tree of the given files, of which a later one takes the place of an earlier one. Their paths
are below the working directory. -/
def ofFiles (files : List (String × ByteArray)) : FileTree :=
  files.foldl (fun tree file => tree.set ((parts file.1).filter fun name =>
    name != "" && name != ".") file.2) ⟨[]⟩

/-- Writes to a path, if it can be written to. A file is created or overwritten, and a device keeps
nothing. -/
def write? (tree : FileTree) (path : String) (content : ByteArray) : Option FileTree := do
  match ← tree.locate? path with
  | .file names => if tree.isDirectory names then none else return tree.set names content
  | .device d => if d.accepts then return tree else none

/-- Holds of paths that lead to the output of the run. -/
def prints (tree : FileTree) (path : String) : Bool :=
  match tree.locate? path with
  | some (.device d) => d.prints
  | _ => false

end FileTree

end WordAssembler
