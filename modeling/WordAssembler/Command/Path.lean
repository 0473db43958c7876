import WordAssembler.Text.Cut

/-!
# File names in paths

The name of the file that a path leads to, and the stem and extension of a name. The extension is
what follows the last dot, unless that dot is the name's first character.
-/

namespace WordAssembler.Path

/-- The last part of a path, passing over empty parts and parts that stay in the same directory.
There is none if that part leads to a parent directory. -/
def fileName? (path : String) : Option (List Char) :=
  ((path.toList.splitOn '/').filter fun part => part ≠ [] && part ≠ ['.']).getLast?.filter
    (· ≠ ['.', '.'])

def splitExtension (name : List Char) : List Char × Option (List Char) :=
  if name = ['.', '.'] then (name, none)
  else
    match Text.cutAt? (· == '.') name.reverse with
    | none | some (_, []) => (name, none)
    | some (after, before) => (before.reverse, some after.reverse)

def stem (name : List Char) : List Char :=
  (splitExtension name).1

/-- The name with another extension. The old extension goes first and its dot stays; if that leaves
the name of a directory, it gets no extension. -/
def withExtension (extension name : List Char) : List Char :=
  let bare := match splitExtension name with
    | (stem, some _) => stem ++ ['.']
    | (_, none) => name
  if bare = ['.'] ∨ bare = ['.', '.'] then bare else stem bare ++ '.' :: extension

def defaultOutput (input : String) : String :=
  match fileName? input with
  | some name => String.ofList (withExtension ['m', 'i', 'f'] (stem name))
  | none => "out.mif"

end WordAssembler.Path
