import Mathlib.Data.List.Infix
import WordAssembler.Command.FileTree

/-!
# What writing does to a file tree

A file tree is a map from names to contents. Writing to a path changes what the map has at one
place and nothing else, and no directory comes or goes with it, because a file is only ever created
in a directory that is already there. Where any path leads, and whether it can be written to, is
therefore settled before the first file is written.
-/

namespace WordAssembler.FileTree

variable {tree after : FileTree} {path : String} {content : ByteArray} {names : List String}

/-! ### The map -/

theorem lookup_cons (names other : List String) (content : ByteArray)
    (files : List (List String × ByteArray)) :
    ((names, content) :: files).lookup other =
      if other = names then some content else files.lookup other := by
  rw [List.lookup_cons]
  by_cases hother : other = names
  · simp [hother]
  · have hbeq : (other == names) = false := by simpa using hother
    simp [hbeq, hother]

theorem lookup_replaced (files : List (List String × ByteArray)) (names other : List String)
    (content : ByteArray) :
    (files.map fun file => if file.1 == names then (names, content) else file).lookup other =
      if other = names then (files.lookup names).map fun _ => content else files.lookup other := by
  induction files with
  | nil => simp
  | cons file files ih =>
      obtain ⟨here, old⟩ := file
      rw [List.map_cons, lookup_cons here, lookup_cons here]
      by_cases hhere : here = names
      · subst hhere
        rw [if_pos (beq_self_eq_true here), lookup_cons, ih, if_pos rfl, Option.map_some]
        by_cases hother : other = here
        · rw [if_pos hother, if_pos hother]
        · rw [if_neg hother, if_neg hother, if_neg hother, if_neg hother]
      · rw [if_neg (by simpa using hhere), lookup_cons, ih, if_neg (Ne.symm hhere)]
        by_cases hother : other = names
        · rw [if_pos hother, if_pos hother, if_neg (hother ▸ Ne.symm hhere)]
        · rw [if_neg hother, if_neg hother]

theorem isSome_lookup_iff :
    (tree.files.lookup names).isSome ↔ ∃ file ∈ tree.files, file.1 = names := by
  rw [List.lookup_isSome_iff]
  refine exists_congr fun file => and_congr_right fun _ => ?_
  rw [beq_iff_eq, eq_comm]

/-- Setting a file is an update of the map, whether the file was there before or is new. -/
theorem lookup_set (tree : FileTree) (names other : List String) (content : ByteArray) :
    (tree.set names content).files.lookup other =
      if other = names then some content else tree.files.lookup other := by
  unfold set
  split_ifs with hany hother hother
  · have hsome : (tree.files.lookup names).isSome := by
      rw [isSome_lookup_iff]
      simpa using hany
    obtain ⟨old, hold⟩ := Option.isSome_iff_exists.mp hsome
    rw [lookup_replaced, if_pos hother, hold, Option.map_some]
  · rw [lookup_replaced, if_neg hother]
  · have hnone : tree.files.lookup names = none := by
      rw [← Option.not_isSome_iff_eq_none, isSome_lookup_iff]
      simpa using hany
    rw [List.lookup_append, lookup_cons, if_pos hother, hother, hnone, Option.none_or]
  · rw [List.lookup_append, lookup_cons, if_neg hother, List.lookup_nil, Option.or_none]

/-! ### Directories -/

theorem isDirectory_iff : tree.isDirectory names ↔ names = [] ∨
    ∃ file, (tree.files.lookup file).isSome ∧ names <+: file ∧ names.length < file.length := by
  simp only [isSome_lookup_iff]
  simp [isDirectory]

theorem isDirectory_of_append {below : List String}
    (hdirectory : tree.isDirectory (names ++ below)) : tree.isDirectory names := by
  rw [isDirectory_iff] at hdirectory ⊢
  rcases hdirectory with hnil | ⟨file, hfile, hbelow, hlength⟩
  · exact Or.inl (List.append_eq_nil_iff.mp hnil).1
  · refine Or.inr ⟨file, hfile, (List.prefix_append names below).trans hbelow, ?_⟩
    rw [List.length_append] at hlength
    omega

/-- A step of a path leads from a directory to a directory. -/
theorem isDirectory_enter {result : List String} {name : String}
    (hnames : tree.isDirectory names) (henter : tree.enter names name = some result) :
    tree.isDirectory result := by
  unfold enter at henter
  split_ifs at henter with hstay hup hroot hdown
  · cases henter
    exact hnames
  · cases henter
    have hne : names ≠ [] := by simpa using hroot
    rw [← List.dropLast_append_getLast hne] at hnames
    exact isDirectory_of_append hnames
  · cases henter
    exact hdown

/-- All steps of a path lead from a directory to a directory. -/
theorem isDirectory_foldlM_enter {steps result : List String} (hnames : tree.isDirectory names)
    (henter : steps.foldlM tree.enter names = some result) : tree.isDirectory result := by
  induction steps generalizing names with
  | nil =>
      cases henter
      exact hnames
  | cons name steps ih =>
      rw [List.foldlM_cons, Option.bind_eq_bind, Option.bind_eq_some_iff] at henter
      obtain ⟨next, hnext, hrest⟩ := henter
      exact ih (isDirectory_enter hnames hnext) hrest

/-! ### Paths -/

/-- A path to a file leads into a directory. -/
theorem exists_directory_of_locate? (hplace : tree.locate? path = some (.file names)) :
    ∃ parent name, names = parent ++ [name] ∧ tree.isDirectory parent := by
  unfold locate? at hplace
  simp only [Option.bind_eq_bind, Option.bind_eq_some_iff] at hplace
  obtain ⟨name, -, hplace⟩ := hplace
  split_ifs at hplace with hlimit hname hroot
  · obtain ⟨device, -, hplace⟩ := Option.bind_eq_some_iff.mp hplace
    split_ifs at hplace
    simp at hplace
  · obtain ⟨parent, hparent, hfile⟩ := Option.bind_eq_some_iff.mp hplace
    cases hfile
    exact ⟨parent, name, rfl, isDirectory_foldlM_enter rfl hparent⟩

/-! ### Writing -/

/-- Holds of paths that can be written to: they lead to a file and not to a directory, or to a
device that takes what is written. -/
def isCreatable (tree : FileTree) (path : String) : Bool :=
  match tree.locate? path with
  | some (.file names) => !tree.isDirectory names
  | some (.device d) => d.accepts
  | none => false

/-- Holds of a tree and of what it is once the path was given its content: the file that the path
leads to holds the content and every other file is as before. A device keeps nothing. -/
inductive Written (tree : FileTree) (path : String) (content : ByteArray) : FileTree → Prop
  | file {names : List String} {after : FileTree} (hplace : tree.locate? path = some (.file names))
      (hfiles : ∀ other, after.files.lookup other =
        if other = names then some content else tree.files.lookup other) :
      Written tree path content after
  | device {d : Device} (hplace : tree.locate? path = some (.device d)) :
      Written tree path content tree

theorem Written.lookup_eq (hwritten : tree.Written path content after)
    (hplace : tree.locate? path = some (.file names)) (other : List String) :
    after.files.lookup other = if other = names then some content else tree.files.lookup other := by
  cases hwritten with
  | file hfile hfiles =>
      rw [hplace] at hfile
      cases hfile
      exact hfiles other
  | device hdevice =>
      rw [hplace] at hdevice
      cases hdevice

/-- A new file stands in a directory that was there before, so no directory comes or goes. -/
theorem Written.isDirectory_eq (hwritten : tree.Written path content after) (other : List String) :
    after.isDirectory other = tree.isDirectory other := by
  cases hwritten with
  | device hplace => rfl
  | file hplace hfiles =>
      obtain ⟨parent, name, rfl, hparent⟩ := exists_directory_of_locate? hplace
      rw [Bool.eq_iff_iff]
      constructor
      · intro hdirectory
        rcases isDirectory_iff.mp hdirectory with hnil | ⟨file, hfile, hother, hlength⟩
        · exact isDirectory_iff.mpr (Or.inl hnil)
        · rw [hfiles] at hfile
          split_ifs at hfile with hnew
          · -- What stands above the new file is its parent or stands above that.
            rw [hnew, List.prefix_concat_iff] at hother
            rcases hother with rfl | ⟨below, rfl⟩
            · rw [hnew] at hlength
              omega
            · exact isDirectory_of_append hparent
          · exact isDirectory_iff.mpr (Or.inr ⟨file, hfile, hother, hlength⟩)
      · intro hdirectory
        rcases isDirectory_iff.mp hdirectory with hnil | ⟨file, hfile, hother, hlength⟩
        · exact isDirectory_iff.mpr (Or.inl hnil)
        · refine isDirectory_iff.mpr (Or.inr ⟨file, ?_, hother, hlength⟩)
          rw [hfiles]
          split_ifs
          · rfl
          · exact hfile

/-- Paths are followed through directories alone, so they lead where they led before. -/
theorem Written.locate?_eq (hwritten : tree.Written path content after) (other : String) :
    after.locate? other = tree.locate? other := by
  have henter : after.enter = tree.enter := by
    funext names name
    simp only [enter, hwritten.isDirectory_eq]
  simp only [locate?, henter]

theorem Written.isCreatable_eq (hwritten : tree.Written path content after) (other : String) :
    after.isCreatable other = tree.isCreatable other := by
  simp only [isCreatable, hwritten.locate?_eq, hwritten.isDirectory_eq]

theorem Written.prints_eq (hwritten : tree.Written path content after) (other : String) :
    after.prints other = tree.prints other := by
  rw [prints, prints, hwritten.locate?_eq]

theorem write?_of_not_creatable (hpath : ¬tree.isCreatable path) :
    tree.write? path content = none := by
  unfold isCreatable at hpath
  unfold write?
  cases hplace : tree.locate? path with
  | none => rfl
  | some place =>
      rw [hplace] at hpath
      cases place with
      | file names => simpa using hpath
      | device d => simpa using hpath

theorem exists_write? (hpath : tree.isCreatable path) (content : ByteArray) :
    ∃ after, tree.write? path content = some after ∧ tree.Written path content after := by
  unfold isCreatable at hpath
  unfold write?
  cases hplace : tree.locate? path with
  | none =>
      rw [hplace] at hpath
      cases hpath
  | some place =>
      rw [hplace] at hpath
      cases place with
      | file names =>
          have hdirectory : tree.isDirectory names = false := by simpa using hpath
          exact ⟨tree.set names content, by simp [hdirectory],
            .file hplace fun other => lookup_set tree names other content⟩
      | device d => exact ⟨tree, by simpa using hpath, .device hplace⟩

end WordAssembler.FileTree
