import Mathlib.Data.List.Infix
import WordAssembler.Command.Arguments
import WordAssembler.Proofs.Blanks

/-!
# The image that an input is written to

Where no output is asked for, the image is named after the input. The name that the input's path
leads to loses its extension, and the stem that is left is given the extension of images. Putting an
extension to a name takes an old one off first, so a stem that still has a dot in it is cut once
more: the image has the input's stem exactly where the stem has no further dot, and inputs with
other stems may come to share an image.
-/

namespace WordAssembler

open Text

namespace Path

variable {path : String} {name stem short extension : List Char}

/-- Holds of a path that ends in the given name, alone or behind a slash. Further slashes, also with
a single dot behind them, stay where they are and do not count. -/
structure LeadsTo (path : String) (name : List Char) : Prop where
  written : ∃ (directory : List Char) (stays : List (List Char)),
    (directory = [] ∨ ∃ above, directory = above ++ ['/']) ∧
    (∀ part ∈ stays, part = [] ∨ part = ['.']) ∧
    path.toList = directory ++ name ++ stays.flatMap ('/' :: ·)
  no_slash : '/' ∉ name
  ne_nil : name ≠ []
  ne_dot : name ≠ ['.']
  ne_dots : name ≠ ['.', '.']

/-- Holds of a name and of what is left of it when it is cut at its last dot. A dot that the name
starts with is no place to cut. -/
def StemOf (name stem : List Char) : Prop :=
  (stem = name ∧ '.' ∉ name.tail) ∨
    ∃ extension, name = stem ++ '.' :: extension ∧ stem ≠ [] ∧ '.' ∉ extension

/-- Holds of stems that have no dot behind their first character and are not a dot alone. -/
def Plain (stem : List Char) : Prop :=
  '.' ∉ stem.tail ∧ stem ≠ ['.']

/-! ### The name that a path leads to -/

theorem intercalate_cons_slash (name : List Char) (stays : List (List Char)) :
    ['/'].intercalate (name :: stays) = name ++ stays.flatMap ('/' :: ·) := by
  induction stays generalizing name with
  | nil => simp
  | cons part stays ih =>
      rw [List.intercalate_cons_cons, ih]
      simp

theorem intercalate_append_cons_slash (above stays : List (List Char)) (name : List Char) :
    ['/'].intercalate (above ++ name :: stays) =
      above.flatMap (· ++ ['/']) ++ name ++ stays.flatMap ('/' :: ·) := by
  rw [List.append_assoc, ← intercalate_cons_slash]
  induction above with
  | nil => rfl
  | cons part above ih =>
      have hne : above ++ name :: stays ≠ [] := by simp
      obtain ⟨second, rest, hrest⟩ := List.exists_cons_of_ne_nil hne
      rw [List.cons_append, hrest, List.intercalate_cons_cons, ← hrest, ih, List.flatMap_cons,
        ← List.append_assoc]

theorem slash_not_mem_of_mem_splitOn {text part : List Char} (hpart : part ∈ text.splitOn '/') :
    '/' ∉ part := by
  induction text generalizing part with
  | nil =>
      rw [List.splitOn_nil, List.mem_singleton] at hpart
      simp [hpart]
  | cons c text ih =>
      rw [List.splitOn_cons_eq_if_modifyHead] at hpart
      split_ifs at hpart with hslash
      · rcases List.mem_cons.mp hpart with rfl | hlater
        · exact List.not_mem_nil
        · exact ih hlater
      · cases hparts : text.splitOn '/' with
        | nil => exact absurd hparts (List.splitOn_ne_nil '/' text)
        | cons first parts =>
            rw [hparts, List.modifyHead_cons, List.mem_cons] at hpart
            rcases hpart with rfl | hlater
            · have hfirst : '/' ∉ first := ih (by simp [hparts])
              have hc : '/' ≠ c := by
                rintro rfl
                exact hslash rfl
              simp [hfirst, hc]
            · exact ih (by simp [hparts, hlater])

/-- The file name is the last part of the path that goes anywhere: empty parts and single dots stay
where they are, and two dots have no name. -/
theorem fileName?_eq_some_iff_parts : fileName? path = some name ↔
    (∃ above stays, path.toList.splitOn '/' = above ++ name :: stays ∧
      ∀ part ∈ stays, part = [] ∨ part = ['.']) ∧
    name ≠ [] ∧ name ≠ ['.'] ∧ name ≠ ['.', '.'] := by
  rw [fileName?, Option.filter_eq_some_iff, List.getLast?_filter, List.find?_eq_some_iff_append]
  constructor
  · rintro ⟨⟨hname, stays, above, hparts, hstays⟩, hdots⟩
    obtain ⟨hnil, hdot⟩ : name ≠ [] ∧ name ≠ ['.'] := by simpa using hname
    refine ⟨⟨above.reverse, stays.reverse, ?_, ?_⟩, hnil, hdot, by simpa using hdots⟩
    · rw [← List.reverse_inj, hparts]
      simp
    · intro part hpart
      have hstay := hstays part (List.mem_reverse.mp hpart)
      simpa [Classical.or_iff_not_imp_left] using hstay
  · rintro ⟨⟨above, stays, hparts, hstays⟩, hnil, hdot, hdots⟩
    refine ⟨⟨by simp [hnil, hdot], stays.reverse, above.reverse, by simp [hparts], ?_⟩,
      by simpa using hdots⟩
    intro part hpart
    rcases hstays part (List.mem_reverse.mp hpart) with rfl | rfl <;> rfl

theorem splitOn_of_stays {stays : List (List Char)} (hname : '/' ∉ name)
    (hstays : ∀ part ∈ stays, part = [] ∨ part = ['.']) :
    (name ++ stays.flatMap ('/' :: ·)).splitOn '/' = name :: stays := by
  rw [← intercalate_cons_slash]
  apply List.splitOn_intercalate
  · rw [List.forall_mem_cons]
    refine ⟨hname, ?_⟩
    intro part hpart
    rcases hstays part hpart with rfl | rfl <;> decide
  · simp

theorem fileName?_eq_some_iff : fileName? path = some name ↔ LeadsTo path name := by
  rw [fileName?_eq_some_iff_parts]
  constructor
  · rintro ⟨⟨above, stays, hparts, hstays⟩, hnil, hdot, hdots⟩
    refine ⟨⟨above.flatMap (· ++ ['/']), stays, ?_, hstays, ?_⟩, ?_, hnil, hdot, hdots⟩
    · rcases List.eq_nil_or_concat above with rfl | ⟨init, last, rfl⟩
      · exact Or.inl rfl
      · refine Or.inr ⟨init.flatMap (· ++ ['/']) ++ last, ?_⟩
        simp
    · rw [← intercalate_append_cons_slash, ← hparts, List.intercalate_splitOn]
    · have hmem : name ∈ path.toList.splitOn '/' := by simp [hparts]
      exact slash_not_mem_of_mem_splitOn hmem
  · rintro ⟨⟨directory, stays, hdirectory, hstays, hpath⟩, hslash, hnil, hdot, hdots⟩
    refine ⟨?_, hnil, hdot, hdots⟩
    have hparts := splitOn_of_stays hslash hstays
    rcases hdirectory with rfl | ⟨above, rfl⟩
    · exact ⟨[], stays, by rw [hpath, List.nil_append, hparts, List.nil_append], hstays⟩
    · refine ⟨above.splitOn '/', stays, ?_, hstays⟩
      rw [hpath, List.append_assoc, List.append_assoc, List.singleton_append,
        List.splitOn_append_cons_self, hparts]

/-! ### Stems -/

theorem exists_stemOf (name : List Char) : ∃ stem, StemOf name stem := by
  by_cases hdot : '.' ∈ name.tail
  · obtain ⟨first, rest, rfl⟩ : ∃ first rest, name = first :: rest :=
      List.exists_cons_of_ne_nil (by rintro rfl; simp at hdot)
    -- The last dot is the first one that is met from the end.
    obtain ⟨after, before, hreverse, hafter⟩ :=
      List.eq_append_cons_of_mem (List.mem_reverse.mpr hdot)
    have hrest : rest = before.reverse ++ '.' :: after.reverse := by
      rw [← List.reverse_inj]
      simpa using hreverse
    refine ⟨first :: before.reverse, Or.inr ⟨after.reverse, ?_, by simp, by simpa using hafter⟩⟩
    rw [hrest, List.cons_append]
  · exact ⟨name, Or.inl ⟨rfl, hdot⟩⟩

theorem StemOf.isPrefix (hstem : StemOf name stem) : stem <+: name := by
  rcases hstem with ⟨rfl, -⟩ | ⟨extension, rfl, -, -⟩
  · exact List.prefix_rfl
  · exact List.prefix_append ..

theorem splitExtension_of_no_dot (hdot : '.' ∉ name.tail) : splitExtension name = (name, none) := by
  have hdots : name ≠ ['.', '.'] := by
    rintro rfl
    simp at hdot
  rw [splitExtension, if_neg hdots]
  cases name with
  | nil => rfl
  | cons first rest =>
      have hrest : ∀ c ∈ rest.reverse, (c == '.') = false := by
        apply beq_eq_false_of_not_mem
        simpa using hdot
      by_cases hfirst : first = '.'
      · have hcut : cutAt? (· == '.') (first :: rest).reverse = some (rest.reverse, []) :=
          cutAt?_eq_some_iff.mpr ⟨first, by simp [hfirst], by simp, hrest⟩
        rw [hcut]
      · have hcut : cutAt? (· == '.') (first :: rest).reverse = none := by
          rw [cutAt?_eq_none_iff, List.reverse_cons, List.forall_mem_append]
          exact ⟨hrest, by simpa using hfirst⟩
        rw [hcut]

theorem splitExtension_of_cut (hstem : stem ≠ []) (hextension : '.' ∉ extension)
    (hdots : stem ++ '.' :: extension ≠ ['.', '.']) :
    splitExtension (stem ++ '.' :: extension) = (stem, some extension) := by
  have hafter : ∀ c ∈ extension.reverse, (c == '.') = false := by
    apply beq_eq_false_of_not_mem
    simpa using hextension
  have hcut : cutAt? (· == '.') (stem ++ '.' :: extension).reverse =
      some (extension.reverse, stem.reverse) :=
    cutAt?_eq_some_iff.mpr ⟨'.', rfl, by simp, hafter⟩
  rw [splitExtension, if_neg hdots, hcut]
  cases hreverse : stem.reverse with
  | nil => exact absurd (List.reverse_eq_nil_iff.mp hreverse) hstem
  | cons last before => simp [← hreverse]

theorem stem_of_stemOf (hname : name ≠ ['.', '.']) (hstem : StemOf name stem) :
    Path.stem name = stem := by
  rcases hstem with ⟨rfl, hdot⟩ | ⟨extension, rfl, hne, hextension⟩
  · rw [Path.stem, splitExtension_of_no_dot hdot]
  · rw [Path.stem, splitExtension_of_cut hne hextension hname]

/-- The stem of a name is unique, so to state it is to compute it. -/
theorem stemOf_iff (hname : name ≠ ['.', '.']) : StemOf name stem ↔ stem = Path.stem name := by
  constructor
  · intro hstem
    exact (stem_of_stemOf hname hstem).symm
  · rintro rfl
    obtain ⟨stem, hstem⟩ := exists_stemOf name
    rwa [stem_of_stemOf hname hstem]

/-! ### Putting an extension to a stem -/

theorem append_dot_eq_dots (hshort : short ≠ [])
    (hdots : short ++ '.' :: extension = ['.', '.']) : short = ['.'] ∧ extension = [] := by
  cases short with
  | nil => exact absurd rfl hshort
  | cons first rest =>
      cases rest with
      | nil => simpa using hdots
      | cons second rest => simp at hdots

/-- A stem loses an extension of its own for the new one. Where that would leave a dot alone, the
stem is or becomes the name of a directory, which gets no extension. -/
theorem withExtension_of_stemOf (hshort : StemOf stem short) : withExtension extension stem =
    if short = ['.'] then if stem = ['.'] then ['.'] else ['.', '.']
    else short ++ '.' :: extension := by
  rcases hshort with ⟨rfl, hdot⟩ | ⟨old, rfl, hne, hold⟩
  · have hdots : short ≠ ['.', '.'] := by
      rintro rfl
      simp at hdot
    simp only [withExtension, Path.stem, splitExtension_of_no_dot hdot, hdots, or_false]
    split_ifs with hsingle
    · exact hsingle
    · rfl
  · by_cases hdots : short ++ '.' :: old = ['.', '.']
    · -- Two dots lead to the parent directory and have no extension to lose.
      rw [hdots, if_pos (append_dot_eq_dots hne hdots).1]
      rfl
    · have hbare : short ++ ['.'] ≠ ['.'] := by simpa using hne
      simp only [withExtension, splitExtension_of_cut hne hold hdots, hbare, false_or]
      by_cases hsingle : short = ['.']
      · simp [hsingle]
      · have hbareDots : short ++ ['.'] ≠ ['.', '.'] := by
          intro heq
          exact hsingle (append_dot_eq_dots hne heq).1
        rw [if_neg hbareDots, if_neg hsingle, Path.stem,
          splitExtension_of_cut hne List.not_mem_nil hbareDots]

/-- Setting an extension replaces the one there is, so it only appends where the stem has none. -/
theorem withExtension_eq_append_iff :
    withExtension extension stem = stem ++ '.' :: extension ↔ Plain stem := by
  constructor
  · intro heq
    obtain ⟨short, hshort⟩ := exists_stemOf stem
    rw [withExtension_of_stemOf hshort] at heq
    split_ifs at heq with hsingle hstem
    · simp [hstem] at heq
    · have hne : stem ≠ [] := hshort.isPrefix.ne_nil (by simp [hsingle])
      exact absurd (append_dot_eq_dots hne heq.symm).1 hstem
    · obtain rfl := List.append_cancel_right heq
      rcases hshort with ⟨-, hdot⟩ | ⟨old, hold, -, -⟩
      · exact ⟨hdot, hsingle⟩
      · simp at hold
  · rintro ⟨hdot, hsingle⟩
    rw [withExtension_of_stemOf (Or.inl ⟨rfl, hdot⟩), if_neg hsingle]

/-! ### The name of the image -/

theorem ofList_append_image (stem : List Char) :
    String.ofList (stem ++ ['.', 'm', 'i', 'f']) = String.ofList stem ++ ".mif" :=
  String.ofList_append

theorem defaultOutput_of_fileName? (hname : fileName? path = some name) :
    defaultOutput path = String.ofList (withExtension ['m', 'i', 'f'] (Path.stem name)) := by
  rw [defaultOutput, hname]

theorem defaultOutput_eq_iff_plain (hname : fileName? path = some name) :
    defaultOutput path = String.ofList (Path.stem name) ++ ".mif" ↔ Plain (Path.stem name) := by
  rw [defaultOutput_of_fileName? hname, ← ofList_append_image, String.ofList_inj,
    withExtension_eq_append_iff]

/-- The default output is named after the stem of the stem. -/
theorem defaultOutput_of_stemOf (hname : fileName? path = some name)
    (hshort : StemOf (Path.stem name) short) : defaultOutput path =
      if short = ['.'] then if Path.stem name = ['.'] then "." else ".."
      else String.ofList short ++ ".mif" := by
  rw [defaultOutput_of_fileName? hname, withExtension_of_stemOf hshort, ← ofList_append_image]
  split_ifs <;> rfl

example : defaultOutput "sub.d/.hid.den" = ".hid.mif" ∧ defaultOutput "a..s" = "a.mif" ∧
    defaultOutput "..s" = "." ∧ defaultOutput "..a.b" = ".." := by decide +kernel

theorem slash_not_mem_defaultOutput (hname : fileName? path = some name) :
    '/' ∉ (defaultOutput path).toList := by
  have hleads := fileName?_eq_some_iff.mp hname
  obtain ⟨short, hshort⟩ := exists_stemOf (Path.stem name)
  have hstem : StemOf name (Path.stem name) := (stemOf_iff hleads.ne_dots).mpr rfl
  have hslash : '/' ∉ short := by
    intro hmem
    exact hleads.no_slash (hstem.isPrefix.subset (hshort.isPrefix.subset hmem))
  rw [defaultOutput_of_stemOf hname hshort]
  split_ifs
  · decide
  · decide
  · simp [hslash]

end Path

namespace Arguments

theorem output_of_none {arguments : Arguments} (houtput : arguments.output? = none) :
    arguments.output = Path.defaultOutput arguments.input := by
  rw [output, houtput, Option.getD_none]

/-- **Default output.** Where no output is asked for and the input leads to a file, the image goes
to the current directory. It is named after the stem of the input exactly where that stem has no
dot behind its first character and is not a dot alone; any other stem is cut again. Inputs whose
stems are of the first kind share an image only if they share the stem. -/
theorem output_exact {arguments : Arguments} {name : List Char}
    (houtput : arguments.output? = none) (hname : Path.fileName? arguments.input = some name) :
    (∀ other, Path.LeadsTo arguments.input other ↔ other = name) ∧
    (∀ stem, Path.StemOf name stem ↔ stem = Path.stem name) ∧
    '/' ∉ arguments.output.toList ∧
    (arguments.output = String.ofList (Path.stem name) ++ ".mif" ↔
      Path.Plain (Path.stem name)) ∧
    (∃ short, Path.StemOf (Path.stem name) short ∧ arguments.output =
      if short = ['.'] then if Path.stem name = ['.'] then "." else ".."
      else String.ofList short ++ ".mif") ∧
    ∀ (others : Arguments) (other : List Char), others.output? = none →
      Path.fileName? others.input = some other → Path.Plain (Path.stem name) →
      Path.Plain (Path.stem other) → arguments.output = others.output →
      Path.stem name = Path.stem other := by
  rw [output_of_none houtput]
  have hleads := Path.fileName?_eq_some_iff.mp hname
  refine ⟨?_, fun stem => Path.stemOf_iff hleads.ne_dots, Path.slash_not_mem_defaultOutput hname,
    Path.defaultOutput_eq_iff_plain hname, ?_, ?_⟩
  · intro other
    rw [← Path.fileName?_eq_some_iff, hname, Option.some.injEq, eq_comm]
  · obtain ⟨short, hshort⟩ := Path.exists_stemOf (Path.stem name)
    exact ⟨short, hshort, Path.defaultOutput_of_stemOf hname hshort⟩
  · intro others other hothers hother hplain hplainOther hsame
    rw [output_of_none hothers, (Path.defaultOutput_eq_iff_plain hname).mpr hplain,
      (Path.defaultOutput_eq_iff_plain hother).mpr hplainOther, ← Path.ofList_append_image,
      ← Path.ofList_append_image, String.ofList_inj] at hsame
    exact List.append_cancel_right hsame

theorem output_exact_hidden_name :
    Path.fileName? "../a.b/.prog.s//." = some ".prog.s".toList ∧
    ({ input? := some "../a.b/.prog.s//." } : Arguments).output = ".prog.mif" ∧
    ({ input? := some "../a.b/.prog.s//." } : Arguments).output ≠
      ({ input? := some "prog.s" } : Arguments).output := by
  have hname : Path.fileName? "../a.b/.prog.s//." = some ".prog.s".toList := by decide +kernel
  have hother : Path.fileName? "prog.s" = some "prog.s".toList := by decide +kernel
  have hstem : Path.stem ".prog.s".toList = ".prog".toList := by decide +kernel
  have hotherStem : Path.stem "prog.s".toList = "prog".toList := by decide +kernel
  have hplain : Path.Plain ".prog".toList := ⟨by decide, by decide⟩
  have hopen : ({ input? := some "../a.b/.prog.s//." } : Arguments).output? = none := rfl
  obtain ⟨-, -, -, houtput, -, hsame⟩ := output_exact hopen hname
  rw [hstem] at houtput hsame
  refine ⟨hname, houtput.mpr hplain, ?_⟩
  intro heq
  have hstems := hsame { input? := some "prog.s" } _ rfl hother hplain
    (by rw [hotherStem]; exact ⟨by decide, by decide⟩) heq
  rw [hotherStem] at hstems
  exact absurd hstems (by decide)

/-- Not every image has the stem of its input, and inputs with different stems may share one:
`a.b.s` and `a.c.s` are both written to `a.mif`. -/
theorem output_of_two_extensions :
    (¬∀ (arguments : Arguments) (name stem : List Char), arguments.output? = none →
      Path.LeadsTo arguments.input name → Path.StemOf name stem →
      arguments.output = String.ofList stem ++ ".mif") ∧
    ¬∀ (arguments others : Arguments) (name other stem otherStem : List Char),
      arguments.output? = none → others.output? = none →
      Path.LeadsTo arguments.input name → Path.LeadsTo others.input other →
      Path.StemOf name stem → Path.StemOf other otherStem → stem ≠ otherStem →
      arguments.output ≠ others.output := by
  have hleads : Path.LeadsTo "a.b.s" "a.b.s".toList :=
    Path.fileName?_eq_some_iff.mp (by decide +kernel)
  have hothers : Path.LeadsTo "a.c.s" "a.c.s".toList :=
    Path.fileName?_eq_some_iff.mp (by decide +kernel)
  have hstem : Path.StemOf "a.b.s".toList "a.b".toList :=
    Or.inr ⟨['s'], rfl, by decide, by decide⟩
  have hotherStem : Path.StemOf "a.c.s".toList "a.c".toList :=
    Or.inr ⟨['s'], rfl, by decide, by decide⟩
  constructor
  · intro hall
    have houtput := hall { input? := some "a.b.s" } _ _ rfl hleads hstem
    exact absurd houtput (by decide +kernel)
  · intro hall
    have hdiffer := hall { input? := some "a.b.s" } { input? := some "a.c.s" } _ _ _ _ rfl rfl
      hleads hothers hstem hotherStem (by decide)
    exact absurd (by decide +kernel) hdiffer

end Arguments

end WordAssembler
