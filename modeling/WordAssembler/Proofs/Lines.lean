import WordAssembler.Source.SourceLine

/-!
# Lines of a text put together from two

A text that ends in a line feed has all its lines ended, so the lines of another text can be put
below it without changing them. Only their numbers move.
-/

namespace WordAssembler

namespace Text

theorem lines_append_newline (text below : List Char) :
    lines (text ++ '\n' :: below) = (text.splitOn '\n').map dropReturn ++ lines below := by
  have hbelow : below.splitOn '\n' ≠ [] := List.splitOn_ne_nil '\n' below
  have hlast : (text.splitOn '\n' ++ below.splitOn '\n').getLast? =
      (below.splitOn '\n').getLast? := by
    rw [List.getLast?_append, List.getLast?_eq_some_getLast hbelow, Option.some_or]
  unfold lines
  simp only [List.splitOn_append_cons_self, List.dropLast_append_of_ne_nil hbelow, hlast,
    List.map_append, List.append_assoc]

/-- Behind a line feed nothing of the lines above is seen. -/
theorem lines_append {text : List Char} (hend : text = [] ∨ ∃ body, text = body ++ ['\n'])
    (below : List Char) : lines (text ++ below) = lines text ++ lines below := by
  rcases hend with rfl | ⟨body, rfl⟩
  · rfl
  · have hnil : lines [] = [] := by decide
    rw [List.append_assoc, List.singleton_append, lines_append_newline, lines_append_newline,
      hnil, List.append_nil]

/-! ### Texts put together from their lines -/

def rawLines (text : String) : List String :=
  (text.toList.splitOn '\n').map String.ofList

theorem rawLines_cons {line : String} (hline : '\n' ∉ line.toList) (below : String) :
    rawLines (line ++ "\n" ++ below) = line :: rawLines below := by
  have hchars : (line ++ "\n" ++ below).toList = line.toList ++ '\n' :: below.toList := by simp
  rw [rawLines, hchars, List.splitOn_append_cons_self_of_not_mem hline, List.map_cons,
    String.ofList_toList, rawLines]

/-- Lines that are each ended by a line feed are followed by an empty one. -/
theorem rawLines_of_ended {lines : List String} (hlines : ∀ line ∈ lines, '\n' ∉ line.toList) :
    rawLines (String.join (lines.map (· ++ "\n"))) = lines ++ [""] := by
  induction lines with
  | nil => decide
  | cons line lines ih =>
      rw [List.forall_mem_cons] at hlines
      rw [List.map_cons, String.join_cons, rawLines_cons hlines.1, ih hlines.2, List.cons_append]

theorem rawLines_intercalate {lines : List String} (hlines : ∀ line ∈ lines, '\n' ∉ line.toList)
    (hne : lines ≠ []) : rawLines ("\n".intercalate lines) = lines := by
  have hpieces : ∀ piece ∈ lines.map String.toList, '\n' ∉ piece := by simpa using hlines
  have hsplit := List.splitOn_intercalate '\n' hpieces (by simpa using hne)
  have hfeed : "\n".toList = ['\n'] := rfl
  rw [rawLines, String.toList_intercalate, hfeed, hsplit, List.map_map]
  simp [Function.comp_def]

end Text

namespace SourceLine

def below (count : Nat) (line : SourceLine) : SourceLine :=
  { line with number := line.number + count }

theorem numbered_append {source : String} (hend : source = "" ∨ ∃ body, source = body ++ "\n")
    (rest : String) : numbered (source ++ rest) =
      numbered source ++ (numbered rest).map (below (numbered source).length) := by
  have hchars : source.toList = [] ∨ ∃ body, source.toList = body ++ ['\n'] := by
    rcases hend with rfl | ⟨body, rfl⟩
    · exact Or.inl rfl
    · exact Or.inr ⟨body.toList, by simp⟩
  unfold numbered
  rw [String.toList_append, Text.lines_append hchars, List.zipIdx_append, List.map_append,
    List.length_map, List.length_zipIdx]
  refine congrArg (_ ++ ·) ?_
  rw [List.map_map, Nat.add_comm 1, ← List.map_snd_add_zipIdx_eq_zipIdx, List.map_map]
  apply List.map_congr_left
  rintro ⟨text, number⟩ _
  rfl

/-- The lines of a text put below another keep their order and are counted on from it. -/
theorem kept_append {source : String} (hend : source = "" ∨ ∃ body, source = body ++ "\n")
    (rest : String) : kept (source ++ rest) =
      kept source ++ (kept rest).map (below (numbered source).length) := by
  unfold kept
  rw [numbered_append hend, List.filter_append, List.filter_map]
  rfl

end SourceLine

end WordAssembler
