import Mathlib.Data.List.DropRight
import Mathlib.Data.List.TakeWhile
import WordAssembler.Text.Blank
import WordAssembler.Text.Cut

/-!
# Trimming and cutting

A field and the blanks around it can be told apart in one way only, so trimming undoes any padding
and leaves a trimmed field alone. A text is cut at its first separator, so what comes behind that
separator does not change what stands before it.
-/

namespace WordAssembler.Text

def Blanks (cs : List Char) : Prop :=
  ∀ c ∈ cs, isBlank c

structure Trimmed (cs : List Char) : Prop where
  head_solid : ∀ c, cs.head? = some c → isBlank c = false
  last_solid : ∀ c, cs.getLast? = some c → isBlank c = false

variable {cs front back : List Char}

theorem dropTrailingBlanks_eq : dropTrailingBlanks = List.rdropWhile isBlank :=
  rfl

theorem isBlank_head_dropBlanks {c : Char} (hc : (dropBlanks cs).head? = some c) :
    isBlank c = false := by
  have hhead := List.head?_dropWhile_not isBlank cs
  rw [dropBlanks] at hc
  simpa [hc] using hhead

theorem trim_eq_nil_iff : trim cs = [] ↔ Blanks cs := by
  rw [trim, dropTrailingBlanks_eq, List.rdropWhile_eq_nil_iff]
  constructor
  · intro hdropped
    -- What is left of the blanks in front starts with a character that is not blank.
    have hnil : dropBlanks cs = [] := by
      cases hcs : dropBlanks cs with
      | nil => rfl
      | cons c rest =>
          have hblank := hdropped c (by simp [hcs])
          rw [isBlank_head_dropBlanks (by rw [hcs]; rfl)] at hblank
          cases hblank
    exact List.dropWhile_eq_nil_iff.mp hnil
  · intro hblanks c hc
    exact hblanks c (List.dropWhile_subset isBlank hc)

theorem trim_blanks_append (hfront : Blanks front) : trim (front ++ cs) = trim cs := by
  rw [trim, dropBlanks, List.dropWhile_append_of_pos hfront]
  rfl

theorem dropTrailingBlanks_append (hback : Blanks back) :
    dropTrailingBlanks (cs ++ back) = dropTrailingBlanks cs := by
  have hreverse : ∀ c ∈ back.reverse, isBlank c := by
    intro c hc
    exact hback c (List.mem_reverse.mp hc)
  rw [dropTrailingBlanks, dropBlanks, List.reverse_append, List.dropWhile_append_of_pos hreverse]
  rfl

theorem trim_append_blanks (hback : Blanks back) : trim (cs ++ back) = trim cs := by
  by_cases hcs : Blanks cs
  · have hboth : Blanks (cs ++ back) := by
      intro c hc
      rcases List.mem_append.mp hc with hc | hc
      · exact hcs c hc
      · exact hback c hc
    rw [trim_eq_nil_iff.mpr hcs, trim_eq_nil_iff.mpr hboth]
  · have hne : (cs.dropWhile isBlank).isEmpty = false := by
      rw [List.isEmpty_eq_false_iff]
      exact fun hnil => hcs (List.dropWhile_eq_nil_iff.mp hnil)
    have hdrop : dropBlanks (cs ++ back) = dropBlanks cs ++ back := by
      rw [dropBlanks, List.dropWhile_append, hne]
      rfl
    rw [trim, hdrop, dropTrailingBlanks_append hback]
    rfl

theorem trim_of_trimmed (htrimmed : Trimmed cs) : trim cs = cs := by
  have hfront : dropBlanks cs = cs := by
    cases cs with
    | nil => rfl
    | cons c rest => simp [dropBlanks, htrimmed.head_solid c rfl]
  rw [trim, hfront, dropTrailingBlanks_eq, List.rdropWhile_eq_self_iff]
  intro hne
  rw [htrimmed.last_solid _ (List.getLast?_eq_some_getLast hne)]
  exact Bool.false_ne_true

/-- Trimming takes blanks from the two ends and nothing else. -/
theorem exists_eq_append_trim (cs : List Char) :
    ∃ front back, Blanks front ∧ Blanks back ∧ cs = front ++ trim cs ++ back := by
  refine ⟨cs.takeWhile isBlank, (dropBlanks cs).rtakeWhile isBlank, ?_, ?_, ?_⟩
  · intro c hc
    exact List.mem_takeWhile_imp hc
  · intro c hc
    exact List.mem_rtakeWhile_imp hc
  · rw [trim, dropTrailingBlanks_eq, List.append_assoc, List.rdropWhile_append_rtakeWhile,
      dropBlanks, List.takeWhile_append_dropWhile]

theorem mem_of_mem_trim {c : Char} (hc : c ∈ trim cs) : c ∈ cs := by
  obtain ⟨front, back, -, -, hsplit⟩ := exists_eq_append_trim cs
  rw [hsplit]
  simp [hc]

theorem trimmed_trim (cs : List Char) : Trimmed (trim cs) where
  head_solid := by
    intro c hc
    have hsplit : trim cs ++ (dropBlanks cs).rtakeWhile isBlank = dropBlanks cs :=
      List.rdropWhile_append_rtakeWhile
    have hhead : (dropBlanks cs).head? = some c := by
      rw [← hsplit, List.head?_append, hc, Option.some_or]
    exact isBlank_head_dropBlanks hhead
  last_solid := by
    intro c hc
    have hne : trim cs ≠ [] := by
      intro hnil
      simp [hnil] at hc
    have hlast := List.rdropWhile_last_not isBlank (dropBlanks cs) hne
    rw [List.getLast?_eq_some_getLast hne, Option.some.injEq] at hc
    rw [← hc]
    exact Bool.eq_false_iff.mpr hlast

/-- Only the ends of a field decide whether it is trimmed. -/
theorem Trimmed.between {first last : List Char} (hfirst : Trimmed first) (hfirstNe : first ≠ [])
    (hlast : Trimmed last) (hlastNe : last ≠ []) (middle : List Char) :
    Trimmed (first ++ middle ++ last) where
  head_solid := by
    intro c hc
    apply hfirst.head_solid
    rwa [List.append_assoc, List.head?_append_of_ne_nil _ hfirstNe] at hc
  last_solid := by
    intro c hc
    apply hlast.last_solid
    rwa [List.getLast?_append_of_ne_nil _ hlastNe] at hc

/-! ### Cutting -/

variable {p : Char → Bool} {after : List Char} {separator : Char}

theorem beq_eq_false_of_not_mem (hnone : separator ∉ cs) : ∀ c ∈ cs, (c == separator) = false := by
  intro c hc
  rw [beq_eq_false_iff_ne]
  rintro rfl
  exact hnone hc

theorem before_eq_self (hnone : ∀ c ∈ cs, p c = false) : before p cs = cs := by
  rw [before, List.takeWhile_eq_self_iff]
  intro c hc
  rw [hnone c hc]
  rfl

/-- What stands before the first separator is not changed by what is put behind one. -/
theorem before_append_cons (hseparator : p separator) :
    before p (cs ++ separator :: after) = before p cs := by
  rw [before, List.takeWhile_append]
  split_ifs with hlength
  · rw [List.takeWhile_cons_of_neg (by simp [hseparator]), List.append_nil]
    exact (List.takeWhile_sublist _).eq_of_length hlength |>.symm
  · rfl

theorem cutAt?_eq_none_iff : cutAt? p cs = none ↔ ∀ c ∈ cs, p c = false := by
  have hnil : cutAt? p cs = none ↔ cs.dropWhile (!p ·) = [] := by
    unfold cutAt?
    split <;> simp_all
  rw [hnil, List.dropWhile_eq_nil_iff]
  simp

/-- A cut is made at the first separator: none stands in front of it. -/
theorem cutAt?_eq_some_iff : cutAt? p cs = some (front, after) ↔
    ∃ separator, p separator ∧ cs = front ++ separator :: after ∧ ∀ c ∈ front, p c = false := by
  constructor
  · intro hcut
    unfold cutAt? at hcut
    split at hcut
    · cases hcut
    · rename_i separator rest hdrop
      cases hcut
      have hseparator := List.head?_dropWhile_not (!p ·) cs
      have hsplit := List.takeWhile_append_dropWhile (p := (!p ·)) (l := cs)
      rw [hdrop] at hseparator hsplit
      refine ⟨separator, by simpa using hseparator, hsplit.symm, ?_⟩
      intro c hc
      simpa using List.mem_takeWhile_imp hc
  · rintro ⟨separator, hseparator, rfl, hfront⟩
    have hsolid : ∀ c ∈ front, (!p c) = true := by simpa using hfront
    rw [cutAt?, List.dropWhile_append_of_pos hsolid, List.takeWhile_append_of_pos hsolid]
    simp [hseparator]

end WordAssembler.Text
