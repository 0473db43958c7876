import WordAssembler.Proofs.Grammar

/-!
# The grammar of lines

Reading a line cuts it at its first semicolon, trims it, cuts it at its first colon and trims both
sides again. The grammar says what a line is put together from: a label, a colon, the code and a
comment, with blanks anywhere between them. Neither a colon nor a semicolon is blank, so trimming
first moves no cut, and the two sides of the colon can be taken from the line as it stands.
-/

namespace WordAssembler

open Text

def ReservedSpelling (name : String) : Prop :=
  (∃ m : Mnemonic, name ∈ m.spellings) ∨ ∃ r : Register, name ∈ r.spellings

theorem isReserved_iff {name : String} : isReserved name ↔ ReservedSpelling name := by
  simp only [isReserved, ReservedSpelling, Bool.or_eq_true, Option.isSome_iff_exists,
    Mnemonic.ofSpelling?_eq_some_iff, Register.ofSpelling?_eq_some_iff]

theorem Register.isIdentifier_of_mem_spellings {spelling : String} {r : Register}
    (hspelling : spelling ∈ r.spellings) : isIdentifier spelling := by
  have hall : ∀ spelling ∈ r.spellings, isIdentifier spelling := by cases r <;> decide
  exact hall spelling hspelling

theorem ReservedSpelling.isIdentifier {name : String} (hreserved : ReservedSpelling name) :
    isIdentifier name := by
  rcases hreserved with ⟨m, hspelling⟩ | ⟨r, hspelling⟩
  · exact Mnemonic.isIdentifier_of_mem_spellings hspelling
  · exact Register.isIdentifier_of_mem_spellings hspelling

/-! ### Trimming around a character that is not blank -/

namespace Text

variable {c : Char} {front back cs : List Char}

theorem dropBlanks_append_cons (hc : isBlank c = false) :
    dropBlanks (front ++ c :: back) = dropBlanks front ++ c :: back := by
  have hcons : (c :: back).dropWhile isBlank = c :: back := by simp [hc]
  unfold dropBlanks
  rw [List.dropWhile_append, hcons]
  split_ifs with hempty
  · rw [List.isEmpty_iff.mp hempty, List.nil_append]
  · rfl

theorem dropTrailingBlanks_append_cons (hc : isBlank c = false) :
    dropTrailingBlanks (front ++ c :: back) = front ++ c :: dropTrailingBlanks back := by
  have hreverse : (front ++ c :: back).reverse = back.reverse ++ c :: front.reverse := by simp
  unfold dropTrailingBlanks
  rw [hreverse, dropBlanks_append_cons hc]
  simp

/-- A solid character in the middle splits trimming into its two sides. -/
theorem trim_append_cons (hc : isBlank c = false) :
    trim (front ++ c :: back) = dropBlanks front ++ c :: dropTrailingBlanks back := by
  rw [trim, dropBlanks_append_cons hc, dropTrailingBlanks_append_cons hc]

theorem trim_dropBlanks (cs : List Char) : trim (dropBlanks cs) = trim cs := by
  rw [trim, trim, dropBlanks, dropBlanks, List.dropWhile_idempotent]

theorem trim_dropTrailingBlanks (cs : List Char) : trim (dropTrailingBlanks cs) = trim cs := by
  have hback : Blanks (cs.rtakeWhile isBlank) := fun c hc => List.mem_rtakeWhile_imp hc
  calc trim (dropTrailingBlanks cs)
      = trim (dropTrailingBlanks cs ++ cs.rtakeWhile isBlank) := (trim_append_blanks hback).symm
    _ = trim cs := by rw [dropTrailingBlanks_eq, List.rdropWhile_append_rtakeWhile]

theorem mem_of_mem_dropBlanks (hc : c ∈ dropBlanks cs) : c ∈ cs :=
  List.dropWhile_subset isBlank hc

end Text

namespace LineContent

open Operation

/-! ### Forms of a line -/

def Commented (text : String) (part : List Char) : Prop :=
  text.toList = part ∨ ∃ comment, text.toList = part ++ ';' :: comment

structure CommentFree (text : String) (part : List Char) : Prop where
  commented : Commented text part
  no_semicolon : ';' ∉ part

/-- Holds of a line without a colon before its comment, and of the code that is left when blanks
at both ends are taken off. -/
def HoldsCode (text code : String) : Prop :=
  ∃ part, CommentFree text part ∧ ':' ∉ part ∧ Trimmed code.toList ∧ Pads code part

/-- Holds of a line that is put together from a label, a colon and a code, each with blanks around
it, and perhaps a comment. -/
structure HoldsLabel (text name code : String) : Prop where
  written : ∃ left right, Pads name left ∧ Pads code right ∧ Commented text (left ++ ':' :: right)
  isIdentifier_name : isIdentifier name
  not_reserved : ¬ReservedSpelling name
  no_colon : ':' ∉ code.toList
  no_semicolon : ';' ∉ code.toList
  trimmed : Trimmed code.toList

/-- Holds of a line with a reserved spelling, and blanks at most, before the first colon that
stands outside its comment. -/
def HoldsReserved (text name : String) : Prop :=
  ReservedSpelling name ∧ ∃ left right, CommentFree text (left ++ ':' :: right) ∧ ':' ∉ left ∧
    Pads name left

section Forms

variable {text name code : String} {part left right : List Char}

/-- Every line has a part in front of its comment. -/
theorem exists_commentFree (text : String) : ∃ part, CommentFree text part := by
  by_cases hsemicolon : ';' ∈ text.toList
  · obtain ⟨part, comment, htext, hpart⟩ := List.eq_append_cons_of_mem hsemicolon
    exact ⟨part, Or.inr ⟨comment, htext⟩, hpart⟩
  · exact ⟨text.toList, Or.inl rfl, hsemicolon⟩

/-- A line has a colon outside its comment, or it has none. -/
theorem commentFree_cases (text : String) :
    (∃ part, CommentFree text part ∧ ':' ∉ part) ∨
      ∃ left right, CommentFree text (left ++ ':' :: right) ∧ ':' ∉ left := by
  obtain ⟨part, hpart⟩ := exists_commentFree text
  by_cases hcolon : ':' ∈ part
  · obtain ⟨left, right, rfl, hleft⟩ := List.eq_append_cons_of_mem hcolon
    exact Or.inr ⟨left, right, hpart, hleft⟩
  · exact Or.inl ⟨part, hpart, hcolon⟩

theorem CommentFree.before_eq (hpart : CommentFree text part) :
    before (· == ';') text.toList = part := by
  have hself := before_eq_self (beq_eq_false_of_not_mem hpart.no_semicolon)
  rcases hpart.commented with htext | ⟨comment, htext⟩
  · rw [htext, hself]
  · rw [htext, before_append_cons (p := (· == ';')) (beq_self_eq_true ';'), hself]

/-- Of a line only the part in front of its comment is read, trimmed. -/
theorem CommentFree.body_eq (hpart : CommentFree text part) : body text = trim part := by
  rw [body, hpart.before_eq]

/-! ### Reading by form -/

theorem CommentFree.ofText_of_no_colon (hpart : CommentFree text part) (hcolon : ':' ∉ part) :
    ofText text = .ok ⟨none, String.ofList (trim part)⟩ := by
  have hbody : ':' ∉ body text := by
    rw [hpart.body_eq]
    exact fun hmem => hcolon (mem_of_mem_trim hmem)
  rw [LineContent.ofText_of_no_colon hbody, hpart.body_eq]

/-- The two sides of the colon are read as they stand in the line. -/
theorem CommentFree.ofText_of_colon (hpart : CommentFree text (left ++ ':' :: right))
    (hleft : ':' ∉ left) :
    ofText text =
      if !isIdentifier (String.ofList (trim left)) then .error .malformedLine
      else if isReserved (String.ofList (trim left)) then
        .error (.reservedLabel (String.ofList (trim left)))
      else if (trim right).contains ':' then .error .malformedLine
      else .ok ⟨some (String.ofList (trim left)), String.ofList (trim right)⟩ := by
  have hbody : body text = dropBlanks left ++ ':' :: dropTrailingBlanks right := by
    rw [hpart.body_eq, trim_append_cons (by decide)]
  have hbefore : ':' ∉ dropBlanks left := fun hmem => hleft (mem_of_mem_dropBlanks hmem)
  rw [LineContent.ofText_of_colon hbody hbefore, trim_dropBlanks, trim_dropTrailingBlanks]

theorem ofText_eq_code_iff : ofText text = .ok ⟨none, code⟩ ↔ HoldsCode text code := by
  constructor
  · intro hread
    rcases commentFree_cases text with ⟨part, hpart, hcolon⟩ | ⟨left, right, hpart, hleft⟩
    · rw [hpart.ofText_of_no_colon hcolon] at hread
      cases hread
      exact ⟨part, hpart, hcolon, trim_eq_iff.mp (by simp)⟩
    · rw [hpart.ofText_of_colon hleft] at hread
      split_ifs at hread
      cases hread
  · rintro ⟨part, hpart, hcolon, hcode⟩
    rw [hpart.ofText_of_no_colon hcolon, trim_eq_iff.mpr hcode, String.ofList_toList]

theorem HoldsLabel.commentFree (hlabel : HoldsLabel text name code) :
    ∃ left right, CommentFree text (left ++ ':' :: right) ∧ ':' ∉ left ∧
      trim left = name.toList ∧ trim right = code.toList := by
  obtain ⟨left, right, hname, hcode, hcommented⟩ := hlabel.written
  have hidentifier := hlabel.isIdentifier_name
  have hleft : ∀ c, isIdentifierChar c = false → isBlank c = false → c ∉ left :=
    fun c hc hblank => not_mem_of_pads hblank (not_mem_of_isIdentifier hidentifier hc) hname
  have hright : ';' ∉ right := not_mem_of_pads (by decide) hlabel.no_semicolon hcode
  refine ⟨left, right, ⟨hcommented, ?_⟩, hleft ':' (by decide) (by decide), ?_, ?_⟩
  · simp [hleft ';' (by decide) (by decide), hright]
  · exact trim_eq_iff.mpr ⟨trimmed_of_isIdentifier hidentifier, hname⟩
  · exact trim_eq_iff.mpr ⟨hlabel.trimmed, hcode⟩

theorem ofText_eq_label_iff :
    ofText text = .ok ⟨some name, code⟩ ↔ HoldsLabel text name code := by
  constructor
  · intro hread
    rcases commentFree_cases text with ⟨part, hpart, hcolon⟩ | ⟨left, right, hpart, hleft⟩
    · rw [hpart.ofText_of_no_colon hcolon] at hread
      cases hread
    · rw [hpart.ofText_of_colon hleft] at hread
      split_ifs at hread with hidentifier hreserved hcolons
      cases hread
      have hsemicolon : ';' ∉ trim right := by
        intro hmem
        apply hpart.no_semicolon
        simp [mem_of_mem_trim hmem]
      exact
        { written := ⟨left, right, (trim_eq_iff.mp (by simp)).2, (trim_eq_iff.mp (by simp)).2,
            hpart.commented⟩
          isIdentifier_name := by simpa using hidentifier
          not_reserved := by rwa [← isReserved_iff]
          no_colon := by simpa using hcolons
          no_semicolon := by simpa using hsemicolon
          trimmed := by simpa using trimmed_trim right }
  · intro hlabel
    obtain ⟨left, right, hpart, hleft, hname, hcode⟩ := hlabel.commentFree
    rw [hpart.ofText_of_colon hleft, hname, hcode]
    simp [hlabel.isIdentifier_name, hlabel.no_colon, isReserved_iff, hlabel.not_reserved]

theorem ofText_eq_reserved_iff :
    ofText text = .error (.reservedLabel name) ↔ HoldsReserved text name := by
  constructor
  · intro hread
    rcases commentFree_cases text with ⟨part, hpart, hcolon⟩ | ⟨left, right, hpart, hleft⟩
    · rw [hpart.ofText_of_no_colon hcolon] at hread
      cases hread
    · rw [hpart.ofText_of_colon hleft] at hread
      split_ifs at hread with hidentifier hreserved hcolons
      · cases hread
      · cases hread
        exact ⟨isReserved_iff.mp hreserved, left, right, hpart, hleft,
          (trim_eq_iff.mp (by simp)).2⟩
      · cases hread
  · rintro ⟨hreserved, left, right, hpart, hleft, hname⟩
    have htrimmed := trimmed_of_isIdentifier hreserved.isIdentifier
    rw [hpart.ofText_of_colon hleft, trim_eq_iff.mpr ⟨htrimmed, hname⟩]
    simp [hreserved.isIdentifier, isReserved_iff.mpr hreserved]

/-- A line can be refused for two reasons only. -/
theorem fault_of_ofText {fault : Fault} (hread : ofText text = .error fault) :
    fault = .malformedLine ∨ ∃ name, fault = .reservedLabel name := by
  rcases commentFree_cases text with ⟨part, hpart, hcolon⟩ | ⟨left, right, hpart, hleft⟩
  · rw [hpart.ofText_of_no_colon hcolon] at hread
    cases hread
  · rw [hpart.ofText_of_colon hleft] at hread
    split_ifs at hread <;> cases hread
    · exact Or.inl rfl
    · exact Or.inr ⟨_, rfl⟩
    · exact Or.inl rfl

end Forms

/-- **Lines.** A line is read as code exactly where it holds code alone, as a label with code
exactly where it is put together from the two, and is refused for a reserved label exactly where one
stands before its first colon, whatever follows. A line of any other form is malformed. -/
theorem ofText_exact (text : String) :
    (∀ code, ofText text = .ok ⟨none, code⟩ ↔ HoldsCode text code) ∧
    (∀ name code, ofText text = .ok ⟨some name, code⟩ ↔ HoldsLabel text name code) ∧
    (∀ name, ofText text = .error (.reservedLabel name) ↔ HoldsReserved text name) ∧
    (ofText text = .error .malformedLine ↔ (∀ code, ¬HoldsCode text code) ∧
      (∀ name code, ¬HoldsLabel text name code) ∧ ∀ name, ¬HoldsReserved text name) := by
  refine ⟨fun code => ofText_eq_code_iff, fun name code => ofText_eq_label_iff,
    fun name => ofText_eq_reserved_iff, ?_⟩
  simp only [← ofText_eq_code_iff, ← ofText_eq_label_iff, ← ofText_eq_reserved_iff]
  constructor
  · intro hread
    simp [hread]
  · rintro ⟨hcode, hlabel, hreserved⟩
    cases hread : ofText text with
    | ok content =>
        obtain ⟨label, code⟩ := content
        cases label with
        | none => exact absurd hread (hcode code)
        | some name => exact absurd hread (hlabel name code)
    | error fault =>
        rcases fault_of_ofText hread with rfl | ⟨name, rfl⟩
        · rfl
        · exact absurd hread (hreserved name)

example : ofText "\u00a0end-of_2\t:\u2003; a: b" = .ok ⟨some "end-of_2", ""⟩ ∧
    ofText " stop ; a: b; c" = .ok ⟨none, "stop"⟩ ∧
    ofText "sp : a: nop" = .error (.reservedLabel "sp") ∧
    ofText "a: b: nop" = .error .malformedLine ∧
    ofText "a.b: nop" = .error .malformedLine := by decide +kernel

end LineContent

end WordAssembler
