import WordAssembler.Proofs.Blanks
import WordAssembler.Source.LineContent
import WordAssembler.Source.SourceLine

/-!
# What reading a line depends on

Of a line only its body is read: the text up to the comment, trimmed. Blanks at the ends of the line
and a comment behind it therefore change nothing, and a label and the code that follows it can be
read from two lines as well as from one.
-/

namespace WordAssembler

open Text

theorem toNat_of_isIdentifierChar {c : Char} (hc : isIdentifierChar c) :
    45 ≤ c.toNat ∧ c.toNat ≤ 122 := by
  delta isIdentifierChar Char.isAlphanum Char.isAlpha Char.isUpper Char.isLower Char.isDigit at hc
  simp only [ge_iff_le, UInt32.le_iff_toNat_le, Bool.or_eq_true, Bool.and_eq_true,
    decide_eq_true_eq, beq_iff_eq] at hc
  change ((((65 ≤ c.toNat ∧ c.toNat ≤ 90) ∨ (97 ≤ c.toNat ∧ c.toNat ≤ 122)) ∨
    (48 ≤ c.toNat ∧ c.toNat ≤ 57)) ∨ c = '_') ∨ c = '-' at hc
  rcases hc with (hc | rfl) | rfl
  · omega
  · decide
  · decide

theorem isIdentifier_iff {name : String} :
    isIdentifier name ↔ name.toList ≠ [] ∧ ∀ c ∈ name.toList, isIdentifierChar c := by
  rw [isIdentifier, Bool.and_eq_true, bne_iff_ne, List.all_eq_true, ne_eq, ne_eq,
    String.toList_eq_nil_iff]

theorem isIdentifier_append {front back : String} (hfront : isIdentifier front)
    (hback : isIdentifier back) : isIdentifier (front ++ back) := by
  rw [isIdentifier_iff] at hfront hback ⊢
  rw [String.toList_append, List.forall_mem_append]
  exact ⟨List.append_ne_nil_of_left_ne_nil hfront.1 _, hfront.2, hback.2⟩

theorem isBlank_of_isIdentifierChar {c : Char} (hc : isIdentifierChar c) : isBlank c = false := by
  obtain ⟨hleast, hgreatest⟩ := toNat_of_isIdentifierChar hc
  simp only [isBlank, blankRanges, List.any_cons, List.any_nil, Bool.or_false, Bool.or_eq_false_iff,
    Bool.and_eq_false_iff, decide_eq_false_iff_not]
  omega

namespace LineContent

theorem ofText_congr {text other : String} (hbody : body text = body other) :
    ofText text = ofText other := by
  unfold ofText
  rw [hbody]

/-! ### The body of a line -/

theorem body_append_comment (text comment : String) :
    body (text ++ ";" ++ comment) = body text := by
  have htoList : (text ++ ";" ++ comment).toList = text.toList ++ ';' :: comment.toList := by simp
  rw [body, htoList, before_append_cons (p := (· == ';')) (beq_self_eq_true ';'), body]

theorem no_semicolon_of_blanks {cs : List Char} (hblanks : Blanks cs) :
    ∀ c ∈ cs, (c == ';') = false := by
  apply beq_eq_false_of_not_mem
  intro hsemicolon
  exact absurd (hblanks ';' hsemicolon) (by decide)

theorem body_of_blanks {text : String} (hblanks : Blanks text.toList) : body text = [] := by
  rw [body, before_eq_self (no_semicolon_of_blanks hblanks), trim_eq_nil_iff]
  exact hblanks

/-- Blanks behind a comment are part of the comment. Where there is none they are trimmed, so the
body is the same in both cases. -/
theorem body_pad {front back : String} (hfront : Blanks front.toList) (hback : Blanks back.toList)
    (text : String) : body (front ++ text ++ back) = body text := by
  have hfrontSolid := no_semicolon_of_blanks hfront
  have hbackSolid := no_semicolon_of_blanks hback
  rw [body, body, String.toList_append, String.toList_append]
  cases hcut : cutAt? (· == ';') text.toList with
  | none =>
      have htext := cutAt?_eq_none_iff.mp hcut
      have hall : ∀ c ∈ front.toList ++ text.toList ++ back.toList, (c == ';') = false := by
        simp only [List.forall_mem_append]
        exact ⟨⟨hfrontSolid, htext⟩, hbackSolid⟩
      rw [before_eq_self hall, before_eq_self htext, trim_append_blanks hback,
        trim_blanks_append hfront]
  | some parts =>
      obtain ⟨code, comment⟩ := parts
      obtain ⟨separator, hseparator, htext, hcode⟩ := cutAt?_eq_some_iff.mp hcut
      have hall : ∀ c ∈ front.toList ++ code, (c == ';') = false := by
        rw [List.forall_mem_append]
        exact ⟨hfrontSolid, hcode⟩
      have hregroup : front.toList ++ (code ++ separator :: comment) ++ back.toList =
          (front.toList ++ code) ++ separator :: (comment ++ back.toList) := by simp
      rw [htext, hregroup, before_append_cons (p := (· == ';')) hseparator,
        before_append_cons (p := (· == ';')) hseparator, before_eq_self hall,
        before_eq_self hcode, trim_blanks_append hfront]

theorem body_of_no_comment {text : String} (hcomment : ';' ∉ text.toList) :
    body text = trim text.toList := by
  rw [body, before_eq_self (beq_eq_false_of_not_mem hcomment)]

theorem body_of_trimmed {text : String} (htrimmed : Trimmed text.toList)
    (hcomment : ';' ∉ text.toList) : body text = text.toList := by
  rw [body_of_no_comment hcomment, trim_of_trimmed htrimmed]

theorem semicolon_not_mem_body (text : String) : ';' ∉ body text := by
  intro hmem
  have hbefore := List.mem_takeWhile_imp (mem_of_mem_trim hmem)
  simp at hbefore

/-! ### Label and code -/

theorem ofText_of_no_colon {text : String} (hcolon : ':' ∉ body text) :
    ofText text = .ok ⟨none, String.ofList (body text)⟩ := by
  have hcut : cutAt? (· == ':') (body text) = none :=
    cutAt?_eq_none_iff.mpr (beq_eq_false_of_not_mem hcolon)
  simp only [ofText, hcut]

/-- The checks on a line with a label, in the order in which they are made. -/
theorem ofText_of_colon {text : String} {before after : List Char}
    (hbody : body text = before ++ ':' :: after) (hbefore : ':' ∉ before) :
    ofText text =
      if !isIdentifier (String.ofList (trim before)) then .error .malformedLine
      else if isReserved (String.ofList (trim before)) then
        .error (.reservedLabel (String.ofList (trim before)))
      else if (trim after).contains ':' then .error .malformedLine
      else .ok ⟨some (String.ofList (trim before)), String.ofList (trim after)⟩ := by
  have hcut : cutAt? (· == ':') (body text) = some (before, after) :=
    cutAt?_eq_some_iff.mpr ⟨':', by decide, hbody, beq_eq_false_of_not_mem hbefore⟩
  simp only [ofText, hcut]

structure Labelled (body : List Char) (name code : String) : Prop where
  split : ∃ before after, body = before ++ ':' :: after ∧ ':' ∉ before ∧
    trim before = name.toList ∧ trim after = code.toList
  isIdentifier_name : isIdentifier name
  not_reserved : isReserved name = false
  no_colon : ':' ∉ code.toList

/-- A line is read as a label and code exactly where its body is cut that way and all checks pass.
-/
theorem ofText_eq_labelled_iff {text name code : String} :
    ofText text = .ok ⟨some name, code⟩ ↔ Labelled (body text) name code := by
  constructor
  · intro htext
    by_cases hcolon : ':' ∈ body text
    · obtain ⟨before, after, hbody, hbefore⟩ := List.eq_append_cons_of_mem hcolon
      rw [ofText_of_colon hbody hbefore] at htext
      split_ifs at htext with hidentifier hreserved hcolons
      cases htext
      exact
        { split := ⟨before, after, hbody, hbefore, by simp, by simp⟩
          isIdentifier_name := by simpa using hidentifier
          not_reserved := by simpa using hreserved
          no_colon := by simpa using hcolons }
    · rw [ofText_of_no_colon hcolon] at htext
      cases htext
  · rintro ⟨⟨before, after, hbody, hbefore, hname, hcode⟩, hidentifier, hreserved, hcolon⟩
    rw [ofText_of_colon hbody hbefore, hname, hcode]
    simp [hidentifier, hreserved, hcolon]

theorem toList_ne_nil_of_isIdentifier {name : String} (hname : isIdentifier name) :
    name.toList ≠ [] :=
  (isIdentifier_iff.mp hname).1

theorem isIdentifierChar_of_mem {name : String} (hname : isIdentifier name) {c : Char}
    (hc : c ∈ name.toList) : isIdentifierChar c :=
  (isIdentifier_iff.mp hname).2 c hc

theorem not_mem_of_isIdentifier {name : String} (hname : isIdentifier name) {c : Char}
    (hc : isIdentifierChar c = false) : c ∉ name.toList := by
  intro hmem
  rw [isIdentifierChar_of_mem hname hmem] at hc
  cases hc

theorem trimmed_of_isIdentifier {name : String} (hname : isIdentifier name) :
    Trimmed name.toList where
  head_solid := by
    intro c hc
    exact isBlank_of_isIdentifierChar (isIdentifierChar_of_mem hname (List.mem_of_head? hc))
  last_solid := by
    intro c hc
    exact isBlank_of_isIdentifierChar (isIdentifierChar_of_mem hname (List.mem_of_getLast? hc))

section Split

variable {text name code : String}

/-- The label of a line can stand on a line of its own. -/
theorem ofText_label (htext : ofText text = .ok ⟨some name, code⟩) :
    ofText (name ++ ":") = .ok ⟨some name, ""⟩ := by
  have hlabelled := ofText_eq_labelled_iff.mp htext
  have hname := hlabelled.isIdentifier_name
  have hchars : (name ++ ":").toList = name.toList ++ [] ++ [':'] := by simp
  have hcolon : Trimmed [':'] := by
    constructor
    · rintro c ⟨⟩
      decide
    · rintro c ⟨⟩
      decide
  have hbody : body (name ++ ":") = name.toList ++ [':'] := by
    rw [body_of_trimmed, hchars, List.append_nil]
    · rw [hchars]
      exact (trimmed_of_isIdentifier hname).between (toList_ne_nil_of_isIdentifier hname) hcolon
        (by simp) []
    · simp [not_mem_of_isIdentifier hname (c := ';') (by decide)]
  rw [ofText_eq_labelled_iff, hbody]
  exact
    { split := ⟨name.toList, [], rfl, not_mem_of_isIdentifier hname (by decide),
        trim_of_trimmed (trimmed_of_isIdentifier hname), rfl⟩
      isIdentifier_name := hname
      not_reserved := hlabelled.not_reserved
      no_colon := by simp }

/-- The code of a line reads the same once its label is taken off. -/
theorem ofText_code (htext : ofText text = .ok ⟨some name, code⟩) :
    ofText code = .ok ⟨none, code⟩ := by
  have hlabelled := ofText_eq_labelled_iff.mp htext
  obtain ⟨before, after, hbody, -, -, hcode⟩ := hlabelled.split
  have hsemicolon : ';' ∉ code.toList := by
    intro hmem
    rw [← hcode] at hmem
    apply semicolon_not_mem_body text
    rw [hbody]
    simp [mem_of_mem_trim hmem]
  have htrimmed : Trimmed code.toList := by
    rw [← hcode]
    exact trimmed_trim after
  have hself := body_of_trimmed htrimmed hsemicolon
  have hcolon : ':' ∉ body code := by
    rw [hself]
    exact hlabelled.no_colon
  rw [ofText_of_no_colon hcolon, hself, String.ofList_toList]

end Split

/-! ### Lines that hold nothing -/

theorem ofText_of_body_eq_nil {text : String} (hbody : body text = []) :
    ofText text = .ok ⟨none, ""⟩ := by
  rw [ofText_of_no_colon (by simp [hbody]), hbody, String.ofList_nil]

/-- A line that is dropped for being empty would also have been read as empty. -/
theorem body_of_isIdle {line : SourceLine} (hidle : line.isIdle) : body line.text = [] := by
  obtain ⟨front, back, hfront, hback, hsplit⟩ := exists_eq_append_trim line.text.toList
  have htext : line.text = String.ofList front ++ String.ofList (trim line.text.toList) ++
      String.ofList back := by
    rw [← String.ofList_append, ← String.ofList_append, ← hsplit, String.ofList_toList]
  rw [htext, body_pad (by simpa using hfront) (by simpa using hback)]
  unfold SourceLine.isIdle at hidle
  split at hidle
  · rename_i hnil
    rw [hnil]
    rfl
  · rename_i c comment hcons
    obtain rfl := eq_of_beq hidle
    have hcomment : String.ofList (';' :: comment) = "" ++ ";" ++ String.ofList comment := by
      simp
    rw [hcons, hcomment, body_append_comment]
    rfl

end LineContent

end WordAssembler
