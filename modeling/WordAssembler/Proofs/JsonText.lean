import WordAssembler.Json.Quoted
import WordAssembler.Json.Value
import WordAssembler.Proofs.Numeral

/-!
# Written JSON is read back

What stands between two tokens of a text does not matter to the scanner, and a token that is written
out in full leaves it between two tokens again. So a text is scanned piece by piece. A number alone
has no end of its own: it ends with the character behind it, which cannot belong to a number.

Tokens are read piece by piece too: those of a whole value leave the reader with that value, in
whatever containers it stands.
-/

namespace WordAssembler.Json

open Numeral

/-- Holds of a text that is cut into the given tokens, whatever tokens come before it. -/
def Scans (text : List Char) (tokens : List Token) : Prop :=
  ∀ earlier, text.foldlM Scanner.step ⟨.between, earlier⟩ =
    some ⟨.between, tokens.reverse ++ earlier⟩

/-- Scanning goes on between tokens where it stopped, so what scans separately scans in one piece.
-/
theorem Scans.append {text rest : List Char} {tokens more : List Token}
    (htext : Scans text tokens) (hrest : Scans rest more) :
    Scans (text ++ rest) (tokens ++ more) := by
  intro earlier
  rw [List.foldlM_append, htext earlier, List.reverse_append, List.append_assoc]
  exact hrest _

theorem Scans.tokens?_eq {text : List Char} {tokens : List Token} (htext : Scans text tokens) :
    tokens? text = some tokens := by
  have hscanned := htext []
  rw [List.append_nil] at hscanned
  rw [tokens?, Option.bind_eq_bind, hscanned, Option.bind_some, Scanner.finish,
    List.reverse_reverse]

/-! ### Strings -/

section Strings

variable (units : List Nat) (earlier : List Token)

theorem foldlM_hex {digits : List Char} {left value n : Nat} (hlength : digits.length = left + 1)
    (hvalue : valueFrom? 16 value digits = some n) :
    digits.foldlM Scanner.step ⟨.hex units (left + 1) value, earlier⟩ =
      some ⟨.string (n :: units), earlier⟩ := by
  induction digits generalizing left value with
  | nil => cases hlength
  | cons c digits ih =>
      rw [valueFrom?, List.foldlM_cons, Option.bind_eq_bind, Option.bind_eq_some_iff] at hvalue
      obtain ⟨next, hnext, hrest⟩ := hvalue
      obtain ⟨digit, hdigit, rfl⟩ := Option.map_eq_some_iff.mp hnext
      rw [List.foldlM_cons, Scanner.step, hdigit]
      cases left with
      | zero =>
          obtain rfl : digits = [] := by simpa using hlength
          cases hrest
          rfl
      | succ left => exact ih (by simpa using hlength) hrest

/-- Each character comes back from the way it is written inside quotes: as itself, by a short escape
or by four hexadecimal digits. -/
theorem foldlM_escaped (c : Char) :
    (escaped c).toList.foldlM Scanner.step ⟨.string units, earlier⟩ =
      some ⟨.string (c.toNat :: units), earlier⟩ := by
  unfold escaped
  by_cases hquote : c == '"'
  · rw [if_pos hquote, beq_iff_eq.mp hquote]
    rfl
  rw [if_neg hquote]
  by_cases hslash : c == '\\'
  · rw [if_pos hslash, beq_iff_eq.mp hslash]
    rfl
  rw [if_neg hslash]
  by_cases hback : c.toNat == 0x08
  · rw [if_pos hback, beq_iff_eq.mp hback]
    rfl
  rw [if_neg hback]
  by_cases hform : c.toNat == 0x0C
  · rw [if_pos hform, beq_iff_eq.mp hform]
    rfl
  rw [if_neg hform]
  by_cases hline : c == '\n'
  · rw [if_pos hline, beq_iff_eq.mp hline]
    rfl
  rw [if_neg hline]
  by_cases hreturn : c == '\r'
  · rw [if_pos hreturn, beq_iff_eq.mp hreturn]
    rfl
  rw [if_neg hreturn]
  by_cases htab : c == '\t'
  · rw [if_pos htab, beq_iff_eq.mp htab]
    rfl
  rw [if_neg htab]
  by_cases hcontrol : c.toNat < 0x20
  · have hlength : (hexLower 4 c.toNat).toList.length = 3 + 1 :=
      length_hex .lower (by decide) (by omega)
    have hvalue : value? 16 (hexLower 4 c.toNat).toList = some c.toNat :=
      value?_hex .lower 4 c.toNat
    rw [value?, if_neg (by simp [← List.length_eq_zero_iff, hlength])] at hvalue
    have hmark : "\\u".toList.foldlM Scanner.step ⟨.string units, earlier⟩ =
        some ⟨.hex units 4 0, earlier⟩ := rfl
    rw [if_pos hcontrol, String.toList_append, List.foldlM_append, hmark, Option.bind_eq_bind,
      Option.bind_some]
    exact foldlM_hex units earlier hlength hvalue
  · rw [if_neg hcontrol, String.toList_ofList, List.foldlM_cons, Scanner.step]
    simp only [hquote, hslash, hcontrol, if_false, Bool.false_eq_true]
    rfl

theorem foldlM_escapes (chars : List Char) :
    (chars.flatMap fun c => (escaped c).toList).foldlM Scanner.step ⟨.string units, earlier⟩ =
      some ⟨.string ((chars.map Char.toNat).reverse ++ units), earlier⟩ := by
  induction chars generalizing units with
  | nil => rfl
  | cons c chars ih =>
      rw [List.flatMap_cons, List.foldlM_append, foldlM_escaped, List.map_cons, List.reverse_cons,
        List.append_assoc]
      exact ih (c.toNat :: units)

theorem scans_quote (text : String) :
    Scans (quote text).toList [.string (text.toList.map Char.toNat)] := by
  intro earlier
  have hchars : (quote text).toList =
      '"' :: (text.toList.flatMap (fun c => (escaped c).toList) ++ ['"']) := by
    simp [quote, List.flatMap_map]
  rw [hchars, List.foldlM_cons]
  change (_ ++ ['"']).foldlM Scanner.step ⟨.string [], earlier⟩ = _
  rw [List.foldlM_append, foldlM_escapes, List.append_nil]
  change some (Scanner.emit earlier (.string (text.toList.map Char.toNat).reverse.reverse)) = _
  rw [List.reverse_reverse]
  rfl

end Strings

theorem chars?_map_toNat (chars : List Char) : chars? (chars.map Char.toNat) = some chars := by
  induction chars with
  | nil => rfl
  | cons c chars ih =>
      have hvalid : c.toNat < 0xD800 ∨ 0xDFFF < c.toNat ∧ c.toNat < 0x110000 := c.valid
      have hhigh : isHighSurrogate c.toNat = false := by
        simp only [isHighSurrogate, Bool.and_eq_false_iff, decide_eq_false_iff_not]
        omega
      have hlow : isLowSurrogate c.toNat = false := by
        simp only [isLowSurrogate, Bool.and_eq_false_iff, decide_eq_false_iff_not]
        omega
      rw [List.map_cons, chars?.eq_def]
      simp [hhigh, hlow, ih]

theorem text?_map_toNat (text : String) : text? (text.toList.map Char.toNat) = some text := by
  rw [text?, chars?_map_toNat, Option.map_some, String.ofList_toList]

/-! ### Numbers -/

/-- Holds of characters that no complete number goes on with. -/
def EndsNumber (c : Char) : Prop :=
  c.isDigit = false ∧ c ≠ '.' ∧ c ≠ 'e' ∧ c ≠ 'E'

instance (c : Char) : Decidable (EndsNumber c) :=
  inferInstanceAs (Decidable (_ ∧ _))

theorem EndsNumber.next_eq_none {c : Char} (hc : EndsNumber c) {part : NumberPart}
    (hcomplete : part.isComplete) : part.next c = none := by
  obtain ⟨hdigit, hpoint, hsmall, hlarge⟩ := hc
  cases part with
  | sign | point | mark | markSign => cases hcomplete
  | leadingZero | whole | fraction | exponent =>
      simp [NumberPart.next, NumberPart.afterWhole, hdigit, hpoint, hsmall, hlarge]

theorem head?_toDigits_ne_zero {n : Nat} (hn : n ≠ 0) : (Nat.toDigits 10 n).head? ≠ some '0' := by
  induction n using Nat.strongRecOn with
  | ind n ih =>
      by_cases hlt : n < 10
      · have hdigits : ∀ d < 10, d ≠ 0 → Nat.digitChar d ≠ '0' := by decide
        rw [Nat.toDigits_of_lt_base hlt, List.head?_cons]
        exact fun hzero => hdigits n hlt hn (Option.some.inj hzero)
      · have hhigh := ih (n / 10) (by omega) (by omega)
        rwa [Nat.toDigits_of_base_le (by decide) (by omega), List.head?_append,
          List.head?_eq_some_head Nat.toDigits_ne_nil, Option.some_or,
          ← List.head?_eq_some_head]

section Numbers

variable {part next : NumberPart} {c : Char} {digits : List Char} {earlier : List Token}

theorem step_of_next (hnext : part.next c = some next) :
    Scanner.step ⟨.number part digits, earlier⟩ c =
      some ⟨.number next (c :: digits), earlier⟩ := by
  simp only [Scanner.step, hnext]

/-- The character behind a number is taken as if the number had been a token before it. -/
theorem step_of_end (hend : part.next c = none) (hcomplete : part.isComplete) :
    Scanner.step ⟨.number part digits, earlier⟩ c =
      Scanner.step ⟨.between, .number digits.reverse :: earlier⟩ c := by
  simp only [Scanner.step, hend, hcomplete, if_true]

theorem step_of_isDigit (hdigit : c.isDigit) (hzero : c ≠ '0') :
    Scanner.step ⟨.between, earlier⟩ c = some ⟨.number .whole [c], earlier⟩ := by
  have hne : ∀ other : Char, other.isDigit = false → (c == other) = false := by
    intro other hother
    rw [beq_eq_false_iff_ne]
    rintro rfl
    rw [hdigit] at hother
    cases hother
  have hnotZero : (c == '0') = false := beq_eq_false_iff_ne.mpr hzero
  simp [Scanner.step, Scanner.start, Scanner.isSpace, hne, hnotZero, hdigit]

theorem foldlM_digits (hdigits : ∀ c ∈ digits, c.isDigit) (seen : List Char) :
    digits.foldlM Scanner.step ⟨.number .whole seen, earlier⟩ =
      some ⟨.number .whole (digits.reverse ++ seen), earlier⟩ := by
  induction digits generalizing seen with
  | nil => rfl
  | cons c digits ih =>
      rw [List.forall_mem_cons] at hdigits
      have hnext : NumberPart.next .whole c = some .whole := if_pos hdigits.1
      rw [List.foldlM_cons, step_of_next hnext, List.reverse_cons, List.append_assoc]
      exact ih hdigits.2 (c :: seen)

/-- The first digit decides how a number goes on: nothing may follow a zero, and a number other than
zero does not start with one. -/
theorem foldlM_decimal (n : Nat) (earlier : List Token) :
    ∃ part : NumberPart, part.isComplete ∧
      (decimal n).toList.foldlM Scanner.step ⟨.between, earlier⟩ =
        some ⟨.number part (decimal n).toList.reverse, earlier⟩ := by
  by_cases hn : n = 0
  · subst hn
    exact ⟨.leadingZero, rfl, rfl⟩
  · have hall : ∀ c ∈ (decimal n).toList, c.isDigit := fun c hc => mem_decimal hc
    have hhead : (decimal n).toList.head? ≠ some '0' := by
      rw [decimal, String.toList_ofList]
      exact head?_toDigits_ne_zero hn
    obtain ⟨c, digits, hdecimal⟩ := List.exists_cons_of_ne_nil (toList_decimal_ne_nil n)
    rw [hdecimal] at hall hhead ⊢
    rw [List.forall_mem_cons] at hall
    have hzero : c ≠ '0' := fun hzero => hhead (congrArg some hzero)
    refine ⟨.whole, rfl, ?_⟩
    rw [List.foldlM_cons, step_of_isDigit hall.1 hzero, List.reverse_cons]
    exact foldlM_digits hall.2 [c]

/-- A number has no end of its own. It ends at the character behind it, which is then scanned as if
the number were not there. -/
theorem Scans.decimal_append {rest : List Char} {tokens : List Token} (hc : EndsNumber c)
    (hrest : Scans (c :: rest) tokens) (n : Nat) :
    Scans ((decimal n).toList ++ c :: rest) (.number (decimal n).toList :: tokens) := by
  intro earlier
  obtain ⟨part, hcomplete, hscanned⟩ := foldlM_decimal n earlier
  have hafter := hrest (.number (decimal n).toList :: earlier)
  rw [List.foldlM_cons] at hafter
  rw [List.foldlM_append, hscanned, Option.bind_eq_bind, Option.bind_some, List.foldlM_cons,
    step_of_end (hc.next_eq_none hcomplete) hcomplete, List.reverse_reverse, hafter,
    List.reverse_cons, List.append_assoc]
  rfl

end Numbers

/-! ### Reading tokens -/

/-- Holds of tokens that are read as the value, in whatever containers they stand. -/
def Reads (tokens : List Token) (v : Value) : Prop :=
  ∀ outer, tokens.foldlM Reader.step (.value outer) = some (.complete outer v)

structure ReadsMember (written : List Nat × List Token) (member : List Nat × Value) : Prop where
  name_eq : written.1 = member.1
  reads : Reads written.2 member.2

def memberTokens (written : List Nat × List Token) : List Token :=
  .string written.1 :: .colon :: written.2

def furtherTokens (others : List (List Nat × List Token)) : List Token :=
  others.flatMap (fun written => Token.comma :: memberTokens written) ++ [.closeObject]

def objectTokens : List (List Nat × List Token) → List Token
  | [] => [.openObject, .closeObject]
  | first :: others => .openObject :: (memberTokens first ++ furtherTokens others)

theorem furtherTokens_cons (written : List Nat × List Token)
    (others : List (List Nat × List Token)) :
    furtherTokens (written :: others) =
      .comma :: (memberTokens written ++ furtherTokens others) := by
  rw [furtherTokens, List.flatMap_cons, List.append_assoc]
  rfl

theorem Reads.ofTokens?_eq {tokens : List Token} {v : Value} (htokens : Reads tokens v) :
    Value.ofTokens? tokens = some v := by
  rw [Value.ofTokens?, htokens []]
  rfl

theorem reads_number (digits : List Char) : Reads [.number digits] (.number digits) :=
  fun _ => rfl

theorem ReadsMember.foldlM_memberTokens {written : List Nat × List Token}
    {member : List Nat × Value} (hmember : ReadsMember written member) (outer : List Container)
    (members : List (List Nat × Value)) :
    (memberTokens written).foldlM Reader.step (.name outer members) =
      some (.complete (.object members member.1 :: outer) member.2) := by
  rw [memberTokens, hmember.name_eq]
  exact hmember.reads (.object members member.1 :: outer)

/-- Members are read one by one into the object that is open, which the brace behind the last one
closes. -/
theorem foldlM_furtherTokens {others : List (List Nat × List Token)}
    {rest : List (List Nat × Value)} (hothers : List.Forall₂ ReadsMember others rest)
    (outer : List Container) (members : List (List Nat × Value)) (last : List Nat × Value) :
    (furtherTokens others).foldlM Reader.step
        (.complete (.object members last.1 :: outer) last.2) =
      some (.complete outer (.object ((last :: members).reverse ++ rest))) := by
  induction hothers generalizing members last with
  | nil =>
      rw [List.append_nil]
      rfl
  | @cons written member others rest hmember _ ih =>
      rw [furtherTokens_cons, List.foldlM_cons]
      change (memberTokens written ++ _).foldlM Reader.step (.name outer (last :: members)) = _
      rw [List.foldlM_append, hmember.foldlM_memberTokens, List.append_cons, ← List.reverse_cons]
      exact ih (last :: members) member

/-- An object is read back from the tokens of its members. -/
theorem reads_object {written : List (List Nat × List Token)}
    {members : List (List Nat × Value)} (hmembers : List.Forall₂ ReadsMember written members) :
    Reads (objectTokens written) (.object members) := by
  intro outer
  cases hmembers with
  | nil => rfl
  | @cons first member others rest hfirst hothers =>
      rw [objectTokens, List.foldlM_cons]
      -- Where the first name may stand, a name is taken as it is anywhere else.
      change (memberTokens first ++ _).foldlM Reader.step (.name outer []) = _
      rw [List.foldlM_append, hfirst.foldlM_memberTokens]
      exact foldlM_furtherTokens hothers outer [] member

end WordAssembler.Json
