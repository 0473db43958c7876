import WordAssembler.Assembly
import WordAssembler.Proofs.Grammar
import WordAssembler.Proofs.Printing
import WordAssembler.Proofs.Resolution

/-!
# Instructions are read back

An instruction is shown with the first spelling of its mnemonic and of its registers, and with
numbers that the literals of a source can stand for. So the text of a decoded instruction is read as
an operation, which stands for the same instruction wherever it is placed, and none of its
immediates is truncated.
-/

namespace WordAssembler

open Numeral Text

theorem Register.name_mem_spellings (r : Register) : r.name ∈ r.spellings := by
  cases r <;> decide

theorem Mnemonic.name_mem_spellings (m : Mnemonic) : m.name ∈ m.spellings := by
  cases m <;> decide

theorem Mnemonic.solid_name (m : Mnemonic) : ∀ c ∈ m.name.toList, isBlank c = false := by
  intro c hc
  exact isBlank_of_isIdentifierChar (LineContent.isIdentifierChar_of_mem m.isIdentifier_name hc)

/-! ### Numbers as literals -/

namespace Literal

theorem inRange_toInt (o : Int16) : InRange o.toInt := by
  have hle := o.le_toInt
  have hlt := o.toInt_lt
  unfold InRange
  omega

theorem inRange_toNat (v : UInt8) : InRange v.toNat := by
  have hlt := v.toNat_lt
  unfold InRange
  omega

end Literal

namespace Operation

/-! ### A statement is read back -/

section Statement

variable {tokens : List String} {front : List Char}

theorem operands_cons (token next : String) (tokens : List String) :
    (", ".intercalate (token :: next :: tokens)).toList =
      token.toList ++ ',' :: ' ' :: (", ".intercalate (next :: tokens)).toList := by
  simp [String.intercalate_cons_cons]

theorem trimmed_operands (htokens : ∀ token ∈ tokens, isIdentifier token) (hne : tokens ≠ []) :
    Trimmed (", ".intercalate tokens).toList ∧ (", ".intercalate tokens).toList ≠ [] := by
  induction tokens with
  | nil => exact absurd rfl hne
  | cons token tokens ih =>
      rw [List.forall_mem_cons] at htokens
      have htoken := LineContent.trimmed_of_isIdentifier htokens.1
      have htokenNe := LineContent.toList_ne_nil_of_isIdentifier htokens.1
      cases tokens with
      | nil =>
          rw [String.intercalate_singleton]
          exact ⟨htoken, htokenNe⟩
      | cons next tokens =>
          obtain ⟨hrest, hrestNe⟩ := ih htokens.2 (List.cons_ne_nil _ _)
          have hregroup : ∀ cs : List Char,
              token.toList ++ ',' :: ' ' :: cs = token.toList ++ [',', ' '] ++ cs := by simp
          rw [operands_cons, hregroup]
          exact ⟨htoken.between htokenNe hrest hrestNe _, by simp [htokenNe]⟩

theorem separates_operands (htokens : ∀ token ∈ tokens, isIdentifier token) (hne : tokens ≠ [])
    (hfront : Blanks front) : Separates tokens (front ++ (", ".intercalate tokens).toList) := by
  have hnone : Blanks [] := by simp [Blanks]
  -- The blank behind a comma is a front of the next token.
  induction tokens generalizing front with
  | nil => exact absurd rfl hne
  | cons token tokens ih =>
      rw [List.forall_mem_cons] at htokens
      have hpads : Pads token (front ++ token.toList) :=
        ⟨front, [], hfront, hnone, by rw [List.append_nil]⟩
      cases tokens with
      | nil => exact ⟨_, .cons hpads .nil, by simp⟩
      | cons next tokens =>
          have hblank : Blanks [' '] := by
            intro c hc
            obtain rfl := List.mem_singleton.mp hc
            decide
          obtain ⟨fields, hfields, htext⟩ := ih htokens.2 (List.cons_ne_nil _ _) hblank
          have hfieldsNe : fields ≠ [] := by
            rintro rfl
            cases hfields
          refine ⟨(front ++ token.toList) :: fields, .cons hpads hfields, ?_⟩
          rw [List.intercalate_cons_of_ne_nil hfieldsNe, ← htext, operands_cons]
          simp

/-- Operands that are printed between commas are read back one by one. -/
theorem splitOperands_operands (htokens : ∀ token ∈ tokens, isIdentifier token)
    (hfront : Blanks front) :
    splitOperands (front ++ (", ".intercalate tokens).toList) = tokens := by
  cases tokens with
  | nil =>
      rw [splitOperands_blanks_append hfront]
      rfl
  | cons token tokens =>
      have hne : token :: tokens ≠ [] := List.cons_ne_nil _ _
      exact (splitOperands_eq_iff htokens hne).mpr (separates_operands htokens hne hfront)

/-- A mnemonic in its column and operands behind it, as the code of a line. -/
theorem parse_trim_aligned (m : Mnemonic) (htokens : ∀ token ∈ tokens, isIdentifier token) :
    parse (String.ofList (trim (alignLeft 6 m.name ++ ", ".intercalate tokens).toList)) =
      ofOperands m tokens := by
  have hname := LineContent.trimmed_of_isIdentifier m.isIdentifier_name
  have hnameNe := LineContent.toList_ne_nil_of_isIdentifier m.isIdentifier_name
  have hblanks : ∀ count, Blanks (List.replicate count ' ') := by
    intro count c hc
    rw [(List.mem_replicate.mp hc).2]
    decide
  rw [String.toList_append, toList_alignLeft]
  cases tokens with
  | nil =>
      -- Without operands the column is trimmed too, and the code is the mnemonic alone.
      have htrim : trim (m.name.toList ++ List.replicate (6 - m.name.toList.length) ' ' ++
          (", ".intercalate []).toList) = m.name.toList := by
        rw [String.intercalate_nil, String.toList_empty, List.append_nil,
          trim_append_blanks (hblanks _), trim_of_trimmed hname]
      have hnone : Blanks [] := by simp [Blanks]
      rw [htrim, String.ofList_toList]
      exact parse_of_spelling m.name_mem_spellings (startsBlank_of_blanks hnone)
        (List.append_nil _).symm
  | cons token tokens =>
      obtain ⟨hoperands, hoperandsNe⟩ := trimmed_operands htokens (List.cons_ne_nil _ _)
      have hcolumn : List.replicate (6 - m.name.toList.length) ' ' ≠ [] := by
        cases m <;> decide
      rw [trim_of_trimmed (hname.between hnameNe hoperands hoperandsNe _), List.append_assoc,
        parse_of_spelling m.name_mem_spellings (startsBlank_append (hblanks _) hcolumn _)
          String.toList_ofList,
        splitOperands_operands htokens (hblanks _)]

end Statement

/-! ### An instruction is read back -/

theorem statesTarget_targetToken (t : Operand Int16) :
    StatesTarget (Instruction.targetToken t) (t.map fun o => decimalInt o.toInt) := by
  cases t with
  | reg r => exact .reg r.name_mem_spellings
  | val o =>
      have hparse := Literal.parse?_decimalInt (Literal.inRange_toInt o)
      exact .val (Register.ofSpelling?_eq_none_iff.mp (Literal.ofSpelling?_of_parse? hparse))

end Operation

namespace Instruction

open Operation

def stated (i : Instruction) : Operation :=
  i.map (fun v => (v.toNat : Int)) fun o => decimalInt o.toInt

/-- The printed operands of an instruction are read as the operation that states it. -/
theorem ofOperands_tokens {i : Instruction} (hfamily : i.mnemonic.family = i.family) :
    ofOperands i.mnemonic i.tokens = .ok i.stated := by
  have himmediate : ∀ (width : Nat) (v : UInt8),
      Literal.parse? ("0x" ++ hexUpper width v.toNat) = some (v.toNat : Int) := fun width v =>
    Literal.parse?_hexUpper width (Literal.inRange_toNat v)
  refine ofOperands_eq_ok_iff.mpr ⟨i.isIdentifier_tokens, ?_⟩
  rcases i with ⟨m, d, a, b | v⟩ | ⟨m, d, v⟩ | ⟨m, d, a⟩ | ⟨m, c, t⟩ | ⟨m, t⟩ | ⟨m⟩
  · exact .alu hfamily d.name_mem_spellings a.name_mem_spellings (.reg b.name_mem_spellings)
  · exact .alu hfamily d.name_mem_spellings a.name_mem_spellings (.val (himmediate 1 v))
  · exact .loadImm hfamily d.name_mem_spellings (himmediate 2 v)
  · exact .loadStore hfamily d.name_mem_spellings a.name_mem_spellings
  · exact .condJump hfamily c.name_mem_spellings (statesTarget_targetToken t)
  · exact .jump hfamily (statesTarget_targetToken t)
  · exact .zero hfamily

theorem ofNat_lowBits (bits : Nat) {v : UInt8} (hv : v.toNat < 1 <<< bits) :
    UInt8.ofNat (lowBits bits v.toNat) = v := by
  have hlow : lowBits bits v.toNat = v.toNat := by
    rw [lowBits, Int.emod_eq_of_lt (by omega) (by omega), Int.toNat_natCast]
  rw [hlow, UInt8.ofNat_toNat]

theorem standsFor_decimalInt {labels : LabelTable} (hlabels : ∀ name, labels.address? name = none)
    (address : Nat) (o : Int16) : StandsFor labels address (decimalInt o.toInt) o.toInt := by
  refine ⟨?_, fun _ => Literal.parse?_decimalInt (Literal.inRange_toInt o)⟩
  intro destination hdestination
  rw [hlabels] at hdestination
  cases hdestination

theorem resolve_decimalInt {op : Operation} {bits : Nat} {o : Int16}
    (htarget : op.target? = some (decimalInt o.toInt, bits))
    (hbounds : leastSigned bits ≤ o.toInt ∧ o.toInt ≤ greatestSigned bits) {labels : LabelTable}
    (hlabels : ∀ name, labels.address? name = none) (address : Nat) :
    op.resolve labels address = .ok (op.map (fun _ => 0) fun _ => o) := by
  refine (resolve_eq_ok_iff htarget).mpr
    ⟨o.toInt, standsFor_decimalInt hlabels address o, hbounds, ?_⟩
  rw [Int16.ofInt_toInt]

/-- An operation that states a canonical instruction resolves to it at any address, as its offset is
written as a number. -/
theorem resolve_stated {i : Instruction} (hi : i.Canonical) {labels : LabelTable}
    (hlabels : ∀ name, labels.address? name = none) (address : Nat) :
    i.stated.resolve labels address = .ok i := by
  have hfit := hi.operandsFit
  rcases i with ⟨m, d, a, b | v⟩ | ⟨m, d, v⟩ | ⟨m, d, a⟩ | ⟨m, c, t | o⟩ | ⟨m, t | o⟩ | ⟨m⟩
  · rfl
  · have himmediate := ofNat_lowBits BitField.aluImmediate.width hfit
    simp only [stated, Form.map, Operand.map, resolve, himmediate]
  · have himmediate := ofNat_lowBits BitField.loadImmediate.width v.toNat_lt
    simp only [stated, Form.map, resolve, himmediate]
  · rfl
  · rfl
  · have htarget : target? (.condJump m c (.val (decimalInt o.toInt))) = some (_, 8) := rfl
    exact resolve_decimalInt htarget hfit hlabels address
  · rfl
  · have htarget : target? (.jump m (.val (decimalInt o.toInt))) = some (_, 11) := rfl
    exact resolve_decimalInt htarget hfit hlabels address
  · rfl

theorem fits_of_lt {bits n : Nat} (hn : n < 1 <<< bits) : Fits bits n := by
  have hleast : leastSigned bits ≤ 0 := Int.neg_nonpos_of_nonneg (Int.natCast_nonneg _)
  unfold Fits
  omega

theorem truncation?_stated {i : Instruction} (hi : i.Canonical) : truncation? i.stated = none := by
  have hfit := hi.operandsFit
  rcases i with ⟨m, d, a, b | v⟩ | ⟨m, d, v⟩ | ⟨m, d, a⟩ | ⟨m, c, t⟩ | ⟨m, t⟩ | ⟨m⟩
  · rfl
  · have hbound : v.toNat < 1 <<< BitField.aluImmediate.width := hfit
    simp only [stated, Form.map, Operand.map, truncation?, immediate?, fits_of_lt hbound, if_true]
  · have hbound : v.toNat < 1 <<< BitField.loadImmediate.width := v.toNat_lt
    simp only [stated, Form.map, truncation?, immediate?, fits_of_lt hbound, if_true]
  · rfl
  · rfl
  · rfl
  · rfl

end Instruction

end WordAssembler
