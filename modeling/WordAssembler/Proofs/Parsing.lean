import WordAssembler.Proofs.Grammar

/-!
# What reading a line and a statement gives

An operation that was read from a statement has the operands that its mnemonic asks for. Reading
looks at one line alone, so no fault found while reading says that a label was defined before.
-/

namespace WordAssembler

theorem LineContent.ofText_ne_duplicateLabel (text name : String) :
    ofText text ≠ .error (.duplicateLabel name) := by
  intro htext
  unfold ofText at htext
  simp only at htext
  split at htext
  · cases htext
  · split_ifs at htext <;> cases htext

namespace Operation

/-- A mnemonic is only ever applied to the operands of its own family. -/
theorem family_of_ofOperands {m : Mnemonic} {tokens : List String} {op : Operation}
    (hop : ofOperands m tokens = .ok op) : op.mnemonic.family = op.family := by
  obtain ⟨-, htakes⟩ := ofOperands_eq_ok_iff.mp hop
  cases htakes <;> assumption

theorem family_of_parse {code : String} {op : Operation} (hop : parse code = .ok op) :
    op.mnemonic.family = op.family := by
  obtain ⟨m, spelling, rest, hspelling, hrest, hcode⟩ := exists_spelling_of_parse hop
  rw [parse_of_spelling hspelling hrest hcode] at hop
  exact family_of_ofOperands hop

/-! ### Faults of a statement -/

section Faults

variable (token name : String)

theorem readRegister_ne_duplicateLabel : readRegister token ≠ .error (.duplicateLabel name) := by
  unfold readRegister
  split <;> simp

theorem readLiteral_ne_duplicateLabel (expected : Expected) :
    readLiteral token expected ≠ .error (.duplicateLabel name) := by
  unfold readLiteral
  split
  · simp
  · split_ifs <;> simp

theorem readImmediate_ne_duplicateLabel :
    readImmediate token ≠ .error (.duplicateLabel name) := by
  unfold readImmediate
  split_ifs
  · simp
  · exact readLiteral_ne_duplicateLabel token name .literal

theorem readOperand_ne_duplicateLabel : readOperand token ≠ .error (.duplicateLabel name) := by
  unfold readOperand
  split
  · simp
  · intro hmap
    cases hread : readLiteral token .registerOrLiteral with
    | ok v =>
        rw [hread] at hmap
        cases hmap
    | error fault =>
        rw [hread] at hmap
        cases hmap
        exact readLiteral_ne_duplicateLabel token name .registerOrLiteral hread

theorem ofOperands_ne_duplicateLabel (m : Mnemonic) (tokens : List String) :
    ofOperands m tokens ≠ .error (.duplicateLabel name) := by
  unfold ofOperands
  split
  · simp
  · split <;> simp [Pass.bind_eq_error, readRegister_ne_duplicateLabel,
      readImmediate_ne_duplicateLabel, readOperand_ne_duplicateLabel, pure, Except.pure]

/-- Reading a statement knows no labels, so it cannot find one defined twice. -/
theorem parse_ne_duplicateLabel (code : String) : parse code ≠ .error (.duplicateLabel name) := by
  unfold parse
  simp only
  split_ifs
  · simp
  · split
    · simp
    · exact ofOperands_ne_duplicateLabel name _ _

end Faults

end Operation

end WordAssembler
