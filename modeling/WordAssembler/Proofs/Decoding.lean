import Mathlib.Data.Set.Function
import WordAssembler.Machine.Encoding
import WordAssembler.Proofs.BitField

/-!
# Decoding inverts encoding

The opcodes of the machine have four widths, and the operands of a narrow opcode stand where a wide
opcode has its own bits. The order in which widths are probed does not matter: a word has the
opcode of at most one mnemonic, so the mnemonic that decoding finds is the only one it could find.
Operands are then read back field by field. An operand that does not fit its field comes back
reduced, so the instructions that decode to themselves are the canonical ones.
-/

namespace WordAssembler

namespace Mnemonic

open BitField

theorem opcode_lt (m : Mnemonic) : m.opcode.toNat < 1 <<< m.family.opcodeWidth := by
  cases m <;> decide

theorem eq_of_opcode_eq {m n : Mnemonic} (heq : m.opcode.toNat = n.opcode.toNat) : m = n := by
  have hall : ∀ m ∈ all, ∀ n ∈ all, m.opcode.toNat = n.opcode.toNat → m = n := by
    decide +kernel
  exact hall m (mem_all m) n (mem_all n) heq

/-- No opcode ends in a narrower one. -/
theorem get_opcode_ne_of_lt {m n : Mnemonic}
    (hlt : m.family.opcodeWidth < n.family.opcodeWidth) :
    (BitField.mk 0 m.family.opcodeWidth).get n.opcode ≠ m.opcode.toNat := by
  have hall : ∀ m ∈ all, ∀ n ∈ all, m.family.opcodeWidth < n.family.opcodeWidth →
      (BitField.mk 0 m.family.opcodeWidth).get n.opcode ≠ m.opcode.toNat := by
    decide +kernel
  exact hall m (mem_all m) n (mem_all n) hlt

/-- Operand fields start above the opcode. -/
theorem get_opcode_eq_zero {m : Mnemonic} {family : Family} (hfamily : m.family = family)
    {field : BitField} (hle : family.opcodeWidth ≤ field.offset) : field.get m.opcode = 0 := by
  subst hfamily
  apply get_eq_zero_of_lt
  have hlt := m.opcode_lt
  rw [Nat.one_shiftLeft] at hlt ⊢
  exact Nat.lt_of_lt_of_le hlt (Nat.pow_le_pow_right (by decide) hle)

def StandsIn (m : Mnemonic) (w : Word) : Prop :=
  (BitField.mk 0 m.family.opcodeWidth).get w = m.opcode.toNat

/-- A word has the opcode of at most one mnemonic: of two opcodes of one width at most one stands in
it, and a wide opcode in it keeps every narrower one out. -/
theorem eq_of_standsIn {m n : Mnemonic} {w : Word} (hm : m.StandsIn w) (hn : n.StandsIn w) :
    m = n := by
  rcases Nat.lt_trichotomy m.family.opcodeWidth n.family.opcodeWidth with hlt | heq | hgt
  · exact absurd ((get_low_of_le hlt.le hn).symm.trans hm) (get_opcode_ne_of_lt hlt)
  · apply eq_of_opcode_eq
    rw [← hm, ← hn, heq]
  · exact absurd ((get_low_of_le hgt.le hm).symm.trans hn) (get_opcode_ne_of_lt hgt)

theorem ofOpcode?_eq_some_iff {w : Word} {width : Nat} {m : Mnemonic} :
    ofOpcode? w width = some m ↔ m.family.opcodeWidth = width ∧ m.StandsIn w := by
  rw [ofOpcode?, Option.filter_eq_some_iff]
  constructor
  · rintro ⟨hfind, hwidth⟩
    have hopcode := List.find?_some hfind
    rw [beq_iff_eq] at hopcode hwidth
    exact ⟨hwidth, by rw [StandsIn, hwidth, hopcode]⟩
  · rintro ⟨rfl, hm⟩
    refine ⟨?_, beq_self_eq_true _⟩
    cases hfind : all.find? fun n =>
        n.opcode.toNat == (BitField.mk 0 m.family.opcodeWidth).get w with
    | none =>
        have hnone := List.find?_eq_none.mp hfind m (mem_all m)
        exact absurd hm.symm (by simpa using hnone)
    | some n =>
        have hopcode := List.find?_some hfind
        rw [beq_iff_eq, hm] at hopcode
        rw [eq_of_opcode_eq hopcode]

theorem opcodeWidth_mem (m : Mnemonic) : m.family.opcodeWidth ∈ [16, 7, 5, 4] := by
  cases m <;> decide

/-- The order of the probes does not matter: decoding finds the one mnemonic whose opcode stands in
the word. -/
theorem ofWord?_eq_some_iff {w : Word} {m : Mnemonic} : ofWord? w = some m ↔ m.StandsIn w := by
  constructor
  · intro hword
    obtain ⟨width, -, hprobe⟩ := List.exists_of_findSome?_eq_some hword
    exact (ofOpcode?_eq_some_iff.mp hprobe).2
  · intro hm
    cases hword : ofWord? w with
    | none =>
        have hnone := List.findSome?_eq_none_iff.mp hword _ m.opcodeWidth_mem
        rw [ofOpcode?_eq_some_iff.mpr ⟨rfl, hm⟩] at hnone
        cases hnone
    | some n =>
        obtain ⟨width, -, hprobe⟩ := List.exists_of_findSome?_eq_some hword
        rw [eq_of_standsIn (ofOpcode?_eq_some_iff.mp hprobe).2 hm]

end Mnemonic

theorem Register.index_mod (r : Register) : r.index % 8 = r.index :=
  Nat.mod_eq_of_lt r.index_lt

namespace Instruction

open BitField Mnemonic

def OperandsFit : Instruction → Prop
  | .alu _ _ _ (.val v) => v.toNat < 16
  | .condJump _ _ (.val o) => -128 ≤ o.toInt ∧ o.toInt ≤ 127
  | .jump _ (.val o) => -1024 ≤ o.toInt ∧ o.toInt ≤ 1023
  | _ => True

/-- Holds of instructions that are laid out as their mnemonic asks, with operands that fit. -/
structure Canonical (i : Instruction) : Prop where
  family_eq : i.mnemonic.family = i.family
  operandsFit : i.OperandsFit

def fitted : Instruction → Instruction
  | .alu m d a (.val v) => .alu m d a (.val (UInt8.ofNat (v.toNat % aluImmediate.size)))
  | .condJump m c (.val o) => .condJump m c (.val (Int16.ofInt (o.toInt.bmod condOffset.size)))
  | .jump m (.val o) => .jump m (.val (Int16.ofInt (o.toInt.bmod jumpOffset.size)))
  | i => i

theorem ofInt_bmod_eq {o : Int16} {size : Nat} (hle : -(size / 2) ≤ o.toInt)
    (hlt : o.toInt < (size + 1) / 2) : Int16.ofInt (o.toInt.bmod size) = o := by
  rw [Int.bmod_eq_of_le hle hlt, Int16.ofInt_toInt]

theorem Canonical.fitted_eq {i : Instruction} (hi : i.Canonical) : i.fitted = i := by
  have hfit := hi.operandsFit
  cases i with
  | alu m d a b =>
      cases b with
      | reg b => rfl
      | val v =>
          have hmod : v.toNat % aluImmediate.size = v.toNat := Nat.mod_eq_of_lt hfit
          rw [fitted, hmod, UInt8.ofNat_toNat]
  | loadImm m d v => rfl
  | loadStore m d a => rfl
  | condJump m c t =>
      cases t with
      | reg t => rfl
      | val o =>
          obtain ⟨hle, hge⟩ := hfit
          have hsize : condOffset.size = 256 := rfl
          rw [fitted, hsize, ofInt_bmod_eq (by omega) (by omega)]
  | jump m t =>
      cases t with
      | reg t => rfl
      | val o =>
          obtain ⟨hle, hge⟩ := hfit
          have hsize : jumpOffset.size = 2048 := rfl
          rw [fitted, hsize, ofInt_bmod_eq (by omega) (by omega)]
  | zero m => rfl

/-! ### Reading operands back -/

/-- Field by field, encoding keeps of each operand what its field has room for. -/
theorem ofFields_encode {i : Instruction} (hfamily : i.mnemonic.family = i.family) :
    ofFields i.mnemonic i.encode = i.fitted := by
  rcases i with ⟨m, d, a, b | v⟩ | ⟨m, d, v⟩ | ⟨m, d, a⟩ | ⟨m, c, t | o⟩ | ⟨m, t | o⟩ | ⟨m⟩
  -- The field of an operand is apart from the opcode and from the other fields of its family.
  all_goals
    simp only [Form.mnemonic, Form.family] at hfamily
    simp (disch := decide) only [Form.mnemonic, ofFields, hfamily, encode, fitted, targetOf,
      Register.field, Register.ofField, getInt, get_or, get_put, get_putInt, get_put_of_apart,
      get_putInt_of_apart, get_opcode_eq_zero hfamily, bmod_toNat_emod, Nat.zero_or, Nat.or_zero]
  all_goals
    simp [aluImmediateFlag, loadImmediate, offsetFlag, size, Register.index_mod]

/-- No operand reaches into the opcode. -/
theorem standsIn_encode {i : Instruction} (hfamily : i.mnemonic.family = i.family) :
    i.mnemonic.StandsIn i.encode := by
  have hopcode := get_low_of_lt i.mnemonic.opcode_lt
  rw [hfamily] at hopcode
  rw [StandsIn, hfamily]
  rcases i with ⟨m, d, a, b | v⟩ | ⟨m, d, v⟩ | ⟨m, d, a⟩ | ⟨m, c, t | o⟩ | ⟨m, t | o⟩ | ⟨m⟩
  all_goals
    simp only [Form.mnemonic, Form.family, Family.opcodeWidth] at hopcode ⊢
    simp (disch := decide) only [encode, Register.field, get_or, get_put_of_apart,
      get_putInt_of_apart, hopcode, Nat.or_zero]

theorem mnemonic_ofFields (m : Mnemonic) (w : Word) : (ofFields m w).mnemonic = m := by
  unfold ofFields
  split <;> rfl

theorem family_ofFields (m : Mnemonic) (w : Word) : (ofFields m w).family = m.family := by
  unfold ofFields
  split <;> rename_i hfamily <;> rw [hfamily] <;> rfl

theorem toInt_ofInt_getInt {field : BitField} (hwidth : field.size ≤ Int16.size) (w : Word) :
    (Int16.ofInt (field.getInt w)).toInt = field.getInt w := by
  obtain ⟨hle, hlt⟩ := field.getInt_bounds w
  rw [Int16.toInt_ofInt]
  apply Int.bmod_eq_of_le
  · omega
  · omega

/-- What is read from a field fits the field, whatever word it is read from. -/
theorem operandsFit_ofFields (m : Mnemonic) (w : Word) : (ofFields m w).OperandsFit := by
  unfold ofFields
  split
  · split_ifs
    · have hlt := aluImmediate.get_lt_size w
      change (UInt8.ofNat (aluImmediate.get w)).toNat < 16
      rw [UInt8.toNat_ofNat']
      exact Nat.lt_of_le_of_lt (Nat.mod_le _ _) hlt
    · trivial
  · trivial
  · trivial
  · unfold targetOf
    split_ifs
    · have hbounds := condOffset.getInt_bounds w
      have hsize : condOffset.size = 256 := rfl
      rw [OperandsFit, toInt_ofInt_getInt (by decide)]
      omega
    · trivial
  · unfold targetOf
    split_ifs
    · have hbounds := jumpOffset.getInt_bounds w
      have hsize : jumpOffset.size = 2048 := rfl
      rw [OperandsFit, toInt_ofInt_getInt (by decide)]
      omega
    · trivial
  · trivial

/-! ### The two directions -/

theorem decode?_encode {i : Instruction} (hi : i.Canonical) : decode? i.encode = some i := by
  rw [decode?, Mnemonic.ofWord?_eq_some_iff.mpr (standsIn_encode hi.family_eq), Option.map_some,
    ofFields_encode hi.family_eq, hi.fitted_eq]
  simp

theorem encode_eq_of_decode?_eq_some {w : Word} {i : Instruction} (hdecode : decode? w = some i) :
    i.encode = w := by
  obtain ⟨-, hencode⟩ := Option.filter_eq_some_iff.mp hdecode
  exact eq_of_beq hencode

theorem canonical_of_decode?_eq_some {w : Word} {i : Instruction}
    (hdecode : decode? w = some i) : i.Canonical := by
  obtain ⟨hmap, -⟩ := Option.filter_eq_some_iff.mp hdecode
  obtain ⟨m, -, rfl⟩ := Option.map_eq_some_iff.mp hmap
  refine ⟨?_, operandsFit_ofFields m w⟩
  rw [mnemonic_ofFields, family_ofFields]

theorem encode_injOn_canonical : Set.InjOn encode {i | i.Canonical} := by
  intro i hi j hj heq
  have hdecode := decode?_encode hi
  rw [heq, decode?_encode hj] at hdecode
  exact (Option.some.inj hdecode).symm

/-- **The instruction set.** A word decodes to an instruction exactly when the instruction is
canonical and encodes to that word. So no two canonical instructions share a word, and the words
that decode to nothing are those that no canonical instruction encodes to. -/
theorem decode?_exact :
    (∀ (w : Word) (i : Instruction), decode? w = some i ↔ i.Canonical ∧ i.encode = w) ∧
      Set.InjOn encode {i | i.Canonical} ∧
      ∀ w : Word, decode? w = none ↔ ¬∃ i : Instruction, i.Canonical ∧ i.encode = w := by
  have hiff : ∀ (w : Word) (i : Instruction),
      decode? w = some i ↔ i.Canonical ∧ i.encode = w := by
    intro w i
    constructor
    · intro hdecode
      exact ⟨canonical_of_decode?_eq_some hdecode, encode_eq_of_decode?_eq_some hdecode⟩
    · rintro ⟨hi, rfl⟩
      exact decode?_encode hi
  refine ⟨hiff, encode_injOn_canonical, ?_⟩
  intro w
  simp only [Option.eq_none_iff_forall_ne_some, ne_eq, hiff, not_exists]

end Instruction

end WordAssembler
