import Mathlib.Data.Int.ModEq
import WordAssembler.Proofs.Decoding

/-!
# Operands that are too wide

An instruction can hold a larger immediate or offset than its word has room for. Encoding keeps the
low bits of such an operand and leaves the rest of the word alone, so the instruction and its
reduced form have one word between them. That word decodes, and gives the reduced form back: an
immediate modulo the size of its field, an offset as the one number of the field's signed range
that agrees with it modulo that size.
-/

namespace WordAssembler

namespace BitField

theorem put_mod_size (field : BitField) (v : Nat) : field.put (v % field.size) = field.put v := by
  rw [put, put, Nat.mod_mod]

theorem putInt_bmod_size (field : BitField) (v : Int) :
    field.putInt (v.bmod field.size) = field.putInt v := by
  rw [putInt, putInt, Int.bmod_emod]

end BitField

namespace Instruction

open BitField

section Residue

variable {size : Nat}

theorem toNat_ofNat_mod (hpos : 0 < size) (hsize : size ≤ 256) (v : UInt8) :
    (UInt8.ofNat (v.toNat % size)).toNat = v.toNat % size := by
  have hlt : v.toNat % size < size := Nat.mod_lt _ hpos
  rw [UInt8.toNat_ofNat']
  exact Nat.mod_eq_of_lt (Nat.lt_of_lt_of_le hlt hsize)

theorem toInt_ofInt_bmod (hpos : 0 < size) (hsize : size ≤ Int16.size) (v : Int) :
    (Int16.ofInt (v.bmod size)).toInt = v.bmod size := by
  have hle := Int.le_bmod (x := v) hpos
  have hlt := Int.bmod_lt (x := v) hpos
  rw [Int16.toInt_ofInt]
  apply Int.bmod_eq_of_le
  · omega
  · omega

/-- A range as long as the modulus holds one number of each residue. -/
theorem eq_ofInt_bmod_iff {modulus half : Int} (hmodulus : (size : Int) = modulus)
    (hhalf : modulus = 2 * half) (hpos : 0 < size) (hsize : size ≤ Int16.size) {o kept : Int16} :
    kept = Int16.ofInt (o.toInt.bmod size) ↔ -half ≤ kept.toInt ∧ kept.toInt ≤ half - 1 ∧
      kept.toInt ≡ o.toInt [ZMOD modulus] := by
  subst hmodulus
  constructor
  · rintro rfl
    have hle := Int.le_bmod (x := o.toInt) hpos
    have hlt := Int.bmod_lt (x := o.toInt) hpos
    rw [toInt_ofInt_bmod hpos hsize]
    exact ⟨by omega, by omega, Int.bmod_emod⟩
  · rintro ⟨hleast, hgreatest, hcongr⟩
    have hbmod : o.toInt.bmod size = kept.toInt.bmod size := by
      rw [← Int.emod_bmod, ← hcongr, Int.emod_bmod]
    rw [hbmod, ofInt_bmod_eq (by omega) (by omega)]

end Residue

/-! ### The reduced form -/

/-- Holds of an instruction and of what its word keeps of it. The mnemonic, the registers and the
kinds of the operands stay, and so does any operand that has room in its field. -/
inductive Wraps : Instruction → Instruction → Prop
  | aluRegister (m : Mnemonic) (d a b : Register) :
      Wraps (.alu m d a (.reg b)) (.alu m d a (.reg b))
  | aluImmediate (m : Mnemonic) (d a : Register) {v kept : UInt8}
      (hkept : kept.toNat = v.toNat % 16) :
      Wraps (.alu m d a (.val v)) (.alu m d a (.val kept))
  | loadImm (m : Mnemonic) (d : Register) (v : UInt8) : Wraps (.loadImm m d v) (.loadImm m d v)
  | loadStore (m : Mnemonic) (d a : Register) : Wraps (.loadStore m d a) (.loadStore m d a)
  | condRegister (m : Mnemonic) (c t : Register) :
      Wraps (.condJump m c (.reg t)) (.condJump m c (.reg t))
  | condOffset (m : Mnemonic) (c : Register) {o kept : Int16} (hleast : -128 ≤ kept.toInt)
      (hgreatest : kept.toInt ≤ 127) (hkept : kept.toInt ≡ o.toInt [ZMOD 256]) :
      Wraps (.condJump m c (.val o)) (.condJump m c (.val kept))
  | jumpRegister (m : Mnemonic) (t : Register) : Wraps (.jump m (.reg t)) (.jump m (.reg t))
  | jumpOffset (m : Mnemonic) {o kept : Int16} (hleast : -1024 ≤ kept.toInt)
      (hgreatest : kept.toInt ≤ 1023) (hkept : kept.toInt ≡ o.toInt [ZMOD 2048]) :
      Wraps (.jump m (.val o)) (.jump m (.val kept))
  | zero (m : Mnemonic) : Wraps (.zero m) (.zero m)

section Fields

variable {o kept : Int16}

theorem eq_immediate_iff {v kept : UInt8} :
    kept = UInt8.ofNat (v.toNat % aluImmediate.size) ↔ kept.toNat = v.toNat % 16 := by
  rw [← UInt8.toNat_inj, toNat_ofNat_mod (by decide) (by decide)]
  rfl

theorem eq_condOffset_iff : kept = Int16.ofInt (o.toInt.bmod condOffset.size) ↔
    -128 ≤ kept.toInt ∧ kept.toInt ≤ 127 ∧ kept.toInt ≡ o.toInt [ZMOD 256] :=
  eq_ofInt_bmod_iff rfl rfl (by decide) (by decide)

theorem eq_jumpOffset_iff : kept = Int16.ofInt (o.toInt.bmod jumpOffset.size) ↔
    -1024 ≤ kept.toInt ∧ kept.toInt ≤ 1023 ∧ kept.toInt ≡ o.toInt [ZMOD 2048] :=
  eq_ofInt_bmod_iff rfl rfl (by decide) (by decide)

end Fields

/-- A residue in the range of a field is unique, so the wrapped instruction is the one that encoding
computes. -/
theorem eq_fitted_of_wraps {i kept : Instruction} (hwraps : i.Wraps kept) : kept = i.fitted := by
  cases hwraps with
  | aluImmediate m d a hkept => rw [fitted, ← eq_immediate_iff.mpr hkept]
  | condOffset m c hleast hgreatest hkept =>
      rw [fitted, ← eq_condOffset_iff.mpr ⟨hleast, hgreatest, hkept⟩]
  | jumpOffset m hleast hgreatest hkept =>
      rw [fitted, ← eq_jumpOffset_iff.mpr ⟨hleast, hgreatest, hkept⟩]
  | aluRegister | loadImm | loadStore | condRegister | jumpRegister | zero => rfl

theorem wraps_fitted (i : Instruction) : i.Wraps i.fitted := by
  rcases i with ⟨m, d, a, b | v⟩ | ⟨m, d, v⟩ | ⟨m, d, a⟩ | ⟨m, c, t | o⟩ | ⟨m, t | o⟩ | ⟨m⟩
  · exact .aluRegister m d a b
  · exact .aluImmediate m d a (eq_immediate_iff.mp rfl)
  · exact .loadImm m d v
  · exact .loadStore m d a
  · exact .condRegister m c t
  · obtain ⟨hleast, hgreatest, hkept⟩ := eq_condOffset_iff.mp (Eq.refl (Int16.ofInt _))
    exact .condOffset m c hleast hgreatest hkept
  · exact .jumpRegister m t
  · obtain ⟨hleast, hgreatest, hkept⟩ := eq_jumpOffset_iff.mp (Eq.refl (Int16.ofInt _))
    exact .jumpOffset m hleast hgreatest hkept
  · exact .zero m

/-- What is cut off an operand leaves no trace in the word. -/
theorem encode_fitted (i : Instruction) : i.fitted.encode = i.encode := by
  rcases i with ⟨m, d, a, b | v⟩ | ⟨m, d, v⟩ | ⟨m, d, a⟩ | ⟨m, c, t | o⟩ | ⟨m, t | o⟩ | ⟨m⟩
  · rfl
  · rw [fitted, encode, encode, toNat_ofNat_mod (by decide) (by decide), put_mod_size]
  · rfl
  · rfl
  · rfl
  · rw [fitted, encode, encode, toInt_ofInt_bmod (by decide) (by decide), putInt_bmod_size]
  · rfl
  · rw [fitted, encode, encode, toInt_ofInt_bmod (by decide) (by decide), putInt_bmod_size]
  · rfl

/-- Encoding and decoding reduces every operand to its field, whatever the operand was. -/
theorem decode?_encode_eq_fitted {i : Instruction} (hfamily : i.mnemonic.family = i.family) :
    decode? i.encode = some i.fitted := by
  rw [decode?, Mnemonic.ofWord?_eq_some_iff.mpr (standsIn_encode hfamily), Option.map_some,
    ofFields_encode hfamily, Option.filter_some, encode_fitted]
  simp

/-- **Operands wrap around in their fields.** Whatever its operands, the word of an instruction
decodes to one that differs from it at most in an immediate or an offset, and there by a multiple
of the size of the field. There is one such instruction whose operands fit. -/
theorem decode?_encode_wraps (i : Instruction) (hfamily : i.mnemonic.family = i.family) :
    ∃ kept, decode? i.encode = some kept ∧ ∀ other, i.Wraps other ↔ other = kept := by
  refine ⟨i.fitted, decode?_encode_eq_fitted hfamily, ?_⟩
  intro other
  constructor
  · exact eq_fitted_of_wraps
  · rintro rfl
    exact i.wraps_fitted

theorem decode?_encode_wraps_past_the_ends :
    Mnemonic.jnz.family = .condJump ∧
    decode? (encode (.alu .xor .r7 .r5 (.val 0xfe))) = some (.alu .xor .r7 .r5 (.val 0xe)) ∧
    decode? (encode (.condJump .jnz .r3 (.val (-129)))) = some (.condJump .jnz .r3 (.val 127)) ∧
    decode? (encode (.jump .call (.val 1024))) = some (.jump .call (.val (-1024))) := by
  refine ⟨by decide, ?_, ?_, ?_⟩
  · obtain ⟨kept, hdecode, hwraps⟩ :=
      decode?_encode_wraps (.alu .xor .r7 .r5 (.val 0xfe)) (by decide)
    rw [hdecode]
    exact congrArg some ((hwraps _).mp (.aluImmediate _ _ _ (by decide))).symm
  · obtain ⟨kept, hdecode, hwraps⟩ :=
      decode?_encode_wraps (.condJump .jnz .r3 (.val (-129))) (by decide)
    rw [hdecode]
    exact congrArg some ((hwraps _).mp (.condOffset _ _ (by decide) (by decide) (by decide))).symm
  · obtain ⟨kept, hdecode, hwraps⟩ := decode?_encode_wraps (.jump .call (.val 1024)) (by decide)
    rw [hdecode]
    exact congrArg some ((hwraps _).mp (.jumpOffset _ (by decide) (by decide) (by decide))).symm

end Instruction

end WordAssembler
