import WordAssembler.Machine.Mnemonic

/-!
# Bit fields are independent

A word is put together from fields by bitwise or. What stands in one field can be read back because
no other field of the word reaches into it, so all that encoding needs to know about two fields is
that they are apart.
-/

namespace WordAssembler.BitField

def Apart (field other : BitField) : Prop :=
  field.offset + field.width ≤ other.offset ∨ other.offset + other.width ≤ field.offset

instance (field other : BitField) : Decidable (Apart field other) :=
  inferInstanceAs (Decidable (_ ∨ _))

def InWord (field : BitField) : Prop :=
  field.offset + field.width ≤ 16

instance (field : BitField) : Decidable (InWord field) :=
  inferInstanceAs (Decidable (_ ≤ _))

theorem size_pos (field : BitField) : 0 < field.size := by
  rw [size, Nat.one_shiftLeft]
  exact Nat.two_pow_pos field.width

theorem get_lt_size (field : BitField) (w : Word) : field.get w < field.size :=
  Nat.mod_lt _ field.size_pos

/-- The bits of a field are the bits of the word above its offset. Every law of fields below is read
off bit by bit from this one and from `testBit_put`. -/
theorem testBit_get (field : BitField) (w : Word) (i : Nat) :
    (field.get w).testBit i =
      (decide (i < field.width) && w.toNat.testBit (field.offset + i)) := by
  rw [get, size, Nat.one_shiftLeft, Nat.testBit_mod_two_pow, Nat.testBit_shiftRight]

theorem testBit_put (field : BitField) (v i : Nat) :
    (field.put v).toNat.testBit i =
      (decide (i < 16) && (decide (field.offset ≤ i) &&
        (decide (i - field.offset < field.width) && v.testBit (i - field.offset)))) := by
  rw [put, UInt16.toNat_ofNat', size, Nat.one_shiftLeft, Nat.testBit_mod_two_pow,
    Nat.testBit_shiftLeft, Nat.testBit_mod_two_pow]

theorem get_or (field : BitField) (w other : Word) :
    field.get (w ||| other) = field.get w ||| field.get other := by
  apply Nat.eq_of_testBit_eq
  intro i
  simp only [testBit_get, Nat.testBit_or, UInt16.toNat_or, Bool.and_or_distrib_left]

/-- A field that lies in the word gives back what was put into it, reduced to its width. -/
theorem get_put {field : BitField} (hfield : field.InWord) (v : Nat) :
    field.get (field.put v) = v % field.size := by
  unfold InWord at hfield
  apply Nat.eq_of_testBit_eq
  intro i
  rw [testBit_get, testBit_put, size, Nat.one_shiftLeft, Nat.testBit_mod_two_pow]
  by_cases hi : i < field.width
  · have hword : field.offset + i < 16 := by omega
    simp [hi, hword]
  · simp [hi]

/-- Nothing that is put into a field reaches into one apart from it. -/
theorem get_put_of_apart {field other : BitField} (hapart : Apart field other) (v : Nat) :
    field.get (other.put v) = 0 := by
  unfold Apart at hapart
  apply Nat.eq_of_testBit_eq
  intro i
  rw [testBit_get, testBit_put, Nat.zero_testBit]
  -- A bit of `field` lies below `other` or above it.
  by_cases hi : i < field.width
  · by_cases hbelow : other.offset ≤ field.offset + i
    · have habove : ¬field.offset + i - other.offset < other.width := by omega
      simp [habove]
    · simp [hbelow]
  · simp [hi]

/-- Nothing stands in a field above all bits of the word. -/
theorem get_eq_zero_of_lt {field : BitField} {w : Word} (hlt : w.toNat < 1 <<< field.offset) :
    field.get w = 0 := by
  rw [Nat.one_shiftLeft] at hlt
  rw [get, Nat.shiftRight_eq_div_pow, Nat.div_eq_of_lt hlt, Nat.zero_mod]

/-- Low bits of low bits are low bits. -/
theorem get_low_of_le {narrow wide : Nat} (hle : narrow ≤ wide) {w v : Word}
    (hlow : (mk 0 wide).get w = v.toNat) : (mk 0 narrow).get w = (mk 0 narrow).get v := by
  apply Nat.eq_of_testBit_eq
  intro i
  rw [testBit_get, testBit_get, ← hlow, testBit_get]
  by_cases hi : i < narrow
  · have hwide : i < wide := by omega
    simp [hi, hwide]
  · simp [hi]

theorem get_low_of_lt {width : Nat} {w : Word} (hlt : w.toNat < 1 <<< width) :
    (mk 0 width).get w = w.toNat := by
  rw [get, size, Nat.shiftRight_zero, Nat.mod_eq_of_lt hlt]

/-! ### Signed numbers -/

/-- A negative number is stored as its residue, and the balanced residue of that is the one of the
number. -/
theorem bmod_toNat_emod (field : BitField) (v : Int) :
    ((v % field.size).toNat : Int).bmod field.size = v.bmod field.size := by
  have hsize : (field.size : Int) ≠ 0 := by
    have := field.size_pos
    omega
  rw [Int.toNat_of_nonneg (Int.emod_nonneg v hsize), Int.emod_bmod]

theorem get_putInt {field : BitField} (hfield : field.InWord) (v : Int) :
    field.get (field.putInt v) = (v % field.size).toNat := by
  have hpos := field.size_pos
  have hlt : (v % field.size).toNat < field.size := by
    have := Int.emod_lt_of_pos v (b := field.size) (by omega)
    omega
  rw [putInt, get_put hfield, Nat.mod_eq_of_lt hlt]

theorem get_putInt_of_apart {field other : BitField} (hapart : Apart field other) (v : Int) :
    field.get (other.putInt v) = 0 :=
  get_put_of_apart hapart _

theorem getInt_bounds (field : BitField) (w : Word) :
    -((field.size / 2 : Nat) : Int) ≤ field.getInt w ∧
      field.getInt w < ((field.size + 1) / 2 : Nat) := by
  have hpos := field.size_pos
  have hle := Int.le_bmod (x := field.get w) hpos
  have hlt := Int.bmod_lt (x := field.get w) hpos
  unfold getInt
  omega

end WordAssembler.BitField
