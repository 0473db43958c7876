import Mathlib.Tactic.NormNum
import WordAssembler.Text.Numeral

/-!
# Numerals are read back

A number is written with the digits of a base and is read back from them, whatever zeros are put in
front and whichever case its letters have.
-/

namespace WordAssembler.Numeral

variable {base n width : Nat}

/-- The digits of a number are read back, also where each is written in another way than usual. -/
theorem valueFrom?_map_toDigits {write : Char → Char} (hbase : 1 < base)
    (hwrite : ∀ d < base, digit? base (write (Nat.digitChar d)) = some d) :
    valueFrom? base 0 ((Nat.toDigits base n).map write) = some n := by
  induction n using Nat.strongRecOn with
  | ind n ih =>
      by_cases hlt : n < base
      · simp [Nat.toDigits_of_lt_base hlt, valueFrom?, hwrite n hlt]
      · have hdiv : n / base < n := Nat.div_lt_self (by omega) hbase
        have hmod : n % base < base := Nat.mod_lt n (by omega)
        have hhigh := ih (n / base) hdiv
        rw [valueFrom?] at hhigh ⊢
        rw [Nat.toDigits_of_base_le hbase (by omega), List.map_append, List.foldlM_append, hhigh]
        simp [hwrite _ hmod, Nat.div_add_mod]

theorem exists_of_mem_toDigits (hbase : 1 < base) {c : Char} (hc : c ∈ Nat.toDigits base n) :
    ∃ d < base, c = Nat.digitChar d := by
  induction n using Nat.strongRecOn with
  | ind n ih =>
      by_cases hlt : n < base
      · rw [Nat.toDigits_of_lt_base hlt, List.mem_singleton] at hc
        exact ⟨n, hlt, hc⟩
      · rw [Nat.toDigits_of_base_le hbase (by omega), List.mem_append, List.mem_singleton] at hc
        rcases hc with hc | hc
        · exact ih (n / base) (Nat.div_lt_self (by omega) hbase) hc
        · exact ⟨n % base, Nat.mod_lt n (by omega), hc⟩

/-- Leading zeros do not count. -/
theorem valueFrom?_zeros_append (hzero : digit? base '0' = some 0) (count : Nat)
    (ds : List Char) :
    valueFrom? base 0 (List.replicate count '0' ++ ds) = valueFrom? base 0 ds := by
  induction count with
  | zero => rfl
  | succ count ih =>
      rw [List.replicate_succ, List.cons_append, ← ih, valueFrom?, List.foldlM_cons, hzero]
      rfl

theorem value?_leftpad (hzero : digit? base '0' = some 0) {ds : List Char} (hne : ds ≠ []) :
    value? base (ds.leftpad width '0') = valueFrom? base 0 ds := by
  have hpadded : ds.leftpad width '0' ≠ [] := by simp [List.leftpad, hne]
  rw [value?, List.isEmpty_eq_false_iff.mpr hpadded, List.leftpad,
    valueFrom?_zeros_append hzero]
  rfl

theorem value?_decimal (n : Nat) : value? 10 (decimal n).toList = some n := by
  have hdigits : ∀ d < 10, digit? 10 (id (Nat.digitChar d)) = some d := by decide
  have hvalue := valueFrom?_map_toDigits (n := n) (by decide) hdigits
  rw [List.map_id] at hvalue
  rw [decimal, String.toList_ofList, value?, List.isEmpty_eq_false_iff.mpr Nat.toDigits_ne_nil,
    hvalue]
  rfl

theorem digit?_write (letters : LetterCase) :
    ∀ d < 16, digit? 16 (letters.write (Nat.digitChar d)) = some d := by
  cases letters <;> decide

/-- Hexadecimal digits are read back whatever their case and however they are padded. -/
theorem value?_hex (letters : LetterCase) (width n : Nat) :
    value? 16 (hex letters width n).toList = some n := by
  have hne : (Nat.toDigits 16 n).map letters.write ≠ [] := by simp [Nat.toDigits_ne_nil]
  rw [hex, String.toList_ofList, value?_leftpad (by decide) hne,
    valueFrom?_map_toDigits (by decide) (digit?_write letters)]

theorem decimal_injective : Function.Injective decimal := by
  intro n m heq
  have hvalue := value?_decimal n
  rw [heq, value?_decimal] at hvalue
  exact (Option.some.inj hvalue).symm

theorem hex_injective (letters : LetterCase) (width : Nat) :
    Function.Injective (hex letters width) := by
  intro n m heq
  have hvalue := value?_hex letters width n
  rw [heq, value?_hex] at hvalue
  exact (Option.some.inj hvalue).symm

/-! ### Characters and length -/

theorem length_hex (letters : LetterCase) (hwidth : 0 < width) (hn : n < 16 ^ width) :
    (hex letters width n).toList.length = width := by
  have hle : (Nat.toDigits 16 n).length ≤ width :=
    (Nat.length_toDigits_le_iff (by decide) hwidth).mpr hn
  rw [hex, String.toList_ofList, List.length_leftpad, List.length_map, Nat.max_eq_left hle]

/-- The zeros in front are digits too, so every character is one of the sixteen digits. -/
theorem mem_hex {letters : LetterCase} {c : Char} (hc : c ∈ (hex letters width n).toList) :
    ∃ d < 16, c = letters.write (Nat.digitChar d) := by
  rw [hex, String.toList_ofList, List.leftpad, List.mem_append] at hc
  rcases hc with hzero | hdigit
  · have hwrite : letters.write (Nat.digitChar 0) = '0' := by cases letters <;> rfl
    exact ⟨0, by decide, (List.mem_replicate.mp hzero).2.trans hwrite.symm⟩
  · obtain ⟨usual, husual, rfl⟩ := List.mem_map.mp hdigit
    obtain ⟨d, hd, rfl⟩ := exists_of_mem_toDigits (by decide) husual
    exact ⟨d, hd, rfl⟩

structure HexWord (alphabet digits : String) (n : Nat) : Prop where
  length_eq : digits.toList.length = 4
  mem_alphabet : ∀ c ∈ digits.toList, c ∈ alphabet.toList
  value_eq : value? 16 digits.toList = some n

/-- A word is written with four hexadecimal digits, no more and no fewer, from which it can be read
back. -/
theorem hexWord_hex {letters : LetterCase} {alphabet : String}
    (halphabet : ∀ d < 16, letters.write (Nat.digitChar d) ∈ alphabet.toList) (hn : n < 65536) :
    HexWord alphabet (hex letters 4 n) n where
  length_eq := length_hex letters (by decide) hn
  mem_alphabet := by
    intro c hc
    obtain ⟨d, hd, rfl⟩ := mem_hex hc
    exact halphabet d hd
  value_eq := value?_hex letters 4 n

theorem toList_decimal_ne_nil (n : Nat) : (decimal n).toList ≠ [] := by
  rw [decimal, String.toList_ofList]
  exact Nat.toDigits_ne_nil

theorem mem_decimal {c : Char} (hc : c ∈ (decimal n).toList) : c.isDigit := by
  rw [decimal, String.toList_ofList] at hc
  exact Nat.isDigit_of_mem_toDigits (by decide) (by decide) hc

end WordAssembler.Numeral
