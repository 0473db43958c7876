import Mathlib.Data.Nat.Digits.Lemmas
import Mathlib.Tactic.Ring
import WordAssembler.Proofs.Numeral
import WordAssembler.Source.Literal

/-!
# Which texts are literals

A numeral is read from its first digit on, each digit added to the base times what was read before,
and the integers that come out are cut off at 64 bits only at the end. What is read is therefore the
positional value of the digits, however many zeros stand in front of them. The sign and the base are
decided by the first two characters, and none of the digits behind them can be taken for either, so
a text is a literal in one way at most.
-/

namespace WordAssembler

/-! ### Positional value -/

namespace Numeral

def WritesDigit (base : Nat) (c : Char) (d : Nat) : Prop :=
  d < base ∧ (c = Nat.digitChar d ∨ c = (Nat.digitChar d).toUpper)

/-- Holds of a non-empty run of digits of the base, the first of which counts most, and of the
number that they write. -/
def Writes (base : Nat) (cs : List Char) (n : Nat) : Prop :=
  cs ≠ [] ∧ ∃ ds, List.Forall₂ (WritesDigit base) cs ds ∧ n = Nat.ofDigits base ds.reverse

variable {base n : Nat} {cs : List Char}

theorem toNat_lt_of_digitValue? {c : Char} {d : Nat} (hd : digitValue? c = some d) :
    c.toNat < 128 := by
  have hrange : ∀ last : Char, last.toNat < 128 → c ≤ last → c.toNat < 128 := by
    intro last hlast hle
    exact Nat.lt_of_le_of_lt (UInt32.le_iff_toNat_le.mp hle) hlast
  unfold digitValue? at hd
  split_ifs at hd with hdigit hlower hupper
  · exact hrange '9' (by decide) hdigit.2
  · exact hrange 'f' (by decide) hlower.2
  · exact hrange 'F' (by decide) hupper.2

theorem digitValue?_eq_some_iff {c : Char} {d : Nat} :
    digitValue? c = some d ↔ WritesDigit 16 c d := by
  constructor
  · intro hd
    have hall : ∀ code < 128, ∀ d ∈ digitValue? (Char.ofNat code), d < 16 ∧
        (Char.ofNat code = Nat.digitChar d ∨ Char.ofNat code = (Nat.digitChar d).toUpper) := by
      decide +kernel
    have hc := hall c.toNat (toNat_lt_of_digitValue? hd) d
    rw [Char.ofNat_toNat] at hc
    exact hc hd
  · have hall : ∀ d < 16, digitValue? (Nat.digitChar d) = some d ∧
        digitValue? (Nat.digitChar d).toUpper = some d := by decide
    rintro ⟨hlt, rfl | rfl⟩
    · exact (hall d hlt).1
    · exact (hall d hlt).2

theorem digit?_eq_some_iff (hbase : base ≤ 16) {c : Char} {d : Nat} :
    digit? base c = some d ↔ WritesDigit base c d := by
  rw [digit?, Option.filter_eq_some_iff, digitValue?_eq_some_iff, decide_eq_true_eq]
  unfold WritesDigit
  constructor
  · rintro ⟨⟨-, hc⟩, hlt⟩
    exact ⟨hlt, hc⟩
  · rintro ⟨hlt, hc⟩
    exact ⟨⟨by omega, hc⟩, hlt⟩

/-- Reading digits from the left multiplies what was read before by one power of the base for each
digit still to come. -/
theorem valueFrom?_eq_some_iff (hbase : base ≤ 16) {high : Nat} :
    valueFrom? base high cs = some n ↔ ∃ ds, List.Forall₂ (WritesDigit base) cs ds ∧
      n = base ^ ds.length * high + Nat.ofDigits base ds.reverse := by
  induction cs generalizing high with
  | nil => simp [valueFrom?, eq_comm]
  | cons c cs ih =>
      have hstep : valueFrom? base high (c :: cs) = some n ↔
          ∃ d, digit? base c = some d ∧ valueFrom? base (base * high + d) cs = some n := by
        rw [valueFrom?, List.foldlM_cons, Option.bind_eq_bind, Option.bind_eq_some_iff]
        simp only [Option.map_eq_some_iff, exists_exists_and_eq_and]
        rfl
      -- The digits behind move what was read before by one place each.
      have hplaces : ∀ (d : Nat) (ds : List Nat),
          base ^ (d :: ds).length * high + Nat.ofDigits base (d :: ds).reverse =
            base ^ ds.length * (base * high + d) + Nat.ofDigits base ds.reverse := by
        intro d ds
        rw [List.reverse_cons, Nat.ofDigits_append, List.length_reverse, Nat.ofDigits_singleton,
          List.length_cons]
        ring
      simp only [hstep, digit?_eq_some_iff hbase, ih, List.forall₂_cons_left_iff]
      constructor
      · rintro ⟨d, hd, ds, hds, rfl⟩
        exact ⟨d :: ds, ⟨d, ds, hd, hds, rfl⟩, (hplaces d ds).symm⟩
      · rintro ⟨-, ⟨d, ds, hd, hds, rfl⟩, hn⟩
        exact ⟨d, hd, ds, hds, hn.trans (hplaces d ds)⟩

theorem value?_eq_some_iff (hbase : base ≤ 16) : value? base cs = some n ↔ Writes base cs n := by
  unfold value? Writes
  cases cs with
  | nil => simp
  | cons c cs =>
      rw [List.isEmpty_cons, if_neg Bool.false_ne_true, valueFrom?_eq_some_iff hbase]
      simp only [Nat.mul_zero, Nat.zero_add, ne_eq, reduceCtorEq, not_false_eq_true, true_and]

theorem writes_toDigits (hleast : 1 < base) (hbase : base ≤ 16) (n : Nat) :
    Writes base (Nat.toDigits base n) n := by
  have hdigits : ∀ d < base, digit? base (id (Nat.digitChar d)) = some d := by
    intro d hd
    exact (digit?_eq_some_iff hbase).mpr ⟨hd, Or.inl rfl⟩
  have hvalue := valueFrom?_map_toDigits (n := n) hleast hdigits
  rw [List.map_id] at hvalue
  rw [← value?_eq_some_iff hbase, value?, List.isEmpty_eq_false_iff.mpr Nat.toDigits_ne_nil,
    hvalue]
  rfl

theorem Writes.isDigit (hwrites : Writes 10 cs n) : ∀ c ∈ cs, c.isDigit := by
  have hall : ∀ d < 10, (Nat.digitChar d).isDigit ∧ (Nat.digitChar d).toUpper.isDigit := by decide
  have hdigit : ∀ c d, WritesDigit 10 c d → c.isDigit ∧ WritesDigit 10 c d := by
    intro c d hc
    refine ⟨?_, hc⟩
    obtain ⟨hlt, rfl | rfl⟩ := hc
    · exact (hall d hlt).1
    · exact (hall d hlt).2
  obtain ⟨-, ds, hds, -⟩ := hwrites
  exact ((List.forall₂_and_left cs ds).mp (hds.imp hdigit)).1

end Numeral

namespace Literal

open Numeral

def radixes : List (Char × Nat) :=
  [('b', 2), ('o', 8), ('x', 16)]

/-- The texts of literals with the integers they stand for, of any size. Only a decimal literal has
a sign. -/
inductive Denotes : List Char → Int → Prop
  | natural {digits : List Char} {n : Nat} (hwrites : Writes 10 digits n) : Denotes digits n
  | negative {digits : List Char} {n : Nat} (hwrites : Writes 10 digits n) :
      Denotes ('-' :: digits) (-n)
  | announced {letter : Char} {base : Nat} {digits : List Char} {n : Nat}
      (hbase : (letter, base) ∈ radixes) (hwrites : Writes base digits n) :
      Denotes ('0' :: letter :: digits) n

theorem integer?_of_digits {digits : List Char} (hdigits : ∀ c ∈ digits, c.isDigit) :
    integer? digits = (value? 10 digits).map Int.ofNat := by
  unfold integer?
  split
  · exact absurd (hdigits 'b' (by simp)) (by decide)
  · exact absurd (hdigits 'o' (by simp)) (by decide)
  · exact absurd (hdigits 'x' (by simp)) (by decide)
  · exact absurd (hdigits '-' (by simp)) (by decide)
  · rfl

/-- The grammar of integers: a sign, a radix and digits, in this order and with nothing else between
them. -/
theorem integer?_eq_some_iff {cs : List Char} {v : Int} : integer? cs = some v ↔ Denotes cs v := by
  constructor
  · intro hinteger
    unfold integer? at hinteger
    split at hinteger <;> obtain ⟨n, hn, rfl⟩ := Option.map_eq_some_iff.mp hinteger
    · exact .announced (by decide) ((value?_eq_some_iff (by decide)).mp hn)
    · exact .announced (by decide) ((value?_eq_some_iff (by decide)).mp hn)
    · exact .announced (by decide) ((value?_eq_some_iff (by decide)).mp hn)
    · exact .negative ((value?_eq_some_iff (by decide)).mp hn)
    · exact .natural ((value?_eq_some_iff (by decide)).mp hn)
  · intro hdenotes
    cases hdenotes with
    | natural hwrites =>
        rw [integer?_of_digits hwrites.isDigit, (value?_eq_some_iff (by decide)).mpr hwrites]
        rfl
    | negative hwrites =>
        rw [integer?, (value?_eq_some_iff (by decide)).mpr hwrites]
        rfl
    | announced hbase hwrites =>
        simp only [radixes, List.mem_cons, Prod.mk.injEq, List.not_mem_nil, or_false] at hbase
        rcases hbase with ⟨rfl, rfl⟩ | ⟨rfl, rfl⟩ | ⟨rfl, rfl⟩
        all_goals
          rw [integer?, (value?_eq_some_iff (by decide)).mpr hwrites]
          rfl

theorem parse?_eq_some_iff {s : String} {v : Int} :
    parse? s = some v ↔ InRange v ∧ Denotes s.toList v := by
  rw [parse?, Option.filter_eq_some_iff, integer?_eq_some_iff, decide_eq_true_eq, and_comm]

/-! ### Numbers as they are written -/

theorem denotes_decimalInt (v : Int) : Denotes (decimalInt v).toList v := by
  have hwrites : Writes 10 (decimal v.natAbs).toList v.natAbs :=
    (value?_eq_some_iff (by decide)).mp (value?_decimal v.natAbs)
  unfold decimalInt
  split_ifs with hneg
  · have hdenotes := Denotes.negative hwrites
    rw [Int.ofNat_natAbs_of_nonpos hneg.le, Int.neg_neg] at hdenotes
    simpa using hdenotes
  · have hdenotes := Denotes.natural hwrites
    rwa [Int.natAbs_of_nonneg (by omega)] at hdenotes

theorem parse?_decimalInt {v : Int} (hrange : InRange v) : parse? (decimalInt v) = some v :=
  parse?_eq_some_iff.mpr ⟨hrange, denotes_decimalInt v⟩

/-- Digits behind a radix that is announced are read in this radix. -/
theorem parse?_announced {letter : Char} {base : Nat} (hbase : (letter, base) ∈ radixes)
    {digits : String} {n : Nat} (hwrites : Writes base digits.toList n) (hrange : InRange n) :
    parse? (String.ofList ['0', letter] ++ digits) = some (n : Int) := by
  refine parse?_eq_some_iff.mpr ⟨hrange, ?_⟩
  rw [String.toList_append, String.toList_ofList]
  exact .announced hbase hwrites

theorem parse?_hexUpper (width : Nat) {n : Nat} (hrange : InRange n) :
    parse? ("0x" ++ hexUpper width n) = some (n : Int) :=
  parse?_announced (by decide : ('x', 16) ∈ radixes)
    ((value?_eq_some_iff (by decide)).mp (value?_hex .upper width n)) hrange

/-- **Literals.** A text is read as an integer exactly when the integer has 64 bits and the text is
decimal digits, with a minus sign or without, or digits of another base behind the letter that
announces it, whose positional value the integer is. So every integer of 64 bits is read back from
its decimal text, and one that is not negative from its text in each of the other bases. -/
theorem parse?_exact :
    (∀ (s : String) (v : Int),
      parse? s = some v ↔ (-2 ^ 63 ≤ v ∧ v < 2 ^ 63) ∧ Denotes s.toList v) ∧
    (∀ v : Int, -2 ^ 63 ≤ v → v < 2 ^ 63 → parse? (decimalInt v) = some v) ∧
    ∀ n : Nat, n < 2 ^ 63 →
      parse? ("0b" ++ String.ofList (Nat.toDigits 2 n)) = some (n : Int) ∧
      parse? ("0o" ++ String.ofList (Nat.toDigits 8 n)) = some (n : Int) ∧
      ∀ width, parse? ("0x" ++ hexLower width n) = some (n : Int) ∧
        parse? ("0x" ++ hexUpper width n) = some (n : Int) := by
  refine ⟨?_, ?_, ?_⟩
  · intro s v
    exact parse?_eq_some_iff
  · intro v hleast hgreatest
    exact parse?_decimalInt ⟨hleast, hgreatest⟩
  · intro n hn
    have hrange : InRange n := by
      unfold InRange
      omega
    have hwrites : ∀ base, 1 < base → base ≤ 16 →
        Writes base (String.ofList (Nat.toDigits base n)).toList n := by
      intro base hleast hgreatest
      rw [String.toList_ofList]
      exact writes_toDigits hleast hgreatest n
    refine ⟨?_, ?_, fun width => ⟨?_, parse?_hexUpper width hrange⟩⟩
    · exact parse?_announced (by decide : ('b', 2) ∈ radixes)
        (hwrites 2 (by decide) (by decide)) hrange
    · exact parse?_announced (by decide : ('o', 8) ∈ radixes)
        (hwrites 8 (by decide) (by decide)) hrange
    · exact parse?_announced (by decide : ('x', 16) ∈ radixes)
        ((value?_eq_some_iff (by decide)).mp (value?_hex .lower width n)) hrange

theorem parse?_exact_bounds :
    parse? "-9223372036854775808" = some (-2 ^ 63) ∧
    parse? "0x00007fffffffffffffff" = some (2 ^ 63 - 1) := by
  have hleast : decimalInt (-2 ^ 63) = "-9223372036854775808" := by decide +kernel
  have hgreatest : "0x" ++ hexLower 20 (2 ^ 63 - 1) = "0x00007fffffffffffffff" := by
    decide +kernel
  rw [← hleast, ← hgreatest]
  exact ⟨parse?_exact.2.1 (-2 ^ 63) (by decide) (by decide),
    ((parse?_exact.2.2 (2 ^ 63 - 1) (by decide)).2.2 20).1⟩

example : parse? "9223372036854775808" = none ∧ parse? "0x8000000000000000" = none ∧
    parse? "--1" = none ∧ parse? "0x" = none ∧ parse? "0x-1" = none := by decide +kernel

end Literal

end WordAssembler
