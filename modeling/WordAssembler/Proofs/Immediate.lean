import WordAssembler.Proofs.Assembly
import WordAssembler.Proofs.Literal

/-!
# Immediates keep their low bits

An immediate is cut down to its field without being refused. What stands in the field afterwards is
the residue of the immediate, and whether anything was lost by that is a question of how the field
is read: as an unsigned number or in two's complement. The range that goes without a warning, from
the least signed number of the field to its greatest unsigned one, is made of the integers that one
of the two readings gives back.
-/

namespace WordAssembler

open SourceLine Instruction Numeral

/-- The integer that a field of the given width stands for in two's complement, if it stands for
`field` without a sign. -/
def signedReading (bits : Nat) (field : Int) : Int :=
  if field < 2 ^ (bits - 1) then field else field - 2 ^ bits

/-- Holds of an integer that neither reading of its low bits gives back. -/
def Lossy (bits : Nat) (v : Int) : Prop :=
  v ≠ v % 2 ^ bits ∧ v ≠ signedReading bits (v % 2 ^ bits)

instance (bits : Nat) (v : Int) : Decidable (Lossy bits v) :=
  inferInstanceAs (Decidable (_ ∧ _))

section Residue

variable {bits : Nat} {v : Int}

theorem lowBits_eq_emod (bits : Nat) (v : Int) : (lowBits bits v : Int) = v % 2 ^ bits := by
  have hpos : (0 : Int) < 2 ^ bits := by positivity
  rw [lowBits, Nat.one_shiftLeft, Nat.cast_pow, Nat.cast_ofNat,
    Int.toNat_of_nonneg (Int.emod_nonneg v hpos.ne')]

/-- A byte has room for the residue of a field no wider than it. -/
theorem toNat_ofNat_lowBits (hbits : bits ≤ 8) (v : Int) :
    ((UInt8.ofNat (lowBits bits v)).toNat : Int) = v % 2 ^ bits := by
  have hpow : (2 : Int) ^ bits ≤ 2 ^ 8 := pow_le_pow_right₀ (by decide) hbits
  have hlt : v % 2 ^ bits < 2 ^ bits := Int.emod_lt_of_pos v (by positivity)
  have hlow := lowBits_eq_emod bits v
  have hbyte : lowBits bits v < 256 := by omega
  rw [UInt8.toNat_ofNat', Nat.mod_eq_of_lt hbyte, hlow]

/-- The range that goes without a warning is made of the integers that one of the two readings gives
back. -/
theorem fits_iff_not_lossy (hbits : 0 < bits) : Operation.Fits bits v ↔ ¬Lossy bits v := by
  obtain ⟨width, rfl⟩ : ∃ width, bits = width + 1 := ⟨bits - 1, by omega⟩
  -- With `half` for the weight of the highest bit, the modulus is `2 * half`.
  obtain ⟨half, hhalf⟩ : ∃ half : Int, (2 : Int) ^ width = half := ⟨_, rfl⟩
  have hpos : 0 < half := by
    rw [← hhalf]
    positivity
  have hmodulus : (2 : Int) ^ (width + 1) = 2 * half := by rw [pow_succ, hhalf, mul_comm]
  have hfits : Operation.Fits (width + 1) v ↔ -half ≤ v ∧ v < 2 * half := by
    rw [Operation.Fits, leastSigned, Nat.one_shiftLeft, Nat.one_shiftLeft, Nat.add_sub_cancel,
      Nat.cast_pow, Nat.cast_pow, Nat.cast_ofNat, hmodulus, hhalf]
  have hnonneg := Int.emod_nonneg v (b := 2 * half) (by omega)
  have hlt := Int.emod_lt_of_pos v (b := 2 * half) (by omega)
  rw [hfits, Lossy, signedReading, Nat.add_sub_cancel, hmodulus, hhalf, not_and_or, not_not,
    not_not]
  constructor
  · rintro ⟨hleast, hgreatest⟩
    by_cases hsign : 0 ≤ v
    · left
      exact (Int.emod_eq_of_lt hsign hgreatest).symm
    · right
      have hresidue : v % (2 * half) = v + 2 * half := by
        rw [← Int.add_emod_right]
        exact Int.emod_eq_of_lt (by omega) (by omega)
      rw [hresidue, if_neg (by omega)]
      omega
  · rintro (hunsigned | hsigned)
    · omega
    · split_ifs at hsigned <;> omega

end Residue

/-! ### One operation -/

namespace Operation

/-- What is known of an operation's immediate `v` once a field of the given width holds the byte
`u`: the byte is its residue, a truncation is told exactly where neither reading of the byte is `v`,
and what is told names both. -/
structure Told (op : Operation) (bits : Nat) (v : Int) (u : UInt8) : Prop where
  residue : (u.toNat : Int) = v % 2 ^ bits
  isSome_iff : (truncation? op).isSome ↔ v ≠ u.toNat ∧ v ≠ signedReading bits u.toNat
  message : ∀ t, truncation? op = some t → ∃ value digits, Literal.Denotes value.toList v ∧
    Writes 16 digits.toList u.toNat ∧ t.message = "Immediate `" ++ value ++
      "` does not fit in " ++ decimal bits ++ " bits, truncated to 0x" ++ digits

def lossIn? (bits : Nat) (v : Int) : Option Truncation :=
  if Lossy bits v then some ⟨v, bits⟩ else none

def loss? : Operation → Option Truncation
  | .alu _ _ _ (.val v) => lossIn? 4 v
  | .loadImm _ _ v => lossIn? 8 v
  | _ => none

variable {op : Operation} {bits : Nat} {v : Int}

theorem truncation?_of_immediate? (hbits : 0 < bits) (himmediate : op.immediate? = some (v, bits)) :
    truncation? op = lossIn? bits v := by
  have hfits := fits_iff_not_lossy (v := v) hbits
  unfold truncation? lossIn?
  rw [himmediate]
  by_cases hlossy : Lossy bits v
  · simp only [hfits, hlossy, not_true, if_false, if_true]
  · simp only [hfits, hlossy, not_false_iff, if_false, if_true]

theorem truncation?_eq_loss? (op : Operation) : truncation? op = loss? op := by
  rcases op with ⟨m, d, a, b | v⟩ | ⟨m, d, v⟩ | ⟨m, d, a⟩ | ⟨m, c, t⟩ | ⟨m, t⟩ | ⟨m⟩
  · rfl
  · exact truncation?_of_immediate? (by decide) rfl
  · exact truncation?_of_immediate? (by decide) rfl
  · rfl
  · rfl
  · rfl
  · rfl

theorem isSome_lossIn? : (lossIn? bits v).isSome ↔ Lossy bits v := by
  unfold lossIn?
  split_ifs with hlossy <;> simp [hlossy]

/-- What a truncation tells does not depend on the family, only on the width of the field. -/
theorem told_of_immediate? (hpos : 0 < bits) (hbits : bits ≤ 8)
    (himmediate : op.immediate? = some (v, bits)) :
    Told op bits v (UInt8.ofNat (lowBits bits v)) := by
  have hresidue := toNat_ofNat_lowBits hbits v
  have htruncation := truncation?_of_immediate? hpos himmediate
  refine ⟨hresidue, ?_, ?_⟩
  · rw [htruncation, isSome_lossIn?, Lossy, hresidue]
  · intro t ht
    rw [htruncation, lossIn?] at ht
    split_ifs at ht
    cases ht
    have hfield : (UInt8.ofNat (lowBits bits v)).toNat = lowBits bits v := by
      have hlow := lowBits_eq_emod bits v
      omega
    refine ⟨decimalInt v, hexUpper 1 (lowBits bits v), Literal.denotes_decimalInt v, ?_, rfl⟩
    rw [hfield]
    exact (value?_eq_some_iff (by decide)).mp (value?_hex .upper 1 _)

theorem resolve_of_immediate? (himmediate : op.immediate? = some (v, bits)) (labels : LabelTable)
    (address : Nat) : op.resolve labels address =
      .ok (op.map (fun _ => UInt8.ofNat (lowBits bits v)) fun _ => 0) := by
  rcases op with ⟨m, d, a, b | v⟩ | ⟨m, d, v⟩ | _ | _ | _ | _ <;> cases himmediate <;> rfl

/-- One lemma for both families with an immediate: an immediate is resolved to its low bits, which
fit the field and so come back from the word. -/
theorem resolve_told (op : Operation) (hfamily : op.mnemonic.family = op.family)
    (himmediate : op.immediate? = some (v, bits)) (labels : LabelTable) (address : Nat) :
    ∃ i u, op.resolve labels address = .ok i ∧
      decode? (encode i) = some (op.map (fun _ => u) fun _ => 0) ∧ Told op bits v u := by
  have hwidth : 0 < bits ∧ bits ≤ 8 := by
    rcases op with ⟨m, d, a, b | v⟩ | ⟨m, d, v⟩ | _ | _ | _ | _ <;> cases himmediate <;> decide
  have hresolve := resolve_of_immediate? himmediate labels address
  refine ⟨_, _, hresolve, ?_, told_of_immediate? hwidth.1 hwidth.2 himmediate⟩
  exact decode?_encode (canonical_of_resolve hfamily hresolve)

end Operation

/-! ### A whole program -/

def Statement.lossWarning? (statement : Statement) : Option Warning :=
  ((Operation.parse statement.code).toOption.bind Operation.loss?).map (⟨statement.line, ·⟩)

theorem warning?_of_assemble {labels : LabelTable} {statement : Statement} {listed : Listed}
    (hlisted : statement.assemble labels = .ok listed) :
    listed.warning? = statement.lossWarning? := by
  obtain ⟨hstatement, hparse, -⟩ := Statement.assemble_eq_ok.mp hlisted
  rw [Listed.warning?, Operation.truncation?_eq_loss?, hstatement, Statement.lossWarning?, hparse]
  rfl

/-- The warnings of a listing can be read off its statements, without the labels. -/
theorem filterMap_warning? {labels : LabelTable} {statements : List Statement}
    {listing : List Listed} (hlisting : List.Forall₂
      (fun statement listed => statement.assemble labels = .ok listed) statements listing) :
    listing.filterMap Listed.warning? = statements.filterMap Statement.lossWarning? := by
  induction hlisting with
  | nil => rfl
  | cons hlisted hrest ih =>
      rw [List.filterMap_cons, List.filterMap_cons, warning?_of_assemble hlisted, ih]

theorem warnings_eq_filterMap {source : String} {assembly : Assembly}
    (hassemble : assemble source = .ok assembly) :
    ∃ layout, Layout.ofLines (kept source) = .ok layout ∧
      assembly.warnings = layout.statements.toList.filterMap Statement.lossWarning? := by
  obtain ⟨layout, hlayout, hassembly⟩ := Pass.bind_eq_ok.mp hassemble
  obtain ⟨-, hlisting, -⟩ := Assembly.ofLayout_eq_ok.mp hassembly
  exact ⟨layout, hlayout, filterMap_warning? hlisting⟩

/-- **Immediates.** Any integer may stand as an immediate. The word decodes to the same instruction
with the residue of the integer in its field, and a truncation is told exactly where the integer is
neither the unsigned nor the signed reading of that field, in a message that names the integer and
the field. The warnings of an assembly are those of its statements whose immediates are lossy, in
the order of the source, each on the line of its statement. -/
theorem immediates_exact :
    (∀ (v : Int) (m : Mnemonic) (d a : Register) (labels : LabelTable) (address : Nat),
      m.family = .alu → ∃ i u, Operation.resolve labels address (.alu m d a (.val v)) = .ok i ∧
        decode? (encode i) = some (.alu m d a (.val u)) ∧
        Operation.Told (.alu m d a (.val v)) 4 v u) ∧
    (∀ (v : Int) (m : Mnemonic) (d : Register) (labels : LabelTable) (address : Nat),
      m.family = .loadImm → ∃ i u, Operation.resolve labels address (.loadImm m d v) = .ok i ∧
        decode? (encode i) = some (.loadImm m d u) ∧
        Operation.Told (.loadImm m d v) 8 v u) ∧
    ∀ source assembly, assemble source = .ok assembly →
      ∃ layout, Layout.ofLines (kept source) = .ok layout ∧
        assembly.warnings = layout.statements.toList.filterMap Statement.lossWarning? := by
  refine ⟨?_, ?_, ?_⟩
  · intro v m d a labels address hfamily
    exact Operation.resolve_told (.alu m d a (.val v)) hfamily rfl labels address
  · intro v m d labels address hfamily
    exact Operation.resolve_told (.loadImm m d v) hfamily rfl labels address
  · intro source assembly hassemble
    exact warnings_eq_filterMap hassemble

theorem immediates_exact_past_signed :
    (∃ i u, Operation.resolve ∅ 0 (.alu .sub .r1 .r6 (.val (-9))) = .ok i ∧
      decode? (encode i) = some (.alu .sub .r1 .r6 (.val u)) ∧ u.toNat = 7 ∧
      (Operation.truncation? (.alu .sub .r1 .r6 (.val (-9)))).isSome) ∧
    (∃ i u, Operation.resolve ∅ 0 (.loadImm .ldsi .r2 (-128)) = .ok i ∧
      decode? (encode i) = some (.loadImm .ldsi .r2 u) ∧ u.toNat = 128 ∧
      Operation.truncation? (.loadImm .ldsi .r2 (-128)) = none) ∧
    ∃ assembly, assemble "ldi r0, 255\n\nadd r1, r1, 0x10\njmp 511\nldhi r2, -129" = .ok assembly ∧
      assembly.warnings =
        [⟨⟨3, "add r1, r1, 0x10"⟩, ⟨16, 4⟩⟩, ⟨⟨5, "ldhi r2, -129"⟩, ⟨-129, 8⟩⟩] := by
  refine ⟨?_, ?_, ?_⟩
  · obtain ⟨i, u, hresolve, hdecode, htold⟩ :=
      immediates_exact.1 (-9) .sub .r1 .r6 ∅ 0 (by decide)
    have hfield : u.toNat = 7 := by
      have hresidue := htold.residue
      omega
    refine ⟨i, u, hresolve, hdecode, hfield, htold.isSome_iff.mpr ?_⟩
    rw [hfield]
    decide
  · obtain ⟨i, u, hresolve, hdecode, htold⟩ :=
      immediates_exact.2.1 (-128) .ldsi .r2 ∅ 0 (by decide)
    have hfield : u.toNat = 128 := by
      have hresidue := htold.residue
      omega
    refine ⟨i, u, hresolve, hdecode, hfield, ?_⟩
    rw [← Option.not_isSome_iff_eq_none, htold.isSome_iff, hfield]
    decide
  · have hassembled : (assemble
        "ldi r0, 255\n\nadd r1, r1, 0x10\njmp 511\nldhi r2, -129").toOption.map
          (·.listing.length) = some 4 := by decide +kernel
    have hlaidOut : (Layout.ofLines (kept
        "ldi r0, 255\n\nadd r1, r1, 0x10\njmp 511\nldhi r2, -129")).toOption.map
          (·.statements.toList.filterMap Statement.lossWarning?) =
        some [⟨⟨3, "add r1, r1, 0x10"⟩, ⟨16, 4⟩⟩, ⟨⟨5, "ldhi r2, -129"⟩, ⟨-129, 8⟩⟩] := by
      decide +kernel
    obtain ⟨assembly, hassemble, -⟩ := Pass.map_toOption_eq_some.mp hassembled
    obtain ⟨layout, hlayout, hwarnings⟩ := immediates_exact.2.2 _ assembly hassemble
    rw [hlayout] at hlaidOut
    exact ⟨assembly, hassemble, hwarnings.trans (Option.some.inj hlaidOut)⟩

end WordAssembler
