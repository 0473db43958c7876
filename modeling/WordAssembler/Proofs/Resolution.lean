import WordAssembler.Operation.Truncation
import WordAssembler.Proofs.Decoding
import WordAssembler.Proofs.Pass

/-!
# What resolving an operation gives

Resolving looks at the labels only to find the offset that a jump's target token stands for. A
label is looked up before a literal is read, so a label may be spelled like a number and hides the
number then. An offset that does not fit its field is refused with the offset that was asked for,
and an immediate always fits, since only its low bits are kept.

So all that matters about an operation is whether it has a target token, and how wide the field of
its offset is. Two equations say what resolving gives in either case, and the rest follows from them
without a look at the forms of the operations.
-/

namespace WordAssembler.Operation

open BitField Instruction

def token? : Operation → Option String
  | .condJump _ _ (.val token) => some token
  | .jump _ (.val token) => some token
  | _ => none

/-- The token with the width of the field that its offset has to fit. -/
def target? : Operation → Option (String × Nat)
  | .condJump _ _ (.val token) => some (token, condOffset.width)
  | .jump _ (.val token) => some (token, jumpOffset.width)
  | _ => none

theorem token?_eq (op : Operation) : op.token? = op.target?.map Prod.fst := by
  rcases op with _ | _ | _ | ⟨m, c, t | token⟩ | ⟨m, t | token⟩ | _ <;> rfl

def lowByte (op : Operation) (v : Int) : UInt8 :=
  match op.immediate? with
  | some (_, bits) => UInt8.ofNat (lowBits bits v)
  | none => 0

/-- Holds of the offset that a token stands for in a jump at the given address: to the label of
that name if there is one, else the token read as a literal. -/
def StandsFor (labels : LabelTable) (address : Nat) (token : String) (v : Int) : Prop :=
  (∀ destination, labels.address? token = some destination →
    (address : Int) + 1 + v = destination) ∧
    (labels.address? token = none → Literal.parse? token = some v)

section Offset

variable {labels : LabelTable} {address : Nat} {token : String}

theorem offset_eq_ok {v : Int} :
    offset labels address token = .ok v ↔ StandsFor labels address token v := by
  unfold offset StandsFor
  cases labels.address? token with
  | some destination =>
      simp only [Except.ok.injEq, Option.some.injEq, forall_eq', reduceCtorEq, false_implies,
        and_true]
      omega
  | none =>
      cases hparse : Literal.parse? token with
      | some u => simp
      | none =>
          by_cases hnumeric : Literal.looksNumeric token
          · simp [hnumeric]
          · simp [hnumeric]

theorem offset_eq_error {fault : Fault} (hoffset : offset labels address token = .error fault) :
    fault = .invalidLiteral token ∨ fault = .undefinedLabel token := by
  unfold offset at hoffset
  split at hoffset
  · cases hoffset
  · split at hoffset
    · cases hoffset
    · split at hoffset
      · cases hoffset
        exact Or.inl rfl
      · cases hoffset
        exact Or.inr rfl

theorem boundedOffset_eq_ok {bits : Nat} {v : Int} {o : Int16} :
    boundedOffset bits v = .ok o ↔
      (leastSigned bits ≤ v ∧ v ≤ greatestSigned bits) ∧ Int16.ofInt v = o := by
  unfold boundedOffset
  split
  · simp only [reduceCtorEq, false_iff]
    omega
  · have hbounds : leastSigned bits ≤ v ∧ v ≤ greatestSigned bits := by omega
    simp only [Except.ok.injEq, hbounds, and_self, true_and]

theorem boundedOffset_eq_error {bits : Nat} {v : Int} {fault : Fault} :
    boundedOffset bits v = .error fault ↔ (v < leastSigned bits ∨ greatestSigned bits < v) ∧
      fault = .branchOutOfRange v (leastSigned bits) (greatestSigned bits) := by
  unfold boundedOffset
  split
  · simp_all [eq_comm]
  · simp_all

end Offset

section Resolve

variable {labels other : LabelTable} {address address' bits : Nat} {op : Operation}
  {token : String} {i : Instruction}

/-- An operation without a target token is resolved, whatever the labels are. -/
theorem resolve_of_target?_eq_none (hnone : op.target? = none) (labels : LabelTable)
    (address : Nat) : op.resolve labels address = .ok (op.map op.lowByte fun _ => 0) := by
  rcases op with ⟨m, d, a, b | v⟩ | ⟨m, d, v⟩ | ⟨m, d, a⟩ | ⟨m, c, t | token⟩ | ⟨m, t | token⟩ | ⟨m⟩
  case condJump.val => cases hnone
  case jump.val => cases hnone
  all_goals rfl

/-- A jump to a token takes its offset from the token, if the field has room for it. -/
theorem resolve_of_target?_eq_some (htarget : op.target? = some (token, bits)) :
    op.resolve labels address = (do
      let v ← offset labels address token
      let o ← boundedOffset bits v
      return op.map (fun _ => 0) fun _ => o) := by
  rcases op with _ | _ | _ | ⟨m, c, t | token⟩ | ⟨m, t | token⟩ | _
  case condJump.val =>
    cases htarget
    simp only [resolve, resolveTarget, bind_assoc, pure_bind, Form.map, Operand.map]
  case jump.val =>
    cases htarget
    simp only [resolve, resolveTarget, bind_assoc, pure_bind, Form.map, Operand.map]
  all_goals cases htarget

/-- A jump is resolved exactly where its token stands for an offset in the range of its field. -/
theorem resolve_eq_ok_iff (htarget : op.target? = some (token, bits)) :
    op.resolve labels address = .ok i ↔ ∃ v, StandsFor labels address token v ∧
      (leastSigned bits ≤ v ∧ v ≤ greatestSigned bits) ∧
      op.map (fun _ => 0) (fun _ => Int16.ofInt v) = i := by
  rw [resolve_of_target?_eq_some htarget]
  simp only [Pass.bind_eq_ok, Pass.pure_eq_ok, offset_eq_ok, boundedOffset_eq_ok]
  constructor
  · rintro ⟨v, hv, o, ⟨hbounds, rfl⟩, hresolved⟩
    exact ⟨v, hv, hbounds, hresolved⟩
  · rintro ⟨v, hv, hbounds, hresolved⟩
    exact ⟨v, hv, _, ⟨hbounds, rfl⟩, hresolved⟩

theorem resolve_eq_error_iff (htarget : op.target? = some (token, bits)) {fault : Fault} :
    op.resolve labels address = .error fault ↔
      offset labels address token = .error fault ∨ ∃ v, StandsFor labels address token v ∧
        (v < leastSigned bits ∨ greatestSigned bits < v) ∧
        fault = .branchOutOfRange v (leastSigned bits) (greatestSigned bits) := by
  rw [resolve_of_target?_eq_some htarget]
  simp only [Pass.bind_eq_error, offset_eq_ok, boundedOffset_eq_error]
  apply or_congr_right
  constructor
  · rintro ⟨v, hv, hout | ⟨o, -, hpure⟩⟩
    · exact ⟨v, hv, hout⟩
    · cases hpure
  · rintro ⟨v, hv, hout⟩
    exact ⟨v, hv, Or.inl hout⟩

/-- A token that stands for no offset is refused for another reason, so only the range of the field
brings this fault about. -/
theorem resolve_eq_outOfRange_iff (htarget : op.target? = some (token, bits))
    {v least greatest : Int} :
    op.resolve labels address = .error (.branchOutOfRange v least greatest) ↔
      StandsFor labels address token v ∧ (v < leastSigned bits ∨ greatestSigned bits < v) ∧
        least = leastSigned bits ∧ greatest = greatestSigned bits := by
  rw [resolve_eq_error_iff htarget]
  constructor
  · rintro (hoffset | ⟨u, hu, hout, hfault⟩)
    · rcases offset_eq_error hoffset with hfault | hfault
      · cases hfault
      · cases hfault
    · cases hfault
      exact ⟨hu, hout, rfl, rfl⟩
  · rintro ⟨hv, hout, rfl, rfl⟩
    exact Or.inr ⟨v, hv, hout, rfl⟩

theorem resolve_ne_duplicateLabel (op : Operation) (name : String) :
    op.resolve labels address ≠ .error (.duplicateLabel name) := by
  intro hresolve
  cases htarget : op.target? with
  | none =>
      rw [resolve_of_target?_eq_none htarget] at hresolve
      cases hresolve
  | some target =>
      rcases (resolve_eq_error_iff htarget).mp hresolve with hoffset | ⟨v, -, -, hfault⟩
      · rcases offset_eq_error hoffset with hfault | hfault
        · cases hfault
        · cases hfault
      · cases hfault

/-- Resolving sees no more of the labels and of the address than the offset of the token. -/
theorem resolve_congr (hoffset : ∀ token, op.token? = some token →
      offset labels address token = offset other address' token) :
    op.resolve labels address = op.resolve other address' := by
  cases htarget : op.target? with
  | none => rw [resolve_of_target?_eq_none htarget, resolve_of_target?_eq_none htarget]
  | some target =>
      have htoken : op.token? = some target.1 := by rw [token?_eq, htarget, Option.map_some]
      rw [resolve_of_target?_eq_some htarget, resolve_of_target?_eq_some htarget,
        hoffset target.1 htoken]

/-- Resolving replaces immediates and targets, and keeps the mnemonic and the registers. -/
theorem exists_map_of_resolve (hresolve : op.resolve labels address = .ok i) :
    ∃ (immediate : Int → UInt8) (target : String → Int16), i = op.map immediate target := by
  cases htarget : op.target? with
  | none =>
      rw [resolve_of_target?_eq_none htarget, Except.ok.injEq] at hresolve
      exact ⟨_, _, hresolve.symm⟩
  | some target =>
      obtain ⟨v, -, -, hresolved⟩ := (resolve_eq_ok_iff htarget).mp hresolve
      exact ⟨_, _, hresolved.symm⟩

/-! ### Operands fit -/

theorem toInt_ofInt {v : Int} (hbounds : -1024 ≤ v ∧ v ≤ 1023) : (Int16.ofInt v).toInt = v :=
  Int16.toInt_ofInt_of_le (by omega) (by omega)

/-- No jump has a wider field than eleven bits. -/
theorem bounds_of_target? (htarget : op.target? = some (token, bits)) {v : Int}
    (hbounds : leastSigned bits ≤ v ∧ v ≤ greatestSigned bits) : -1024 ≤ v ∧ v ≤ 1023 := by
  have hwidth : bits = 8 ∨ bits = 11 := by
    rcases op with _ | _ | _ | ⟨m, c, t | token⟩ | ⟨m, t | token⟩ | _ <;> cases htarget
    · exact Or.inl rfl
    · exact Or.inr rfl
  rcases hwidth with rfl | rfl
  · have hleast : leastSigned 8 = -128 := rfl
    have hgreatest : greatestSigned 8 = 127 := rfl
    omega
  · exact hbounds

theorem operandsFit_of_target? (htarget : op.target? = some (token, bits)) {v : Int}
    (hbounds : leastSigned bits ≤ v ∧ v ≤ greatestSigned bits) :
    OperandsFit (op.map (fun _ => 0) fun _ => Int16.ofInt v) := by
  have hoffset := toInt_ofInt (bounds_of_target? htarget hbounds)
  rcases op with _ | _ | _ | ⟨m, c, t | token⟩ | ⟨m, t | token⟩ | _ <;> cases htarget
  all_goals
    simp only [Form.map, Operand.map, OperandsFit, hoffset]
    exact hbounds

theorem operandsFit_map_lowByte (hnone : op.target? = none) :
    OperandsFit (op.map op.lowByte fun _ => 0) := by
  rcases op with ⟨m, d, a, b | v⟩ | ⟨m, d, v⟩ | ⟨m, d, a⟩ | ⟨m, c, t | token⟩ | ⟨m, t | token⟩ | ⟨m⟩
  case alu.val =>
    have hlow : lowBits aluImmediate.width v < 16 := by
      have hmod := Int.emod_lt_of_pos v (b := 16) (by decide)
      change (v % 16).toNat < 16
      omega
    change (UInt8.ofNat (lowBits aluImmediate.width v)).toNat < 16
    rw [UInt8.toNat_ofNat']
    exact Nat.lt_of_le_of_lt (Nat.mod_le _ _) hlow
  case condJump.val => cases hnone
  case jump.val => cases hnone
  all_goals trivial

theorem operandsFit_of_resolve (hresolve : op.resolve labels address = .ok i) :
    i.OperandsFit := by
  cases htarget : op.target? with
  | none =>
      rw [resolve_of_target?_eq_none htarget, Except.ok.injEq] at hresolve
      rw [← hresolve]
      exact operandsFit_map_lowByte htarget
  | some target =>
      obtain ⟨v, -, hbounds, rfl⟩ := (resolve_eq_ok_iff htarget).mp hresolve
      exact operandsFit_of_target? htarget hbounds

/-- Resolution gives canonical instructions only: it cuts immediates down to their fields and
refuses offsets that lie outside theirs. -/
theorem canonical_of_resolve (hfamily : op.mnemonic.family = op.family)
    (hresolve : op.resolve labels address = .ok i) : i.Canonical := by
  refine ⟨?_, operandsFit_of_resolve hresolve⟩
  obtain ⟨immediate, target, rfl⟩ := exists_map_of_resolve hresolve
  rw [Form.mnemonic_map, Form.family_map, hfamily]

end Resolve

end WordAssembler.Operation
