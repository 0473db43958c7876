import WordAssembler.Machine.Disassembly
import WordAssembler.Proofs.Content
import WordAssembler.Proofs.Numeral

/-!
# Instructions without their styles

A listing is written for a terminal. Once escape sequences and plus signs are taken out of it, an
instruction is left as a source states it: the mnemonic in a column of six, then its operands with
commas between them. What is left of a text also depends on what follows, since an escape sequence
may end there, so the pieces of an instruction are followed with any text behind them.
-/

namespace WordAssembler

namespace Text

def afterEscape? : List Char → Option (List Char)
  | '\x1b' :: '[' :: cs =>
    match cs.dropWhile Char.isDigit with
    | 'm' :: rest => some rest
    | _ => none
  | _ => none

theorem length_lt_of_afterEscape? {cs rest : List Char} (hrest : afterEscape? cs = some rest) :
    rest.length < cs.length := by
  unfold afterEscape? at hrest
  split at hrest
  · rename_i digits
    split at hrest
    · rename_i hdigits
      cases hrest
      have hle := (List.dropWhile_suffix (l := digits) Char.isDigit).length_le
      rw [hdigits] at hle
      simp only [List.length_cons] at hle ⊢
      omega
    · cases hrest
  · cases hrest

def dropEscapes : List Char → List Char
  | [] => []
  | c :: cs =>
    match hescape : afterEscape? (c :: cs) with
    | some rest =>
      have := length_lt_of_afterEscape? hescape
      dropEscapes rest
    | none => c :: dropEscapes cs
termination_by cs => cs.length
decreasing_by
  · exact this
  · exact Nat.lt_succ_self cs.length

def plain (text : String) : String :=
  String.ofList ((dropEscapes text.toList).filter (· != '+'))

theorem dropEscapes_of_afterEscape? {cs rest : List Char} (hrest : afterEscape? cs = some rest) :
    dropEscapes cs = dropEscapes rest := by
  cases cs with
  | nil => cases hrest
  | cons c cs =>
      rw [dropEscapes]
      split
      · rename_i hsome
        rw [hrest] at hsome
        cases hsome
        rfl
      · rename_i hnone
        rw [hrest] at hnone
        cases hnone

theorem dropEscapes_cons {c : Char} (hc : c ≠ '\x1b') (cs : List Char) :
    dropEscapes (c :: cs) = c :: dropEscapes cs := by
  rw [dropEscapes]
  split
  · rename_i rest hsome
    unfold afterEscape? at hsome
    split at hsome
    · rename_i hcons
      exact absurd (List.cons.inj hcons).1 hc
    · cases hsome
  · rfl

theorem dropEscapes_append {cs : List Char} (hescape : '\x1b' ∉ cs) (rest : List Char) :
    dropEscapes (cs ++ rest) = cs ++ dropEscapes rest := by
  induction cs with
  | nil => rfl
  | cons c cs ih =>
      rw [List.mem_cons, not_or] at hescape
      rw [List.cons_append, dropEscapes_cons (Ne.symm hescape.1), ih hescape.2, List.cons_append]

/-- An escape sequence is dropped with all its digits, so the text behind it is met where it begins.
-/
theorem dropEscapes_escape (code : Nat) (rest : List Char) :
    dropEscapes ((Style.escape code).toList ++ rest) = dropEscapes rest := by
  have hchars : (Style.escape code).toList ++ rest =
      '\x1b' :: '[' :: ((Numeral.decimal code).toList ++ 'm' :: rest) := by
    simp [Style.escape]
  have hdigits : ((Numeral.decimal code).toList ++ 'm' :: rest).dropWhile Char.isDigit =
      'm' :: rest := by
    rw [List.dropWhile_append_of_pos fun c hc => Numeral.mem_decimal hc]
    rfl
  apply dropEscapes_of_afterEscape?
  simp only [hchars, afterEscape?, hdigits]

/-- Holds of a styled text and of what is left of it, whatever follows. -/
def Shows (styled shown : String) : Prop :=
  ∀ rest, plain (styled ++ rest) = shown ++ plain rest

theorem Shows.plain_eq {styled shown : String} (hshows : Shows styled shown) :
    plain styled = shown := by
  have hnothing : plain "" = "" := by
    rw [plain, String.toList_empty, dropEscapes]
    rfl
  simpa [hnothing] using hshows ""

/-- What two texts show when put together is what each of them shows. `Shows` is stated over every
continuation because an escape sequence could otherwise begin in the first text and end in the
second. -/
theorem Shows.append {styled shown styled' shown' : String} (hfirst : Shows styled shown)
    (hsecond : Shows styled' shown') : Shows (styled ++ styled') (shown ++ shown') := by
  intro rest
  rw [String.append_assoc, hfirst, hsecond, String.append_assoc]

theorem shows_escape (code : Nat) : Shows (Style.escape code) "" := by
  intro rest
  rw [plain, String.toList_append, dropEscapes_escape, String.empty_append, plain]

theorem shows_plus : Shows "+" "" := by
  intro rest
  rw [plain, String.toList_append, String.empty_append, plain]
  change String.ofList ((dropEscapes ('+' :: rest.toList)).filter _) = _
  rw [dropEscapes_cons (by decide)]
  rfl

theorem shows_self {text : String} (hescape : '\x1b' ∉ text.toList) (hplus : '+' ∉ text.toList) :
    Shows text text := by
  have hfilter : text.toList.filter (· != '+') = text.toList := by
    rw [List.filter_eq_self]
    intro c hc
    rw [bne_iff_ne]
    rintro rfl
    exact hplus hc
  intro rest
  rw [plain, String.toList_append, dropEscapes_append hescape, List.filter_append, hfilter,
    String.ofList_append, String.ofList_toList, plain]

theorem shows_identifier {name : String} (hname : isIdentifier name) : Shows name name :=
  shows_self (LineContent.not_mem_of_isIdentifier hname (by decide))
    (LineContent.not_mem_of_isIdentifier hname (by decide))

theorem Shows.paint {styled shown : String} (hshows : Shows styled shown) (style : Style) :
    Shows (style.paint styled) shown := by
  have hpainted := ((shows_escape style.onCode).append hshows).append (shows_escape style.offCode)
  rw [String.empty_append, String.append_empty] at hpainted
  exact hpainted

theorem toList_alignLeft (width : Nat) (s : String) :
    (alignLeft width s).toList = s.toList ++ List.replicate (width - s.toList.length) ' ' := by
  rw [alignLeft, String.toList_ofList, List.rightpad]

end Text

/-! ### The tokens of an instruction -/

open Text

theorem Mnemonic.isIdentifier_name (m : Mnemonic) : isIdentifier m.name := by
  cases m <;> decide

theorem Register.isIdentifier_name (r : Register) : isIdentifier r.name := by
  cases r <;> decide

namespace Numeral

theorem isIdentifier_hexUpper (width n : Nat) : isIdentifier (hexUpper width n) := by
  have hdigits : ∀ d < 16, isIdentifierChar (Nat.digitChar d).toUpper := by decide
  rw [isIdentifier_iff]
  constructor
  · simp [hexUpper, hex, List.leftpad, Nat.toDigits_ne_nil]
  · intro c hc
    obtain ⟨d, hd, rfl⟩ := mem_hex hc
    exact hdigits d hd

theorem isIdentifier_decimal (n : Nat) : isIdentifier (decimal n) := by
  rw [isIdentifier_iff]
  constructor
  · simp [decimal, Nat.toDigits_ne_nil]
  · intro c hc
    simp [isIdentifierChar, Char.isAlphanum, mem_decimal hc]

theorem isIdentifier_decimalInt (v : Int) : isIdentifier (decimalInt v) := by
  unfold decimalInt
  split_ifs
  · exact isIdentifier_append (by decide) (isIdentifier_decimal _)
  · exact isIdentifier_decimal _

/-- The plus that a positive offset is printed with is not shown. -/
theorem shows_signed (v : Int) : Shows (signed v) (decimalInt v) := by
  have hself := shows_identifier (isIdentifier_decimal v.natAbs)
  unfold signed decimalInt
  split_ifs
  · exact (shows_identifier (by decide)).append hself
  · have hshows := shows_plus.append hself
    rwa [String.empty_append] at hshows

end Numeral

namespace Instruction

open Numeral

def targetToken : Operand Int16 → String
  | .reg r => r.name
  | .val o => decimalInt o.toInt

def tokens : Instruction → List String
  | .alu _ d a (.reg b) => [d.name, a.name, b.name]
  | .alu _ d a (.val v) => [d.name, a.name, "0x" ++ hexUpper 1 v.toNat]
  | .loadImm _ d v => [d.name, "0x" ++ hexUpper 2 v.toNat]
  | .loadStore _ d a => [d.name, a.name]
  | .condJump _ c t => [c.name, targetToken t]
  | .jump _ t => [targetToken t]
  | .zero _ => []

theorem isIdentifier_targetToken (t : Operand Int16) : isIdentifier (targetToken t) := by
  cases t with
  | reg r => exact r.isIdentifier_name
  | val o => exact isIdentifier_decimalInt o.toInt

theorem isIdentifier_tokens (i : Instruction) : ∀ token ∈ i.tokens, isIdentifier token := by
  have himmediate : ∀ width n, isIdentifier ("0x" ++ hexUpper width n) := fun width n =>
    isIdentifier_append (by decide) (isIdentifier_hexUpper width n)
  rcases i with ⟨m, d, a, b | v⟩ | ⟨m, d, v⟩ | ⟨m, d, a⟩ | ⟨m, c, t⟩ | ⟨m, t⟩ | ⟨m⟩
  all_goals
    simp only [tokens, List.forall_mem_cons, List.not_mem_nil, false_implies, implies_true,
      Register.isIdentifier_name, isIdentifier_targetToken, himmediate, and_true]

theorem shows_paintTarget (t : Operand Int16) : Shows (paintTarget t) (targetToken t) := by
  cases t with
  | reg r => exact shows_identifier r.isIdentifier_name
  | val o => exact (shows_signed o.toInt).paint _

theorem shows_paintOperands (i : Instruction) :
    Shows i.paintOperands (", ".intercalate i.tokens) := by
  have hname : ∀ r : Register, Shows r.name r.name := fun r => shows_identifier r.isIdentifier_name
  have hcomma : Shows ", " ", " := shows_self (by decide) (by decide)
  have himmediate : ∀ width n, Shows (Style.yellow.paint ("0x" ++ hexUpper width n))
      ("0x" ++ hexUpper width n) := fun width n =>
    ((shows_identifier (by decide)).append
      (shows_identifier (isIdentifier_hexUpper width n))).paint _
  rcases i with ⟨m, d, a, b | v⟩ | ⟨m, d, v⟩ | ⟨m, d, a⟩ | ⟨m, c, t⟩ | ⟨m, t⟩ | ⟨m⟩
  · exact ((((hname d).append hcomma).append (hname a)).append hcomma).append (hname b)
  · exact ((((hname d).append hcomma).append (hname a)).append hcomma).append (himmediate 1 _)
  · exact ((hname d).append hcomma).append (himmediate 2 _)
  · exact ((hname d).append hcomma).append (hname a)
  · exact ((hname c).append hcomma).append (shows_paintTarget t)
  · exact shows_paintTarget t
  · exact shows_self List.not_mem_nil List.not_mem_nil

/-- Without its colours an instruction is its mnemonic in a column of six and its operands between
commas. -/
theorem plain_painted (i : Instruction) :
    plain i.painted = alignLeft 6 i.mnemonic.name ++ ", ".intercalate i.tokens := by
  have hname := i.mnemonic.isIdentifier_name
  have hcolumn : Shows (alignLeft 6 i.mnemonic.name) (alignLeft 6 i.mnemonic.name) := by
    apply shows_self
    · simp [toList_alignLeft, LineContent.not_mem_of_isIdentifier hname (c := '\x1b') (by decide)]
    · simp [toList_alignLeft, LineContent.not_mem_of_isIdentifier hname (c := '+') (by decide)]
  have hshows := ((((shows_escape Style.red.onCode).append hcolumn).append
    (shows_escape Style.blue.onCode)).append i.shows_paintOperands).append
    (shows_escape Style.blue.offCode)
  rw [String.empty_append, String.append_empty, String.append_empty] at hshows
  exact hshows.plain_eq

end Instruction

end WordAssembler
