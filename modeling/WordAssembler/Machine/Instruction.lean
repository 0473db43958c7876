import WordAssembler.Machine.Mnemonic
import WordAssembler.Machine.Register

/-!
# Instructions

Instructions come in six forms, one for each family. The forms are the same before and after
assembly: only the type of the immediates and of the jump targets differs, so both are parameters.
-/

namespace WordAssembler

inductive Operand (α : Type) where
  | reg (r : Register)
  | val (a : α)
deriving DecidableEq, Repr

def Operand.map {α β : Type} (f : α → β) : Operand α → Operand β
  | reg r => reg r
  | val a => val (f a)

theorem Operand.map_map {α β γ : Type} (f : α → β) (g : β → γ) (operand : Operand α) :
    (operand.map f).map g = operand.map (g ∘ f) := by
  cases operand <;> rfl

/-- An instruction with immediates in `ι` and jump targets in `δ`. -/
inductive Form (ι δ : Type) where
  | alu (m : Mnemonic) (dest opA : Register) (opB : Operand ι)
  | loadImm (m : Mnemonic) (dest : Register) (imm : ι)
  | loadStore (m : Mnemonic) (data address : Register)
  | condJump (m : Mnemonic) (cond : Register) (target : Operand δ)
  | jump (m : Mnemonic) (target : Operand δ)
  | zero (m : Mnemonic)
deriving DecidableEq, Repr

namespace Form

variable {ι δ ι' δ' ι'' δ'' : Type}

def mnemonic : Form ι δ → Mnemonic
  | alu m .. | loadImm m .. | loadStore m .. | condJump m .. | jump m .. | zero m => m

def family : Form ι δ → Family
  | alu .. => .alu
  | loadImm .. => .loadImm
  | loadStore .. => .loadStore
  | condJump .. => .condJump
  | jump .. => .jump
  | zero .. => .zero

def map (f : ι → ι') (g : δ → δ') : Form ι δ → Form ι' δ'
  | alu m d a b => alu m d a (b.map f)
  | loadImm m d v => loadImm m d (f v)
  | loadStore m d a => loadStore m d a
  | condJump m c t => condJump m c (t.map g)
  | jump m t => jump m (t.map g)
  | zero m => zero m

@[simp]
theorem mnemonic_map (f : ι → ι') (g : δ → δ') (i : Form ι δ) :
    (i.map f g).mnemonic = i.mnemonic := by
  cases i <;> rfl

@[simp]
theorem family_map (f : ι → ι') (g : δ → δ') (i : Form ι δ) :
    (i.map f g).family = i.family := by
  cases i <;> rfl

theorem map_map (f : ι → ι') (g : δ → δ') (f' : ι' → ι'') (g' : δ' → δ'') (i : Form ι δ) :
    (i.map f g).map f' g' = i.map (f' ∘ f) (g' ∘ g) := by
  cases i <;> simp only [map, Operand.map_map, Function.comp]

end Form

/-- An instruction ready to be encoded: immediates are bytes, and a jump target is an offset from
the instruction that follows. -/
abbrev Instruction := Form UInt8 Int16

/-- An instruction as the source states it: immediates are integers of any size, and a jump target
is a token still to be resolved. -/
abbrev Operation := Form Int String

end WordAssembler
