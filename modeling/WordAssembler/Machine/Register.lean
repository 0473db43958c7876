/-!
# Registers

The machine has eight registers. Two of them have a second spelling: the stack pointer `sp` is
`r6` and the link register `lr` is `r7`. Spellings are case-sensitive.
-/

namespace WordAssembler

inductive Register where
  | r0
  | r1
  | r2
  | r3
  | r4
  | r5
  | r6
  | r7
deriving DecidableEq, Repr, Inhabited

namespace Register

def all : List Register :=
  [r0, r1, r2, r3, r4, r5, r6, r7]

def index : Register → Nat
  | r0 => 0
  | r1 => 1
  | r2 => 2
  | r3 => 3
  | r4 => 4
  | r5 => 5
  | r6 => 6
  | r7 => 7

/-- The register of an index. An index that no register has stands for `r0`. -/
def ofIndex : Nat → Register
  | 1 => r1
  | 2 => r2
  | 3 => r3
  | 4 => r4
  | 5 => r5
  | 6 => r6
  | 7 => r7
  | _ => r0

def name : Register → String
  | r0 => "r0"
  | r1 => "r1"
  | r2 => "r2"
  | r3 => "r3"
  | r4 => "r4"
  | r5 => "r5"
  | r6 => "r6"
  | r7 => "r7"

def spellings : Register → List String
  | r6 => ["r6", "sp"]
  | r7 => ["r7", "lr"]
  | r => [r.name]

def ofSpelling? (s : String) : Option Register :=
  all.find? (·.spellings.contains s)

theorem index_lt (r : Register) : r.index < 8 := by
  cases r <;> decide

@[simp]
theorem ofIndex_index (r : Register) : ofIndex r.index = r := by
  cases r <;> rfl

end Register

end WordAssembler
