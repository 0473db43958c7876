import WordAssembler.Json.Quoted
import WordAssembler.Json.Value
import WordAssembler.LabelTable

/-!
# Symbol maps

The names and addresses of a program's labels, in order, as they are exported to a JSON file and
read back. The file is an object with one member `code` that maps names to addresses. A reader also
takes the bare list of that one member, and passes over other members.
-/

namespace WordAssembler

structure SymbolMap where
  symbols : List (String × Nat)
  distinct : (symbols.map Prod.fst).Nodup
deriving DecidableEq

namespace SymbolMap

open Json

def empty : SymbolMap :=
  ⟨[], by simp⟩

def replace (symbols : List (String × Nat)) (name : String) (address : Nat) :
    List (String × Nat) :=
  symbols.map fun symbol => if symbol.1 = name then (name, address) else symbol

theorem map_fst_replace (symbols : List (String × Nat)) (name : String) (address : Nat) :
    (replace symbols name address).map Prod.fst = symbols.map Prod.fst := by
  induction symbols with
  | nil => rfl
  | cons symbol symbols ih =>
    by_cases hname : symbol.1 = name <;> simp_all [replace]

/-- Gives a name its address. A new name comes last, and a name that is already there keeps its
place and takes the new address. -/
def insert (map : SymbolMap) (name : String) (address : Nat) : SymbolMap :=
  if hname : name ∈ map.symbols.map Prod.fst then
    ⟨replace map.symbols name address, map_fst_replace map.symbols name address ▸ map.distinct⟩
  else ⟨map.symbols ++ [(name, address)], nodup_map_append_singleton map.distinct hname⟩

/-- An address in a symbol file: decimal digits that fit in 64 bits. -/
def address? : Value → Option Nat
  | .number digits => (Numeral.value? 10 digits).filter (· < 0x10000000000000000)
  | _ => none

def insertMember (map : SymbolMap) (member : List Nat × Value) : Option SymbolMap := do
  return map.insert (← text? member.1) (← address? member.2)

def ofCode? : Value → Option SymbolMap
  | .object members => members.foldlM insertMember empty
  | _ => none

def ofValue? : Value → Option SymbolMap
  | .array [code] => ofCode? code
  | .object members => do
    let named ← members.mapM fun member => (text? member.1).map (·, member.2)
    match named.filter (·.1 == "code") with
    | [member] => ofCode? member.2
    | _ => none
  | _ => none

def parse? (text : String) : Option SymbolMap := do
  ofValue? (← Value.parse? text)

def renderSymbol (symbol : String × Nat) : String :=
  "    " ++ quote symbol.1 ++ ": " ++ Numeral.decimal symbol.2

def renderCode (symbols : List (String × Nat)) : String :=
  if symbols.isEmpty then "\x7b\x7d"
  else "\x7b\n" ++ ",\n".intercalate (symbols.map renderSymbol) ++ "\n  \x7d"

def render (map : SymbolMap) : String :=
  "\x7b\n  \"code\": " ++ renderCode map.symbols ++ "\n\x7d"

end SymbolMap

def LabelTable.symbolMap (table : LabelTable) : SymbolMap :=
  ⟨table.toList, by simpa [LabelTable.toList, Function.comp_def] using table.distinct⟩

end WordAssembler
