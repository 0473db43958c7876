import WordAssembler.Json.Token

/-!
# JSON values

A JSON value is read from its tokens by a machine that keeps the containers still open on a stack,
so values may be nested to any depth. An object keeps its members in order, also those with equal
names.
-/

namespace WordAssembler.Json

inductive Value where
  | null
  | bool (b : Bool)
  | number (digits : List Char)
  | string (units : List Nat)
  | array (items : List Value)
  | object (members : List (List Nat × Value))

/-- A container that is still open, with the items or members so far in reverse. -/
inductive Container where
  | array (items : List Value)
  | object (members : List (List Nat × Value)) (name : List Nat)

inductive Reader where
  | value (outer : List Container)
  | firstItem (outer : List Container)
  | firstName (outer : List Container)
  | name (outer : List Container) (members : List (List Nat × Value))
  | colon (outer : List Container) (members : List (List Nat × Value)) (name : List Nat)
  | complete (outer : List Container) (value : Value)

namespace Reader

def startValue (outer : List Container) : Token → Option Reader
  | .openObject => some (firstName outer)
  | .openArray => some (firstItem outer)
  | .null => some (complete outer .null)
  | .bool b => some (complete outer (.bool b))
  | .number digits => some (complete outer (.number digits))
  | .string units => some (complete outer (.string units))
  | _ => none

def step : Reader → Token → Option Reader
  | value outer, token => startValue outer token
  | firstItem outer, .closeArray => some (complete outer (.array []))
  | firstItem outer, token => startValue (.array [] :: outer) token
  | firstName outer, .closeObject => some (complete outer (.object []))
  | firstName outer, .string units => some (colon outer [] units)
  | name outer members, .string units => some (colon outer members units)
  | colon outer members units, .colon => some (value (.object members units :: outer))
  | complete (.array items :: outer) v, .comma => some (value (.array (v :: items) :: outer))
  | complete (.array items :: outer) v, .closeArray =>
    some (complete outer (.array (v :: items).reverse))
  | complete (.object members units :: outer) v, .comma =>
    some (name outer ((units, v) :: members))
  | complete (.object members units :: outer) v, .closeObject =>
    some (complete outer (.object ((units, v) :: members).reverse))
  | _, _ => none

def finish : Reader → Option Value
  | complete [] v => some v
  | _ => none

end Reader

def Value.ofTokens? (tokens : List Token) : Option Value := do
  (← tokens.foldlM Reader.step (.value [])).finish

def Value.parse? (text : String) : Option Value := do
  Value.ofTokens? (← tokens? text.toList)

end WordAssembler.Json
