import WordAssembler.Machine.Mnemonic
import WordAssembler.Machine.Register

/-!
# Reserved names

The spellings of mnemonics and registers, which no label may have.
-/

namespace WordAssembler

def isReserved (name : String) : Bool :=
  (Mnemonic.ofSpelling? name).isSome || (Register.ofSpelling? name).isSome

end WordAssembler
