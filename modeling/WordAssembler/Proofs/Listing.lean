import WordAssembler.Proofs.Assembly

/-!
# Every listed word decodes

Encoding cuts an operand down to its field without a word, so a word need not decode to the
instruction that it was made from. That it does, for every word an assembly emits, is seen to long
before: a statement is read as the form that its mnemonic belongs to, and resolving keeps the low
bits of an immediate and refuses an offset that its field cannot hold. The listing can therefore be
recovered from the words alone.
-/

namespace WordAssembler

open Instruction

section Frame

variable {ι δ ι' δ' : Type}

/-- The mnemonic and the registers, each in its place, with immediates and targets left open. -/
def Form.frame (form : Form ι δ) : Form Unit Unit :=
  form.map (fun _ => ()) (fun _ => ())

theorem Form.frame_map (f : ι → ι') (g : δ → δ') (form : Form ι δ) :
    (form.map f g).frame = form.frame :=
  form.map_map f g _ _

end Frame

/-- Resolution fills in the numbers of an operation and touches nothing else of it. -/
theorem Operation.frame_of_resolve {labels : LabelTable} {address : Nat} {op : Operation}
    {i : Instruction} (hresolve : op.resolve labels address = .ok i) : i.frame = op.frame := by
  obtain ⟨immediate, target, rfl⟩ := exists_map_of_resolve hresolve
  exact Form.frame_map immediate target op

theorem exists_listed_of_lt {source : String} {assembly : Assembly}
    (hassemble : assemble source = .ok assembly) {index : Nat}
    (hindex : index < assembly.program.size) :
    ∃ listed, assembly.listing[index]? = some listed ∧ listed.statement.address = index ∧
      listed.statement.assemble assembly.labels = .ok listed := by
  rw [size_eq_length_listing hassemble] at hindex
  have hlisted := List.getElem?_eq_getElem hindex
  exact ⟨_, hlisted, assemble_of_getElem?_listing hassemble hlisted⟩

/-- **The listing is what the words say.** An instruction that a statement stands for has the
mnemonic and the registers that the statement states, and is recovered from its word. So an assembly
lists one statement for each word, at the address of that word, and the word is that of the listed
instruction and decodes to it. -/
theorem listing_exact :
    (∀ code op labels address i, Operation.parse code = .ok op →
      Operation.resolve labels address op = .ok i →
      i.mnemonic = op.mnemonic ∧ i.frame = op.frame ∧ decode? (encode i) = some i) ∧
    ∀ source assembly, assemble source = .ok assembly →
      assembly.listing.length = assembly.program.size ∧
      ∀ index < assembly.program.size, ∃ listed word,
        assembly.listing[index]? = some listed ∧ assembly.program.words[index]? = some word ∧
        listed.statement.address = index ∧ listed.word = word ∧
        decode? word = some listed.instruction := by
  refine ⟨?_, ?_⟩
  · intro code op labels address i hparse hresolve
    have hframe := Operation.frame_of_resolve hresolve
    have hmnemonic : i.mnemonic = op.mnemonic := by
      simpa [Form.frame] using congrArg Form.mnemonic hframe
    have hcanonical := Operation.canonical_of_resolve (Operation.family_of_parse hparse) hresolve
    exact ⟨hmnemonic, hframe, decode?_encode hcanonical⟩
  · intro source assembly hassemble
    refine ⟨(size_eq_length_listing hassemble).symm, ?_⟩
    intro index hindex
    obtain ⟨listed, hlisted, haddress, hstatement⟩ := exists_listed_of_lt hassemble hindex
    exact ⟨listed, listed.word, hlisted, getElem?_words hassemble hlisted, haddress, rfl,
      decode?_word hstatement⟩

theorem listing_exact_cut_immediate :
    Operation.parse "add r1, sp, 300" = .ok (.alu .add .r1 .r6 (.val 300)) ∧
    Operation.resolve ∅ 0 (.alu .add .r1 .r6 (.val 300)) = .ok (.alu .add .r1 .r6 (.val 12)) ∧
    decode? (encode (.alu .add .r1 .r6 (.val 12))) = some (.alu .add .r1 .r6 (.val 12)) ∧
    ∃ assembly listed word, assemble "top: add r1, sp, 300\njez r1, top" = .ok assembly ∧
      assembly.listing[1]? = some listed ∧ assembly.program.words[1]? = some word ∧
      listed.statement.address = 1 ∧ decode? word = some listed.instruction := by
  have hparse : Operation.parse "add r1, sp, 300" = .ok (.alu .add .r1 .r6 (.val 300)) := by
    decide +kernel
  have hresolve : Operation.resolve ∅ 0 (.alu .add .r1 .r6 (.val 300)) =
      .ok (.alu .add .r1 .r6 (.val 12)) := by decide +kernel
  have hassembled : (assemble "top: add r1, sp, 300\njez r1, top").toOption.map
      (fun assembly => assembly.program.size) = some 2 := by decide +kernel
  obtain ⟨assembly, hassemble, hsize⟩ := Pass.map_toOption_eq_some.mp hassembled
  obtain ⟨listed, word, hlisted, hword, haddress, -, hdecode⟩ :=
    (listing_exact.2 _ assembly hassemble).2 1 (by omega)
  exact ⟨hparse, hresolve, (listing_exact.1 _ _ _ _ _ hparse hresolve).2.2, assembly, listed, word,
    hassemble, hlisted, hword, haddress, hdecode⟩

end WordAssembler
