import WordAssembler.Proofs.Assembly

/-!
# Jumps go where they should

A jump to a label is stored as the distance from the instruction behind it, in a field of eight or
eleven bits. Decoding the stored word gives that distance back, so the machine continues at the
label; a distance that the field cannot hold never reaches a word, because it is refused.
-/

namespace WordAssembler

open SourceLine Instruction Operation

/-- Holds of an offset that leads a jump at the given address to the label that its token names, or
that the token gives as a literal if it names no label. -/
def Assembly.Leads (assembly : Assembly) (address : Nat) (token : String) (o : Int16) : Prop :=
  (∀ destination : Nat, assembly.labels.address? token = some destination →
    (address : Int) + 1 + o.toInt = destination ∧ destination ≤ assembly.program.size) ∧
    (assembly.labels.address? token = none → Literal.parse? token = some o.toInt)

section Target

variable {source : String} {assembly : Assembly}

/-- An offset counts from the next word, so the destination of a label is its own address and the
one of a number is that many words further on. -/
theorem leads_of_standsFor (hassemble : assemble source = .ok assembly) {address : Nat}
    {token : String} {v : Int} (hv : StandsFor assembly.labels address token v)
    (hbounds : -1024 ≤ v ∧ v ≤ 1023) : assembly.Leads address token (Int16.ofInt v) := by
  rw [Assembly.Leads, toInt_ofInt hbounds]
  refine ⟨?_, hv.2⟩
  intro destination hdestination
  exact ⟨hv.1 destination hdestination, address_le_size hassemble hdestination⟩

theorem resolve_of_parse (hassemble : assemble source = .ok assembly) {index : Nat}
    {listed : Listed} (hlisted : assembly.listing[index]? = some listed) {op : Operation}
    (hparse : Operation.parse listed.statement.code = .ok op) :
    op.resolve assembly.labels index = .ok listed.instruction := by
  obtain ⟨haddress, hstatement⟩ := assemble_of_getElem?_listing hassemble hlisted
  obtain ⟨-, hoperation, hresolve⟩ := Statement.assemble_eq_ok.mp hstatement
  rw [hparse] at hoperation
  cases hoperation
  rwa [haddress] at hresolve

theorem decode?_getElem?_words (hassemble : assemble source = .ok assembly) {index : Nat}
    {listed : Listed} (hlisted : assembly.listing[index]? = some listed) :
    assembly.program.words[index]?.bind decode? = some listed.instruction := by
  obtain ⟨-, hstatement⟩ := assemble_of_getElem?_listing hassemble hlisted
  rw [getElem?_words hassemble hlisted, Option.bind_some, decode?_word hstatement]

/-- One lemma for both jumps: what differs between them is the width of the field alone. -/
theorem leads_of_target? (hassemble : assemble source = .ok assembly) {index : Nat}
    {listed : Listed} (hlisted : assembly.listing[index]? = some listed) {op : Operation}
    (hparse : Operation.parse listed.statement.code = .ok op) {token : String} {bits : Nat}
    (htarget : op.target? = some (token, bits)) :
    ∃ o, assembly.program.words[index]?.bind decode? =
        some (op.map (fun _ => 0) fun _ => o) ∧ assembly.Leads index token o := by
  obtain ⟨v, hv, hbounds, hinstruction⟩ :=
    (resolve_eq_ok_iff htarget).mp (resolve_of_parse hassemble hlisted hparse)
  refine ⟨Int16.ofInt v, ?_, ?_⟩
  · rw [decode?_getElem?_words hassemble hlisted, hinstruction]
  · exact leads_of_standsFor hassemble hv (bounds_of_target? htarget hbounds)

end Target

/-- **Jump targets.** In an assembled program every jump to a token decodes to the same jump with
an offset that leads to the token's label, or that the token gives. A jump is refused for its range
exactly where the offset that its token stands for is outside its field, and the fault carries that
offset. -/
theorem jump_targets_exact :
    (∀ source assembly, assemble source = .ok assembly →
      ∀ index listed, assembly.listing[index]? = some listed →
        (∀ m c token,
          Operation.parse listed.statement.code = .ok (.condJump m c (.val token)) →
          ∃ o, assembly.program.words[index]?.bind decode? = some (.condJump m c (.val o)) ∧
            assembly.Leads index token o) ∧
        ∀ m token, Operation.parse listed.statement.code = .ok (.jump m (.val token)) →
          ∃ o, assembly.program.words[index]?.bind decode? = some (.jump m (.val o)) ∧
            assembly.Leads index token o) ∧
    ∀ source layout, Layout.ofLines (kept source) = .ok layout →
      ∀ index statement, layout.statements[index]? = some statement → ∀ v least greatest,
        (∀ m c token, Operation.parse statement.code = .ok (.condJump m c (.val token)) →
          (resolve layout.labels statement.address (.condJump m c (.val token)) =
              .error (.branchOutOfRange v least greatest) ↔
            StandsFor layout.labels index token v ∧ (v < -128 ∨ 127 < v) ∧
              least = -128 ∧ greatest = 127)) ∧
        ∀ m token, Operation.parse statement.code = .ok (.jump m (.val token)) →
          (resolve layout.labels statement.address (.jump m (.val token)) =
              .error (.branchOutOfRange v least greatest) ↔
            StandsFor layout.labels index token v ∧ (v < -1024 ∨ 1023 < v) ∧
              least = -1024 ∧ greatest = 1023) := by
  refine ⟨?_, ?_⟩
  · intro source assembly hassemble index listed hlisted
    exact ⟨fun m c token hparse => leads_of_target? hassemble hlisted hparse rfl,
      fun m token hparse => leads_of_target? hassemble hlisted hparse rfl⟩
  · intro source layout hlayout index statement hstatement v least greatest
    rw [Layout.address_of_getElem?_statements hlayout hstatement]
    refine ⟨?_, ?_⟩
    · intro m c token _
      have htarget : target? (.condJump m c (.val token)) = some (token, 8) := rfl
      exact resolve_eq_outOfRange_iff htarget
    · intro m token _
      have htarget : target? (.jump m (.val token)) = some (token, 11) := rfl
      exact resolve_eq_outOfRange_iff htarget

theorem jump_targets_exact_back_and_far :
    (∃ assembly o, assemble "top: nop\njez r1, top" = .ok assembly ∧
      assembly.labels.address? "top" = some 0 ∧
      assembly.program.words[1]?.bind decode? = some (.condJump .jez .r1 (.val o)) ∧
      assembly.Leads 1 "top" o) ∧
    ∃ layout, Layout.ofLines (kept "jmp 1024") = .ok layout ∧
      resolve layout.labels 0 (.jump .jmp (.val "1024")) =
        .error (.branchOutOfRange 1024 (-1024) 1023) := by
  have hback : (assemble "top: nop\njez r1, top").toOption.map (fun assembly =>
      (assembly.labels.address? "top", assembly.listing[1]?.map (·.statement))) =
        some (some 0, some ⟨1, "jez r1, top", ⟨2, "jez r1, top"⟩⟩) := by decide +kernel
  have hfar : (Layout.ofLines (kept "jmp 1024")).toOption.map (fun layout =>
      (layout.labels.labels, layout.statements[0]?)) =
        some ([], some ⟨0, "jmp 1024", ⟨1, "jmp 1024"⟩⟩) := by decide +kernel
  have hjez : Operation.parse "jez r1, top" = .ok (.condJump .jez .r1 (.val "top")) := by
    decide +kernel
  have hjmp : Operation.parse "jmp 1024" = .ok (.jump .jmp (.val "1024")) := by
    decide +kernel
  refine ⟨?_, ?_⟩
  · obtain ⟨assembly, hassemble, hfacts⟩ := Pass.map_toOption_eq_some.mp hback
    obtain ⟨haddress, hstatement⟩ := Prod.mk.inj hfacts
    obtain ⟨listed, hlisted, hstatement⟩ := Option.map_eq_some_iff.mp hstatement
    obtain ⟨o, hdecode, hleads⟩ := (jump_targets_exact.1 _ assembly hassemble 1 listed hlisted).1
      .jez .r1 "top" (by rw [hstatement, hjez])
    exact ⟨assembly, o, hassemble, haddress, hdecode, hleads⟩
  · obtain ⟨layout, hlayout, hfacts⟩ := Pass.map_toOption_eq_some.mp hfar
    obtain ⟨hlabels, hstatement⟩ := Prod.mk.inj hfacts
    have hstands : StandsFor layout.labels 0 "1024" 1024 := by
      rw [StandsFor, LabelTable.address?, LabelTable.find?, hlabels]
      refine ⟨?_, fun _ => by decide +kernel⟩
      intro destination hdestination
      cases hdestination
    exact ⟨layout, hlayout,
      ((jump_targets_exact.2 _ layout hlayout 0 _ hstatement 1024 (-1024) 1023).2
        .jmp "1024" hjmp).mpr ⟨hstands, by decide, rfl, rfl⟩⟩

end WordAssembler
