import WordAssembler.Operation.Parse
import WordAssembler.Proofs.Content
import WordAssembler.Proofs.Literal
import WordAssembler.Proofs.Pass

/-!
# The grammar of statements

Reading takes a statement apart: the mnemonic up to the first blank, then what is left without the
blanks around it, cut at its commas. The grammar says what a statement is put together from, with
blanks allowed at every place between tokens. The two agree because a token holds neither a blank
nor a comma: a blank at the end of a field cannot belong to its token, and every comma stands
between two tokens.
-/

namespace WordAssembler

open Text

theorem Mnemonic.ofSpelling?_eq_some_iff {spelling : String} {m : Mnemonic} :
    ofSpelling? spelling = some m ↔ spelling ∈ m.spellings := by
  have hdistinct : ∀ m ∈ all, ∀ spelling ∈ m.spellings, ofSpelling? spelling = some m := by decide
  constructor
  · intro hfind
    simpa using List.find?_some hfind
  · exact hdistinct m (mem_all m) spelling

theorem Mnemonic.isIdentifier_of_mem_spellings {spelling : String} {m : Mnemonic}
    (hspelling : spelling ∈ m.spellings) : isIdentifier spelling := by
  have hall : ∀ m ∈ all, ∀ spelling ∈ m.spellings, isIdentifier spelling := by decide
  exact hall m (mem_all m) spelling hspelling

theorem Register.ofSpelling?_eq_some_iff {spelling : String} {r : Register} :
    ofSpelling? spelling = some r ↔ spelling ∈ r.spellings := by
  constructor
  · intro hfind
    simpa using List.find?_some hfind
  · have hdistinct : ∀ spelling ∈ r.spellings, ofSpelling? spelling = some r := by
      cases r <;> decide
    exact hdistinct spelling

theorem Register.ofSpelling?_eq_none_iff {spelling : String} :
    ofSpelling? spelling = none ↔ ∀ r : Register, spelling ∉ r.spellings := by
  rw [Option.eq_none_iff_forall_ne_some]
  exact forall_congr' fun r => not_congr ofSpelling?_eq_some_iff

/-- No register is spelled like a number. -/
theorem Literal.ofSpelling?_of_parse? {token : String} {v : Int} (hparse : parse? token = some v) :
    Register.ofSpelling? token = none := by
  have hall : ∀ r ∈ Register.all, ∀ spelling ∈ r.spellings, parse? spelling = none := by decide
  rw [Register.ofSpelling?, List.find?_eq_none]
  intro r hr hspelling
  rw [hall r hr token (List.contains_iff_mem.mp hspelling)] at hparse
  cases hparse

namespace Operation

/-! ### Operands between commas -/

def Pads (token : String) (field : List Char) : Prop :=
  ∃ front back, Blanks front ∧ Blanks back ∧ field = front ++ token.toList ++ back

/-- Holds of tokens and of a text in which they stand one after the other, each with blanks around
it and a comma between any two. -/
def Separates (tokens : List String) (text : List Char) : Prop :=
  ∃ fields, List.Forall₂ Pads tokens fields ∧ text = [','].intercalate fields

section Fields

variable {token : String} {tokens : List String} {field front back text : List Char}

theorem trim_eq_iff :
    trim field = token.toList ↔ Trimmed token.toList ∧ Pads token field := by
  constructor
  · intro htrim
    obtain ⟨front, back, hfront, hback, hfield⟩ := exists_eq_append_trim field
    rw [← htrim]
    refine ⟨trimmed_trim field, front, back, hfront, hback, ?_⟩
    rw [← htrim]
    exact hfield
  · rintro ⟨htrimmed, front, back, hfront, hback, rfl⟩
    rw [trim_append_blanks hback, trim_blanks_append hfront, trim_of_trimmed htrimmed]

theorem pads_iff_trim_eq (htoken : isIdentifier token) :
    Pads token field ↔ String.ofList (trim field) = token := by
  have htrimmed := LineContent.trimmed_of_isIdentifier htoken
  rw [← String.toList_inj, String.toList_ofList, trim_eq_iff, and_iff_right htrimmed]

theorem not_mem_of_blanks {c : Char} (hc : isBlank c = false) (hfront : Blanks front) :
    c ∉ front := by
  intro hmem
  rw [hfront c hmem] at hc
  cases hc

theorem not_mem_of_pads {c : Char} (hc : isBlank c = false) (htoken : c ∉ token.toList)
    (hpads : Pads token field) : c ∉ field := by
  obtain ⟨front, back, hfront, hback, rfl⟩ := hpads
  simp only [List.mem_append, not_or]
  exact ⟨⟨not_mem_of_blanks hc hfront, htoken⟩, not_mem_of_blanks hc hback⟩

theorem comma_not_mem_of_blanks (hfront : Blanks front) : ',' ∉ front :=
  not_mem_of_blanks (by decide) hfront

theorem comma_not_mem_of_pads (htoken : isIdentifier token) (hpads : Pads token field) :
    ',' ∉ field :=
  not_mem_of_pads (by decide) (LineContent.not_mem_of_isIdentifier htoken (by decide)) hpads

/-- Blanks in front of a text belong to its first field. -/
theorem map_trim_splitOn_blanks_append (hfront : Blanks front) (text : List Char) :
    ((front ++ text).splitOn ',').map trim = (text.splitOn ',').map trim := by
  have hsolid := comma_not_mem_of_blanks hfront
  by_cases hcomma : ',' ∈ text
  · obtain ⟨first, rest, rfl, hfirst⟩ := List.eq_append_cons_of_mem hcomma
    have hboth : ',' ∉ front ++ first := by simp [hsolid, hfirst]
    rw [← List.append_assoc, List.splitOn_append_cons_self_of_not_mem hboth,
      List.splitOn_append_cons_self_of_not_mem hfirst, List.map_cons, List.map_cons,
      trim_blanks_append hfront]
  · have hboth : ',' ∉ front ++ text := by simp [hsolid, hcomma]
    rw [List.splitOn_eq_singleton hboth, List.splitOn_eq_singleton hcomma, List.map_singleton,
      List.map_singleton, trim_blanks_append hfront]

/-- Blanks behind a text belong to its last field. -/
theorem map_trim_splitOn_append_blanks (hback : Blanks back) (text : List Char) :
    ((text ++ back).splitOn ',').map trim = (text.splitOn ',').map trim := by
  -- The last field is reached by taking the fields before it off the front.
  induction hlength : text.length using Nat.strongRecOn generalizing text with
  | ind length ih =>
      by_cases hcomma : ',' ∈ text
      · obtain ⟨first, rest, rfl, hfirst⟩ := List.eq_append_cons_of_mem hcomma
        have hshorter : rest.length < length := by
          rw [← hlength, List.length_append, List.length_cons]
          omega
        rw [List.append_assoc, List.cons_append, List.splitOn_append_cons_self_of_not_mem hfirst,
          List.splitOn_append_cons_self_of_not_mem hfirst, List.map_cons, List.map_cons,
          ih rest.length hshorter rest rfl]
      · have hboth : ',' ∉ text ++ back := by simp [hcomma, comma_not_mem_of_blanks hback]
        rw [List.splitOn_eq_singleton hboth, List.splitOn_eq_singleton hcomma,
          List.map_singleton, List.map_singleton, trim_append_blanks hback]

theorem map_trim_splitOn_trim (text : List Char) :
    ((trim text).splitOn ',').map trim = (text.splitOn ',').map trim := by
  obtain ⟨front, back, hfront, hback, hsplit⟩ := exists_eq_append_trim text
  calc ((trim text).splitOn ',').map trim
      = ((front ++ trim text).splitOn ',').map trim :=
        (map_trim_splitOn_blanks_append hfront _).symm
    _ = ((front ++ trim text ++ back).splitOn ',').map trim :=
        (map_trim_splitOn_append_blanks hback _).symm
    _ = (text.splitOn ',').map trim := by rw [← hsplit]

/-- Reading and stating agree field by field. -/
theorem forall₂_pads_iff (htokens : ∀ token ∈ tokens, isIdentifier token)
    {fields : List (List Char)} : List.Forall₂ Pads tokens fields ↔
      fields.map (fun field => String.ofList (trim field)) = tokens := by
  induction tokens generalizing fields with
  | nil => simp
  | cons token tokens ih =>
      rw [List.forall_mem_cons] at htokens
      simp only [List.forall₂_cons_left_iff, ih htokens.2, pads_iff_trim_eq htokens.1]
      cases fields with
      | nil => simp
      | cons field fields => simp

/-- A text is cut into the tokens exactly where it is made of them, because no token and no blank
holds a comma. -/
theorem map_splitOn_eq_iff_separates (htokens : ∀ token ∈ tokens, isIdentifier token)
    (hne : tokens ≠ []) :
    (text.splitOn ',').map (fun field => String.ofList (trim field)) = tokens ↔
      Separates tokens text := by
  constructor
  · intro hfields
    exact ⟨text.splitOn ',', (forall₂_pads_iff htokens).mpr hfields,
      (List.intercalate_splitOn ',').symm⟩
  · rintro ⟨fields, hpads, rfl⟩
    have hsolid : ∀ field ∈ fields, ',' ∉ field := by
      intro field hfield
      obtain ⟨index, hindex, rfl⟩ := List.mem_iff_getElem.mp hfield
      have hlength := hpads.length_eq
      exact comma_not_mem_of_pads (htokens _ (List.getElem_mem (by omega)))
        (hpads.get (by omega) hindex)
    have hfieldsNe : fields ≠ [] := by
      rintro rfl
      exact hne (List.forall₂_nil_right_iff.mp hpads)
    rw [List.splitOn_intercalate ',' hsolid hfieldsNe]
    exact (forall₂_pads_iff htokens).mp hpads

theorem splitOperands_eq_nil_iff {rest : List Char} : splitOperands rest = [] ↔ Blanks rest := by
  rw [← trim_eq_nil_iff]
  unfold splitOperands
  split
  · rename_i hnil
    simp [hnil]
  · rename_i hne
    simpa [List.splitOn_ne_nil] using hne

theorem splitOperands_blanks_append (hfront : Blanks front) (rest : List Char) :
    splitOperands (front ++ rest) = splitOperands rest := by
  unfold splitOperands
  rw [trim_blanks_append hfront]

theorem splitOperands_of_solid {rest : List Char} (hsolid : ¬Blanks rest) : splitOperands rest =
    (rest.splitOn ',').map fun field => String.ofList (trim field) := by
  have htrim : splitOperands rest =
      ((trim rest).splitOn ',').map fun field => String.ofList (trim field) := by
    unfold splitOperands
    split
    · rename_i hnil
      exact absurd (trim_eq_nil_iff.mp hnil) hsolid
    · rfl
  have hmap : ∀ text : List Char, (text.splitOn ',').map (fun field => String.ofList (trim field)) =
      ((text.splitOn ',').map trim).map String.ofList := by simp [Function.comp_def]
  rw [htrim, hmap, hmap, map_trim_splitOn_trim]

theorem not_blanks_of_separates (htokens : ∀ token ∈ tokens, isIdentifier token)
    (hne : tokens ≠ []) (hseparates : Separates tokens text) : ¬Blanks text := by
  intro hblanks
  have hfields := (map_splitOn_eq_iff_separates htokens hne).mpr hseparates
  rw [List.splitOn_eq_singleton (comma_not_mem_of_blanks hblanks), List.map_singleton,
    trim_eq_nil_iff.mpr hblanks] at hfields
  have hempty := htokens "" (by simp [← hfields])
  exact absurd hempty (by decide)

/-- The operands of a statement are the tokens that its rest is made of. -/
theorem splitOperands_eq_iff (htokens : ∀ token ∈ tokens, isIdentifier token)
    (hne : tokens ≠ []) {rest : List Char} :
    splitOperands rest = tokens ↔ Separates tokens rest := by
  by_cases hblanks : Blanks rest
  · rw [splitOperands_eq_nil_iff.mpr hblanks]
    constructor
    · intro hnil
      exact absurd hnil.symm hne
    · intro hseparates
      exact absurd hblanks (not_blanks_of_separates htokens hne hseparates)
  · rw [splitOperands_of_solid hblanks]
    exact map_splitOn_eq_iff_separates htokens hne

end Fields

/-! ### Operands by class -/

inductive StatesOperand (token : String) : Operand Int → Prop
  | reg {r : Register} (hspelling : token ∈ r.spellings) : StatesOperand token (.reg r)
  | val {v : Int} (hparse : Literal.parse? token = some v) : StatesOperand token (.val v)

inductive StatesTarget (token : String) : Operand String → Prop
  | reg {r : Register} (hspelling : token ∈ r.spellings) : StatesTarget token (.reg r)
  | val (hother : ∀ r : Register, token ∉ r.spellings) : StatesTarget token (.val token)

/-- Holds of the tokens that a mnemonic takes, as many as its family asks for and each of the class
of its place, and of the operation that they make. -/
inductive Takes (m : Mnemonic) : List String → Operation → Prop
  | alu {d a b : String} {dest opA : Register} {opB : Operand Int} (hfamily : m.family = .alu)
      (hd : d ∈ dest.spellings) (ha : a ∈ opA.spellings) (hb : StatesOperand b opB) :
      Takes m [d, a, b] (.alu m dest opA opB)
  | loadImm {d i : String} {dest : Register} {v : Int} (hfamily : m.family = .loadImm)
      (hd : d ∈ dest.spellings) (hi : Literal.parse? i = some v) :
      Takes m [d, i] (.loadImm m dest v)
  | loadStore {d a : String} {data address : Register} (hfamily : m.family = .loadStore)
      (hd : d ∈ data.spellings) (ha : a ∈ address.spellings) :
      Takes m [d, a] (.loadStore m data address)
  | condJump {c t : String} {cond : Register} {target : Operand String}
      (hfamily : m.family = .condJump) (hc : c ∈ cond.spellings) (ht : StatesTarget t target) :
      Takes m [c, t] (.condJump m cond target)
  | jump {t : String} {target : Operand String} (hfamily : m.family = .jump)
      (ht : StatesTarget t target) : Takes m [t] (.jump m target)
  | zero (hfamily : m.family = .zero) : Takes m [] (.zero m)

section Readers

variable {token : String}

theorem readRegister_eq_ok_iff {r : Register} :
    readRegister token = .ok r ↔ token ∈ r.spellings := by
  rw [← Register.ofSpelling?_eq_some_iff]
  unfold readRegister
  split <;> simp_all

theorem readLiteral_eq_ok_iff (expected : Expected) {v : Int} :
    readLiteral token expected = .ok v ↔ Literal.parse? token = some v := by
  unfold readLiteral
  split
  · simp_all
  · split <;> simp_all

theorem readImmediate_eq_ok_iff {v : Int} :
    readImmediate token = .ok v ↔ Literal.parse? token = some v := by
  rw [← readLiteral_eq_ok_iff .literal]
  unfold readImmediate
  split_ifs with hregister
  · -- A register is refused here, and is no literal either.
    constructor
    · intro herror
      cases herror
    · intro hliteral
      have hnone := Literal.ofSpelling?_of_parse? ((readLiteral_eq_ok_iff .literal).mp hliteral)
      rw [hnone] at hregister
      cases hregister
  · rfl

theorem readOperand_eq_ok_iff {operand : Operand Int} :
    readOperand token = .ok operand ↔ StatesOperand token operand := by
  unfold readOperand
  cases hregister : Register.ofSpelling? token with
  | some r =>
      have hspelling := Register.ofSpelling?_eq_some_iff.mp hregister
      constructor
      · rintro ⟨⟩
        exact .reg hspelling
      · intro hstates
        cases hstates with
        | reg hother =>
            rw [Register.ofSpelling?_eq_some_iff.mpr hother] at hregister
            cases hregister
            rfl
        | val hparse =>
            rw [Literal.ofSpelling?_of_parse? hparse] at hregister
            cases hregister
  | none =>
      constructor
      · intro hread
        cases hliteral : readLiteral token .registerOrLiteral with
        | error fault =>
            rw [hliteral] at hread
            cases hread
        | ok v =>
            rw [hliteral] at hread
            cases hread
            exact .val ((readLiteral_eq_ok_iff _).mp hliteral)
      · intro hstates
        cases hstates with
        | reg hspelling =>
            rw [Register.ofSpelling?_eq_some_iff.mpr hspelling] at hregister
            cases hregister
        | val hparse =>
            rw [(readLiteral_eq_ok_iff _).mpr hparse]
            rfl

/-- A target is never refused: what is not a register is kept as a token. -/
theorem readTarget_eq_iff {target : Operand String} :
    readTarget token = target ↔ StatesTarget token target := by
  unfold readTarget
  cases hregister : Register.ofSpelling? token with
  | some r =>
      have hspelling := Register.ofSpelling?_eq_some_iff.mp hregister
      constructor
      · rintro rfl
        exact .reg hspelling
      · intro hstates
        cases hstates with
        | reg hother =>
            rw [Register.ofSpelling?_eq_some_iff.mpr hother] at hregister
            cases hregister
            rfl
        | val hother => exact absurd hspelling (hother r)
  | none =>
      have hother := Register.ofSpelling?_eq_none_iff.mp hregister
      constructor
      · rintro rfl
        exact .val hother
      · intro hstates
        cases hstates with
        | reg hspelling => exact absurd hspelling (hother _)
        | val _ => rfl

end Readers

/-- The operands that a mnemonic accepts are those that its family takes, in number and in kind. -/
theorem ofOperands_eq_ok_iff {m : Mnemonic} {tokens : List String} {op : Operation} :
    ofOperands m tokens = .ok op ↔ (∀ token ∈ tokens, isIdentifier token) ∧ Takes m tokens op := by
  by_cases htokens : tokens.all isIdentifier
  · have hall : ∀ token ∈ tokens, isIdentifier token := List.all_eq_true.mp htokens
    unfold ofOperands
    rw [htokens, Bool.not_true, if_neg Bool.false_ne_true, and_iff_right hall]
    constructor
    · intro hop
      split at hop <;> simp only [Pass.bind_eq_ok, Pass.pure_eq_ok, Except.ok.injEq, reduceCtorEq,
        readRegister_eq_ok_iff, readImmediate_eq_ok_iff, readOperand_eq_ok_iff] at hop
      · obtain ⟨dest, hd, opA, ha, opB, hb, rfl⟩ := hop
        exact .alu ‹_› hd ha hb
      · obtain ⟨dest, hd, v, hi, rfl⟩ := hop
        exact .loadImm ‹_› hd hi
      · obtain ⟨data, hd, address, ha, rfl⟩ := hop
        exact .loadStore ‹_› hd ha
      · obtain ⟨cond, hc, rfl⟩ := hop
        exact .condJump ‹_› hc (readTarget_eq_iff.mp rfl)
      · subst hop
        exact .jump ‹_› (readTarget_eq_iff.mp rfl)
      · subst hop
        exact .zero ‹_›
    · intro htakes
      cases htakes with
      | alu hfamily hd ha hb =>
          simp only [hfamily, readRegister_eq_ok_iff.mpr hd, readRegister_eq_ok_iff.mpr ha,
            readOperand_eq_ok_iff.mpr hb]
          rfl
      | loadImm hfamily hd hi =>
          simp only [hfamily, readRegister_eq_ok_iff.mpr hd, readImmediate_eq_ok_iff.mpr hi]
          rfl
      | loadStore hfamily hd ha =>
          simp only [hfamily, readRegister_eq_ok_iff.mpr hd, readRegister_eq_ok_iff.mpr ha]
          rfl
      | condJump hfamily hc ht =>
          simp only [hfamily, readRegister_eq_ok_iff.mpr hc, readTarget_eq_iff.mpr ht]
          rfl
      | jump hfamily ht => simp only [hfamily, readTarget_eq_iff.mpr ht]
      | zero hfamily => simp only [hfamily]
  · have hnot : ¬∀ token ∈ tokens, isIdentifier token := fun hall =>
      htokens (List.all_eq_true.mpr hall)
    have hany : (!tokens.all isIdentifier) = true := by simpa using htokens
    unfold ofOperands
    rw [if_pos hany]
    simp only [reduceCtorEq, hnot, false_and]

/-! ### Statements -/

/-- The grammar of statements: a mnemonic that takes no operands, alone or with blanks behind it, or
a mnemonic, blanks, and the operands that it takes. -/
inductive States (code : String) (op : Operation) : Prop
  | bare {m : Mnemonic} {spelling : String} {blanks : List Char}
      (hspelling : spelling ∈ m.spellings) (hblanks : Blanks blanks)
      (hcode : code.toList = spelling.toList ++ blanks) (htakes : Takes m [] op)
  | applied {m : Mnemonic} {spelling : String} {blanks operands : List Char}
      {tokens : List String} (hspelling : spelling ∈ m.spellings) (hblanks : Blanks blanks)
      (hapart : blanks ≠ []) (hne : tokens ≠ []) (htokens : ∀ token ∈ tokens, isIdentifier token)
      (hoperands : Separates tokens operands)
      (hcode : code.toList = spelling.toList ++ blanks ++ operands) (htakes : Takes m tokens op)

theorem solid_of_mem_spellings {m : Mnemonic} {spelling : String}
    (hspelling : spelling ∈ m.spellings) : ∀ c ∈ spelling.toList, isBlank c = false := by
  intro c hc
  exact isBlank_of_isIdentifierChar (LineContent.isIdentifierChar_of_mem
    (Mnemonic.isIdentifier_of_mem_spellings hspelling) hc)

def StartsBlank (rest : List Char) : Prop :=
  ∀ c, rest.head? = some c → isBlank c

theorem startsBlank_of_blanks {blanks : List Char} (hblanks : Blanks blanks) :
    StartsBlank blanks := by
  intro c hc
  exact hblanks c (List.mem_of_head? hc)

theorem startsBlank_append {blanks : List Char} (hblanks : Blanks blanks) (hne : blanks ≠ [])
    (rest : List Char) : StartsBlank (blanks ++ rest) := by
  intro c hc
  rw [List.head?_append_of_ne_nil _ hne] at hc
  exact startsBlank_of_blanks hblanks c hc

/-- A statement that starts with a spelling of a mnemonic is read as that mnemonic, and what stands
behind it as the operands. -/
theorem parse_of_spelling {m : Mnemonic} {code spelling : String} {rest : List Char}
    (hspelling : spelling ∈ m.spellings) (hrest : StartsBlank rest)
    (hcode : code.toList = spelling.toList ++ rest) :
    parse code = ofOperands m (splitOperands rest) := by
  have hsolid := solid_of_mem_spellings hspelling
  have hread : ∀ after, (cutAt? isBlank code.toList).getD (code.toList, []) =
      (spelling.toList, after) → parse code = ofOperands m (splitOperands after) := by
    intro after hcut
    unfold parse
    simp only [hcut, String.ofList_toList, Mnemonic.isIdentifier_of_mem_spellings hspelling,
      Mnemonic.ofSpelling?_eq_some_iff.mpr hspelling, Bool.not_true, Bool.false_eq_true, if_false]
  cases rest with
  | nil =>
      rw [List.append_nil] at hcode
      apply hread
      rw [hcode, cutAt?_eq_none_iff.mpr hsolid, Option.getD_none]
  | cons c rest =>
      have hblank : Blanks [c] := by
        intro other hother
        obtain rfl := List.mem_singleton.mp hother
        exact hrest other rfl
      rw [← List.singleton_append, splitOperands_blanks_append hblank]
      apply hread
      rw [cutAt?_eq_some_iff.mpr ⟨c, hrest c rfl, hcode, hsolid⟩, Option.getD_some]

theorem exists_spelling_of_parse {code : String} {op : Operation} (hparse : parse code = .ok op) :
    ∃ (m : Mnemonic) (spelling : String) (rest : List Char), spelling ∈ m.spellings ∧
      StartsBlank rest ∧ code.toList = spelling.toList ++ rest := by
  have hword : ∀ word rest, (cutAt? isBlank code.toList).getD (code.toList, []) = (word, rest) →
      ∃ m : Mnemonic, String.ofList word ∈ m.spellings := by
    intro word rest hcut
    unfold parse at hparse
    simp only [hcut] at hparse
    split_ifs at hparse
    split at hparse
    · cases hparse
    · exact ⟨_, Mnemonic.ofSpelling?_eq_some_iff.mp ‹_›⟩
  cases hcut : cutAt? isBlank code.toList with
  | none =>
      obtain ⟨m, hspelling⟩ := hword code.toList [] (by rw [hcut, Option.getD_none])
      refine ⟨m, _, [], hspelling, ?_, by simp⟩
      intro c hc
      cases hc
  | some parts =>
      obtain ⟨word, after⟩ := parts
      obtain ⟨m, hspelling⟩ := hword word after (by rw [hcut, Option.getD_some])
      obtain ⟨separator, hseparator, hcode, -⟩ := cutAt?_eq_some_iff.mp hcut
      refine ⟨m, _, separator :: after, hspelling, ?_, by rw [String.toList_ofList, hcode]⟩
      rintro c ⟨⟩
      exact hseparator

/-- Reading only accepts what the grammar states. -/
theorem states_of_parse {code : String} {op : Operation} (hparse : parse code = .ok op) :
    States code op := by
  obtain ⟨m, spelling, rest, hspelling, hrest, hcode⟩ := exists_spelling_of_parse hparse
  rw [parse_of_spelling hspelling hrest hcode] at hparse
  by_cases hblanks : Blanks rest
  · rw [splitOperands_eq_nil_iff.mpr hblanks] at hparse
    exact .bare hspelling hblanks hcode (ofOperands_eq_ok_iff.mp hparse).2
  · obtain ⟨htokens, htakes⟩ := ofOperands_eq_ok_iff.mp hparse
    have hne : splitOperands rest ≠ [] := fun hnil => hblanks (splitOperands_eq_nil_iff.mp hnil)
    cases rest with
    | nil => exact absurd (fun c hc => by cases hc) hblanks
    | cons c rest =>
        have hblank : Blanks [c] := by
          intro other hother
          obtain rfl := List.mem_singleton.mp hother
          exact hrest other rfl
        have hsplit := splitOperands_blanks_append hblank rest
        have hoperands := (splitOperands_eq_iff htokens hne).mp hsplit.symm
        refine .applied hspelling hblank (List.cons_ne_nil _ _) hne htokens hoperands ?_ htakes
        rw [hcode, List.append_assoc, List.singleton_append]

/-- Everything that the grammar states is read, however it is spaced. -/
theorem parse_of_states {code : String} {op : Operation} (hstates : States code op) :
    parse code = .ok op := by
  cases hstates with
  | bare hspelling hblanks hcode htakes =>
      rw [parse_of_spelling hspelling (startsBlank_of_blanks hblanks) hcode,
        splitOperands_eq_nil_iff.mpr hblanks]
      exact ofOperands_eq_ok_iff.mpr ⟨by simp, htakes⟩
  | applied hspelling hblanks hapart hne htokens hoperands hcode htakes =>
      rw [List.append_assoc] at hcode
      rw [parse_of_spelling hspelling (startsBlank_append hblanks hapart _) hcode,
        splitOperands_blanks_append hblanks, (splitOperands_eq_iff htokens hne).mpr hoperands]
      exact ofOperands_eq_ok_iff.mpr ⟨htokens, htakes⟩

/-- **Statements.** The texts that are read as an operation are those of the grammar, and the
operation is the one that the grammar gives. -/
theorem parse_exact (code : String) (op : Operation) : parse code = .ok op ↔ States code op :=
  ⟨states_of_parse, parse_of_states⟩

example : parse "noop\u00a0 " = .ok (.zero .nop) ∧
    parse "xor\tlr,sp ,\u2003-1 " = .ok (.alu .xor .r7 .r6 (.val (-1))) ∧
    parse "jmp r8" = .ok (.jump .jmp (.val "r8")) ∧
    parse " stop" = .error .malformedLine ∧
    parse "ldw r1, r2," = .error (.malformedArguments .ldw) := by decide +kernel

end Operation

end WordAssembler
