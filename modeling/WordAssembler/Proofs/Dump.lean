import WordAssembler.Dump
import WordAssembler.Proofs.Placement
import WordAssembler.Proofs.Reassembly

/-!
# A dump determines the program

The dump of an assembly is written to be looked at: its rows are coloured, line numbers may outgrow
their column, and the section of the labels is left out where there are none. It can be read back
all the same. No row contains a line end, since the names in it were checked when they were read,
and no row is a rule, so the rows are found again in the text. Within a row, the bars and the escape
sequences tell the columns apart.
-/

namespace WordAssembler

theorem append_cons_cancel {α : Type} {a : α} {front front' back back' : List α}
    (hfront : a ∉ front) (hfront' : a ∉ front')
    (heq : front ++ a :: back = front' ++ a :: back') : front = front' ∧ back = back' := by
  classical
  have hlength := congrArg (List.idxOf a) heq
  rw [List.idxOf_append_of_notMem hfront, List.idxOf_append_of_notMem hfront',
    List.idxOf_cons_self, List.idxOf_cons_self, Nat.add_zero, Nat.add_zero] at hlength
  obtain ⟨hfronts, hrest⟩ := List.append_inj heq hlength
  exact ⟨hfronts, (List.cons.inj hrest).2⟩

namespace Text

/-- A separator that no column holds a character of ends the column, so two rows that agree as texts
agree column by column. -/
theorem append_inj_of_separator {column column' separator rest rest' : String} {c : Char}
    (hseparator : c ∈ separator.toList) (hcolumn : c ∉ column.toList)
    (hcolumn' : c ∉ column'.toList)
    (heq : column ++ (separator ++ rest) = column' ++ (separator ++ rest')) :
    column = column' ∧ rest = rest' := by
  obtain ⟨front, back, hsplit, hfront⟩ := List.eq_append_cons_of_mem hseparator
  have hchars : ∀ column rest : String, (column ++ (separator ++ rest)).toList =
      (column.toList ++ front) ++ c :: (back ++ rest.toList) := by
    simp [hsplit]
  have hlists := congrArg String.toList heq
  rw [hchars, hchars] at hlists
  obtain ⟨hcolumns, hrests⟩ := append_cons_cancel (by simp [hcolumn, hfront])
    (by simp [hcolumn', hfront]) hlists
  exact ⟨String.toList_inj.mp (List.append_cancel_right hcolumns),
    String.toList_inj.mp (List.append_cancel_left hrests)⟩

/-! ### Texts that stay on one line -/

/-- Holds of a text that stays on one line: beside the character that starts an escape sequence it
has printable ASCII only, from the space to the tilde, so nothing in it ends a line. -/
def OneLine (text : String) : Prop :=
  ∀ c ∈ text.toList, c = '\x1b' ∨ 32 ≤ c.toNat ∧ c.toNat ≤ 126

instance (text : String) : Decidable (OneLine text) :=
  List.decidableBAll (fun c => c = '\x1b' ∨ 32 ≤ c.toNat ∧ c.toNat ≤ 126) text.toList

theorem OneLine.append {front back : String} (hfront : OneLine front) (hback : OneLine back) :
    OneLine (front ++ back) := by
  unfold OneLine
  rw [String.toList_append, List.forall_mem_append]
  exact ⟨hfront, hback⟩

theorem OneLine.newline_not_mem {text : String} (htext : OneLine text) : '\n' ∉ text.toList := by
  intro hmem
  exact absurd (htext '\n' hmem) (by decide)

theorem oneLine_of_isIdentifier {name : String} (hname : isIdentifier name) : OneLine name := by
  intro c hc
  obtain ⟨hleast, hgreatest⟩ :=
    toNat_of_isIdentifierChar (LineContent.isIdentifierChar_of_mem hname hc)
  omega

theorem oneLine_escape (code : Nat) : OneLine (Style.escape code) := by
  have hdecimal := oneLine_of_isIdentifier (Numeral.isIdentifier_decimal code)
  exact (OneLine.append (by decide) hdecimal).append (by decide)

theorem OneLine.paint {text : String} (htext : OneLine text) (style : Style) :
    OneLine (style.paint text) :=
  ((oneLine_escape _).append htext).append (oneLine_escape _)

theorem toList_alignRight (width : Nat) (s : String) :
    (alignRight width s).toList = List.replicate (width - s.toList.length) ' ' ++ s.toList := by
  rw [alignRight, String.toList_ofList, List.leftpad]

theorem OneLine.alignRight {text : String} (htext : OneLine text) (width : Nat) :
    OneLine (alignRight width text) := by
  intro c hc
  rw [toList_alignRight, List.mem_append] at hc
  rcases hc with hblank | hc
  · rw [(List.mem_replicate.mp hblank).2]
    decide
  · exact htext c hc

theorem OneLine.alignLeft {text : String} (htext : OneLine text) (width : Nat) :
    OneLine (alignLeft width text) := by
  intro c hc
  rw [toList_alignLeft, List.mem_append] at hc
  rcases hc with hc | hblank
  · exact htext c hc
  · rw [(List.mem_replicate.mp hblank).2]
    decide

end Text

open Text Numeral

namespace Instruction

theorem oneLine_paintTarget (t : Operand Int16) : OneLine (paintTarget t) := by
  cases t with
  | reg r => exact oneLine_of_isIdentifier r.isIdentifier_name
  | val o =>
      have hdecimal := oneLine_of_isIdentifier (isIdentifier_decimal o.toInt.natAbs)
      refine OneLine.paint ?_ _
      unfold signed
      split_ifs
      · exact OneLine.append (by decide) hdecimal
      · exact OneLine.append (by decide) hdecimal

theorem oneLine_paintOperands (i : Instruction) : OneLine i.paintOperands := by
  have hname : ∀ r : Register, OneLine r.name := fun r =>
    oneLine_of_isIdentifier r.isIdentifier_name
  have hcomma : OneLine ", " := by decide
  have himmediate : ∀ width n, OneLine (Style.yellow.paint ("0x" ++ hexUpper width n)) :=
    fun width n =>
      (OneLine.append (by decide) (oneLine_of_isIdentifier (isIdentifier_hexUpper width n))).paint _
  rcases i with ⟨m, d, a, b | v⟩ | ⟨m, d, v⟩ | ⟨m, d, a⟩ | ⟨m, c, t⟩ | ⟨m, t⟩ | ⟨m⟩
  · exact ((((hname d).append hcomma).append (hname a)).append hcomma).append (hname b)
  · exact ((((hname d).append hcomma).append (hname a)).append hcomma).append (himmediate 1 _)
  · exact ((hname d).append hcomma).append (himmediate 2 _)
  · exact ((hname d).append hcomma).append (hname a)
  · exact ((hname c).append hcomma).append (oneLine_paintTarget t)
  · exact oneLine_paintTarget t
  · exact List.forall_mem_nil _

theorem oneLine_painted (i : Instruction) : OneLine i.painted := by
  have hcolumn := (oneLine_of_isIdentifier i.mnemonic.isIdentifier_name).alignLeft 6
  exact ((((oneLine_escape _).append hcolumn).append (oneLine_escape _)).append
    i.oneLine_paintOperands).append (oneLine_escape _)

end Instruction

namespace Assembly

open Style

/-! ### The lines of a dump -/

theorem oneLine_dumpRow (listed : Listed) : OneLine (dumpRow listed) := by
  have hnumber := oneLine_of_isIdentifier (isIdentifier_decimal listed.statement.line.number)
  have hhex : ∀ n, OneLine (hexUpper 4 n) := fun n =>
    oneLine_of_isIdentifier (isIdentifier_hexUpper 4 n)
  have hbar : OneLine " | " := by decide
  exact ((((((OneLine.append (by decide) (hnumber.alignRight 4)).append hbar).append
    ((hhex _).paint green)).append hbar).append ((hhex _).paint yellow)).append hbar).append
    listed.instruction.oneLine_painted

theorem oneLine_dumpLabel {label : String × Nat} (hname : isIdentifier label.1) :
    OneLine (dumpLabel label) := by
  have hhex := oneLine_of_isIdentifier (isIdentifier_hexUpper 4 label.2)
  exact ((OneLine.append (by decide) (hhex.paint green)).append (by decide)).append
    (oneLine_of_isIdentifier hname)

def labelLines (labels : List String) : List String :=
  if labels = [] then [] else labels ++ [dumpRule]

theorem dumpLines_eq (assembly : Assembly) : assembly.dumpLines =
    [dumpRule, "| line | pc   | word | inst", dumpRule] ++ assembly.listing.map dumpRow ++
      [dumpRule] ++ labelLines (assembly.labels.toList.map dumpLabel) := by
  rw [dumpLines, labelLines]
  simp only [LabelTable.size, LabelTable.toList, List.map_eq_nil_iff, List.length_eq_zero_iff]

section Assembled

variable {source : String} {assembly : Assembly}

theorem name_and_address_of_mem_labels (hassemble : assemble source = .ok assembly)
    {label : String × Nat} (hlabel : label ∈ assembly.labels.toList) :
    isIdentifier label.1 ∧ label.2 ≤ capacity := by
  obtain ⟨-, hlabels, -, -⟩ := assemble_eq_ok.mp hassemble
  rw [LabelTable.toList, hlabels] at hlabel
  obtain ⟨placed, hplaced, rfl⟩ := List.mem_map.mp hlabel
  constructor
  · have hname := List.mem_map_of_mem (f := Label.name) hplaced
    rw [Layout.map_name_labelsFrom] at hname
    obtain ⟨line, -, hline⟩ := List.mem_filterMap.mp hname
    exact (Layout.name_of_label?_eq_some hline).1
  · have haddress := Layout.address_le_of_mem_labelsFrom hplaced
    rw [Nat.zero_add, ← size_eq_extent hassemble] at haddress
    exact Nat.le_trans haddress assembly.program.length_le

theorem address_lt_of_mem_listing (hassemble : assemble source = .ok assembly) {listed : Listed}
    (hlisted : listed ∈ assembly.listing) : listed.statement.address < capacity := by
  obtain ⟨index, hindex⟩ := List.mem_iff_getElem?.mp hlisted
  obtain ⟨hlt, -⟩ := List.getElem?_eq_some_iff.mp hindex
  rw [(assemble_of_getElem?_listing hassemble hindex).1]
  rw [← size_eq_length_listing hassemble] at hlt
  exact Nat.lt_of_lt_of_le hlt assembly.program.length_le

/-- Label names are identifiers and everything else in a row is printed by the program, so no row
breaks its line. -/
theorem oneLine_dumpLines (hassemble : assemble source = .ok assembly) :
    ∀ line ∈ assembly.dumpLines, OneLine line := by
  have hrule : OneLine dumpRule := by decide
  have hheader : OneLine "| line | pc   | word | inst" := by decide
  rw [dumpLines_eq]
  simp only [List.forall_mem_append, List.forall_mem_cons, hrule, hheader, List.not_mem_nil,
    false_implies, implies_true, and_true, true_and]
  constructor
  · intro line hline
    obtain ⟨listed, -, rfl⟩ := List.mem_map.mp hline
    exact oneLine_dumpRow listed
  · unfold labelLines
    split_ifs
    · exact List.forall_mem_nil _
    · rw [List.forall_mem_append, List.forall_mem_singleton]
      refine ⟨?_, hrule⟩
      intro line hline
      obtain ⟨label, hlabel, rfl⟩ := List.mem_map.mp hline
      exact oneLine_dumpLabel (name_and_address_of_mem_labels hassemble hlabel).1

theorem rawLines_dump (hassemble : assemble source = .ok assembly) :
    rawLines assembly.dump = assembly.dumpLines ++ [""] :=
  rawLines_of_ended fun line hline => (oneLine_dumpLines hassemble line hline).newline_not_mem

end Assembled

/-! ### What a row shows -/

def ShowsListed (row : String) (listed : Listed) : Prop :=
  ∃ address word,
    row = "| " ++ alignRight 4 (decimal listed.statement.line.number) ++ " | " ++
      green.paint address ++ " | " ++ yellow.paint word ++ " | " ++ listed.instruction.painted ∧
    HexWord "0123456789ABCDEF" address listed.statement.address ∧
    HexWord "0123456789ABCDEF" word listed.word.toNat

def ShowsLabel (row : String) (label : String × Nat) : Prop :=
  ∃ address, row = "  " ++ green.paint address ++ " " ++ label.1 ∧
    HexWord "0123456789ABCDEF" address label.2

theorem showsListed_dumpRow {listed : Listed} (haddress : listed.statement.address < 65536) :
    ShowsListed (dumpRow listed) listed :=
  ⟨_, _, rfl, hexWord_hex (by decide) haddress,
    hexWord_hex (by decide) listed.word.toNat_lt⟩

theorem showsLabel_dumpLabel {label : String × Nat} (haddress : label.2 < 65536) :
    ShowsLabel (dumpLabel label) label :=
  ⟨_, rfl, hexWord_hex (by decide) haddress⟩

/-! ### Reading a row back -/

theorem alignRight_decimal_injective (width : Nat) :
    Function.Injective fun n => alignRight width (decimal n) := by
  -- The number is what is left of its column once the blanks are taken out.
  have hdigits : ∀ n, (alignRight width (decimal n)).toList.filter Char.isDigit =
      (decimal n).toList := by
    intro n
    rw [toList_alignRight, List.filter_append, List.filter_replicate_of_neg (by decide),
      List.nil_append, List.filter_eq_self]
    exact fun c hc => mem_decimal hc
  intro n m heq
  have hfiltered := congrArg (fun column : String => column.toList.filter Char.isDigit) heq
  simp only [hdigits, String.toList_inj] at hfiltered
  exact decimal_injective hfiltered

theorem paint_injective (style : Style) : Function.Injective style.paint := by
  intro text other heq
  simpa [Style.paint, ← String.toList_inj] using heq

theorem bar_not_mem_alignRight (width n : Nat) : '|' ∉ (alignRight width (decimal n)).toList := by
  simp [toList_alignRight,
    LineContent.not_mem_of_isIdentifier (isIdentifier_decimal n) (c := '|') (by decide)]

theorem bar_not_mem_paint_hexUpper (style : Style) (width n : Nat) :
    '|' ∉ (style.paint (hexUpper width n)).toList := by
  have hcode : ∀ code, '|' ∉ (escape code).toList := by
    intro code
    simp [escape,
      LineContent.not_mem_of_isIdentifier (isIdentifier_decimal code) (c := '|') (by decide)]
  simp [Style.paint, Style.on, Style.off, hcode,
    LineContent.not_mem_of_isIdentifier (isIdentifier_hexUpper width n) (c := '|') (by decide)]

/-- The three numbers of a row can be read back from it. -/
theorem columns_of_dumpRow_eq {listed other : Listed} (heq : dumpRow listed = dumpRow other) :
    listed.statement.line.number = other.statement.line.number ∧
      listed.statement.address = other.statement.address ∧ listed.word = other.word := by
  simp only [dumpRow, String.append_assoc, String.append_right_inj] at heq
  have hbar : '|' ∈ " | ".toList := by decide
  obtain ⟨hnumber, heq⟩ := append_inj_of_separator hbar (bar_not_mem_alignRight _ _)
    (bar_not_mem_alignRight _ _) heq
  obtain ⟨haddress, heq⟩ := append_inj_of_separator hbar (bar_not_mem_paint_hexUpper _ _ _)
    (bar_not_mem_paint_hexUpper _ _ _) heq
  obtain ⟨hword, -⟩ := append_inj_of_separator hbar (bar_not_mem_paint_hexUpper _ _ _)
    (bar_not_mem_paint_hexUpper _ _ _) heq
  exact ⟨alignRight_decimal_injective 4 hnumber,
    hex_injective .upper 4 (paint_injective green haddress),
    UInt16.toNat_inj.mp (hex_injective .upper 4 (paint_injective yellow hword))⟩

/-- The last column adds nothing to the word beside it, since the word decodes to the instruction
that is shown. -/
theorem dumpRow_eq_iff {listed other : Listed}
    (haddress : listed.statement.address = other.statement.address)
    (hlisted : Instruction.decode? listed.word = some listed.instruction)
    (hother : Instruction.decode? other.word = some other.instruction) :
    dumpRow listed = dumpRow other ↔ listed.instruction = other.instruction ∧
      listed.statement.line.number = other.statement.line.number := by
  constructor
  · intro heq
    obtain ⟨hnumber, -, hword⟩ := columns_of_dumpRow_eq heq
    rw [hword, hother] at hlisted
    exact ⟨(Option.some.inj hlisted).symm, hnumber⟩
  · rintro ⟨hinstruction, hnumber⟩
    rw [dumpRow, dumpRow, Listed.word, Listed.word, haddress, hinstruction, hnumber]

theorem dumpLabel_injective : Function.Injective dumpLabel := by
  rintro ⟨name, address⟩ ⟨other, address'⟩ heq
  simp only [dumpLabel, paint, String.append_assoc, String.append_right_inj] at heq
  have hescape : ∀ n, '\x1b' ∉ (hexUpper 4 n).toList := fun n =>
    LineContent.not_mem_of_isIdentifier (isIdentifier_hexUpper 4 n) (by decide)
  -- The escape sequence that ends the colour also ends the address, however many digits it has.
  obtain ⟨haddress, hname⟩ := append_inj_of_separator (c := '\x1b') (by decide) (hescape _)
    (hescape _) heq
  rw [String.append_right_inj] at hname
  rw [hname, hex_injective .upper 4 haddress]

/-! ### Reading the sections back -/

theorem labelLines_injective : Function.Injective labelLines := by
  intro labels others heq
  unfold labelLines at heq
  split_ifs at heq with hlabels hothers hothers
  · rw [hlabels, hothers]
  · simp at heq
  · simp at heq
  · exact List.append_cancel_right heq

theorem dumpRule_not_mem_rows (listing : List Listed) : dumpRule ∉ listing.map dumpRow := by
  intro hmem
  obtain ⟨listed, -, hrow⟩ := List.mem_map.mp hmem
  have hhead := congrArg (fun line : String => line.toList.head?) hrow
  simp [dumpRow, dumpRule] at hhead

section TwoAssemblies

variable {source other : String} {a b : Assembly}

/-- The rules between the sections tell where the rows end and the labels begin. -/
theorem dumpLines_eq_iff : a.dumpLines = b.dumpLines ↔
    a.listing.map dumpRow = b.listing.map dumpRow ∧ a.labels.toList = b.labels.toList := by
  rw [dumpLines_eq, dumpLines_eq]
  constructor
  · intro hlines
    simp only [List.append_assoc, List.append_cancel_left_eq, List.singleton_append] at hlines
    -- No row is a rule, so the rows end at the same place on both sides.
    obtain ⟨hrows, hlabels⟩ := append_cons_cancel (dumpRule_not_mem_rows _)
      (dumpRule_not_mem_rows _) hlines
    exact ⟨hrows, List.map_injective_iff.mpr dumpLabel_injective (labelLines_injective hlabels)⟩
  · rintro ⟨hrows, hlabels⟩
    rw [hrows, hlabels]

theorem map_dumpRow_eq_iff (ha : assemble source = .ok a) (hb : assemble other = .ok b) :
    a.listing.map dumpRow = b.listing.map dumpRow ↔
      a.listing.map Listed.instruction = b.listing.map Listed.instruction ∧
      a.listing.map (·.statement.line.number) = b.listing.map (·.statement.line.number) := by
  simp only [List.ext_getElem?_iff, List.getElem?_map, ← forall_and]
  apply forall_congr'
  intro index
  cases hx : a.listing[index]? with
  | none => cases b.listing[index]? <;> simp
  | some x =>
      cases hy : b.listing[index]? with
      | none => simp
      | some y =>
          obtain ⟨haddress, hlisted⟩ := assemble_of_getElem?_listing ha hx
          obtain ⟨haddress', hlisted'⟩ := assemble_of_getElem?_listing hb hy
          simp only [Option.map_some, Option.some.injEq]
          exact dumpRow_eq_iff (haddress.trans haddress'.symm) (decode?_word hlisted)
            (decode?_word hlisted')

theorem dump_eq_iff_dumpLines_eq (ha : assemble source = .ok a) (hb : assemble other = .ok b) :
    a.dump = b.dump ↔ a.dumpLines = b.dumpLines := by
  constructor
  · intro hdump
    have hlines := congrArg rawLines hdump
    rw [rawLines_dump ha, rawLines_dump hb] at hlines
    exact List.append_cancel_right hlines
  · intro hlines
    rw [dump, dump, hlines]

theorem words_eq_of_instructions_eq (ha : assemble source = .ok a) (hb : assemble other = .ok b)
    (hinstructions : a.listing.map Listed.instruction = b.listing.map Listed.instruction) :
    a.program.words = b.program.words := by
  have hencode : Listed.word = Instruction.encode ∘ Listed.instruction := rfl
  obtain ⟨-, -, -, hwords⟩ := assemble_eq_ok.mp ha
  obtain ⟨-, -, -, hwords'⟩ := assemble_eq_ok.mp hb
  rw [hwords, hwords', hencode, ← List.map_map, ← List.map_map, hinstructions]

end TwoAssemblies

/-- **The dump determines the program.** The dump of an assembly is a header, a row for each
statement and, where there are labels, a row for each label. Every row stays on one line, and every
address and word in it has exactly four upper-case hexadecimal digits. Two dumps are the same text
exactly where the words, the instructions, the line numbers and the labels with their addresses are
the same. -/
theorem dump_exact :
    (∀ source assembly, assemble source = .ok assembly →
      (∀ line ∈ rawLines assembly.dump, OneLine line) ∧
      ∃ rows labels, rawLines assembly.dump =
          [dumpRule, "| line | pc   | word | inst", dumpRule] ++ rows ++ [dumpRule] ++
            (if labels = [] then [] else labels ++ [dumpRule]) ++ [""] ∧
        List.Forall₂ ShowsListed rows assembly.listing ∧
        List.Forall₂ ShowsLabel labels assembly.labels.toList) ∧
    ∀ source other a b, assemble source = .ok a → assemble other = .ok b →
      (a.dump = b.dump ↔ a.program.words = b.program.words ∧
        a.listing.map Listed.instruction = b.listing.map Listed.instruction ∧
        a.listing.map (·.statement.line.number) = b.listing.map (·.statement.line.number) ∧
        a.labels.toList = b.labels.toList) := by
  refine ⟨?_, ?_⟩
  · intro source assembly hassemble
    have hlines := rawLines_dump hassemble
    refine ⟨?_, assembly.listing.map dumpRow, assembly.labels.toList.map dumpLabel, ?_, ?_, ?_⟩
    · rw [hlines, List.forall_mem_append, List.forall_mem_singleton]
      exact ⟨oneLine_dumpLines hassemble, by decide⟩
    · rw [hlines, dumpLines_eq, labelLines]
    · rw [List.forall₂_map_left_iff, List.forall₂_same]
      intro listed hlisted
      have hlt := address_lt_of_mem_listing hassemble hlisted
      exact showsListed_dumpRow (Nat.lt_trans hlt (by decide))
    · rw [List.forall₂_map_left_iff, List.forall₂_same]
      intro label hlabel
      have hle := (name_and_address_of_mem_labels hassemble hlabel).2
      exact showsLabel_dumpLabel (Nat.lt_of_le_of_lt hle (by decide))
  · intro source other a b ha hb
    rw [dump_eq_iff_dumpLines_eq ha hb, dumpLines_eq_iff, map_dumpRow_eq_iff ha hb, and_assoc]
    constructor
    · intro hshown
      exact ⟨words_eq_of_instructions_eq ha hb hshown.1, hshown⟩
    · exact And.right

/-! ### A label behind the last word of the memory -/

section LabelBehind

variable {count : Nat} {source : String}

theorem entries_label_behind (count : Nat) :
    Entry.ofSource ("\n".intercalate (List.replicate count "nop" ++ ["end:"])) =
      (List.replicate count "nop").map Entry.code ++ [.label "end"] := by
  have hnop : Entry.ofText "nop" = [.code "nop"] := by decide +kernel
  have hend : Entry.ofText "end:" = [.label "end"] := by decide +kernel
  rw [Entry.ofSource_intercalate]
  · simp [List.flatMap_replicate, hnop, hend]
  · intro line hline
    rw [List.mem_append, List.mem_replicate, List.mem_singleton] at hline
    rcases hline with ⟨-, rfl⟩ | rfl
    all_goals decide

theorem exists_layout_label_behind
    (hentries : Entry.ofSource source =
      (List.replicate count "nop").map Entry.code ++ [.label "end"]) :
    ∃ layout, Layout.ofLines (SourceLine.kept source) = .ok layout ∧
      layout.labels.toList = [("end", count)] ∧
      layout.statements.toList.map Statement.code = List.replicate count "nop" := by
  obtain ⟨above, habove, hnone, hcodes⟩ := Outline.foldlM_code (List.replicate count "nop") {}
  rw [List.map_nil, List.nil_append] at hcodes
  have hlength : above.statements.length = count := by
    rw [← List.length_map Prod.snd, hcodes, List.length_replicate]
  have houtcome : Pass.outcome Layout.outline (Layout.ofLines (SourceLine.kept source)) =
      .ok { above with labels := [("end", count)] } := by
    rw [Layout.outcome_ofLines]
    change (Entry.ofSource source).foldlM Outline.add {} = _
    rw [hentries, List.foldlM_append, habove]
    simp [Outline.add, hnone, hlength, bind, Except.bind, pure, Except.pure]
  obtain ⟨layout, hlayout, houtline⟩ := Pass.outcome_eq_ok.mp houtcome
  refine ⟨layout, hlayout, congrArg Outline.labels houtline, ?_⟩
  have hstatements := congrArg (fun outline => outline.statements.map Prod.snd) houtline
  simpa [Layout.outline, Function.comp_def, hcodes] using hstatements

theorem exists_assembly_label_behind (hcount : count ≤ capacity)
    (hentries : Entry.ofSource source =
      (List.replicate count "nop").map Entry.code ++ [.label "end"]) :
    ∃ assembly, assemble source = .ok assembly ∧ assembly.labels.toList = [("end", count)] := by
  obtain ⟨layout, hlayout, hlabels, hcodes⟩ := exists_layout_label_behind hentries
  have hsize : layout.statements.size = count := by
    rw [← Array.length_toList, ← List.length_map Statement.code, hcodes, List.length_replicate]
  have hfaultless : Statement.Faultless layout.labels layout.statements.toList := by
    intro statement hstatement
    have hcode := List.mem_map_of_mem (f := Statement.code) hstatement
    rw [hcodes, List.mem_replicate] at hcode
    have hparse : Operation.parse "nop" = .ok (.zero .nop) := by decide +kernel
    rw [Statement.not_refused_iff]
    exact ⟨⟨statement, .zero .nop, .zero .nop⟩,
      Statement.assemble_eq_ok.mpr ⟨rfl, hcode.2 ▸ hparse, rfl⟩⟩
  obtain ⟨assembly, hassemble⟩ := exists_assembly hlayout hfaultless (hsize ▸ hcount)
  obtain ⟨-, hplaced, -, -⟩ := assemble_eq_ok.mp hassemble
  obtain ⟨-, hplaced', -⟩ := Layout.ofLines_eq_ok.mp hlayout
  refine ⟨assembly, hassemble, ?_⟩
  rw [← hlabels, LabelTable.toList, LabelTable.toList, hplaced, hplaced']

end LabelBehind

theorem dump_exact_full_memory :
    (∃ assembly row,
      assemble ("\n".intercalate (List.replicate 32768 "nop" ++ ["end:"])) = .ok assembly ∧
      row ∈ rawLines assembly.dump ∧ ShowsLabel row ("end", 32768)) ∧
    ∃ a b, assemble "top: ldi r0, 300\njmp top" = .ok a ∧
      assemble " top : ldi r0, 0x2C ; low byte\n\tjmp -2" = .ok b ∧ a.dump = b.dump ∧
      a.program.words = b.program.words ∧
      a.listing.map Listed.instruction = b.listing.map Listed.instruction := by
  constructor
  · obtain ⟨assembly, hassemble, hlabels⟩ :=
      exists_assembly_label_behind (Nat.le_refl capacity) (entries_label_behind capacity)
    obtain ⟨-, rows, labels, hlines, -, hshown⟩ := dump_exact.1 _ assembly hassemble
    rw [hlabels] at hshown
    obtain ⟨row, below, hrow, -, rfl⟩ := List.forall₂_cons_right_iff.mp hshown
    refine ⟨assembly, row, hassemble, ?_, hrow⟩
    simp [hlines]
  · have hsame : (assemble "top: ldi r0, 300\njmp top").toOption.map dump =
        (assemble " top : ldi r0, 0x2C ; low byte\n\tjmp -2").toOption.map dump := by
      decide +kernel
    have hfirst : (assemble "top: ldi r0, 300\njmp top").toOption.map
        (fun assembly => assembly.program.size) = some 2 := by decide +kernel
    obtain ⟨a, ha, -⟩ := Pass.map_toOption_eq_some.mp hfirst
    have hdump : (assemble "top: ldi r0, 300\njmp top").toOption.map dump = some a.dump := by
      rw [ha]
      rfl
    obtain ⟨b, hb, hdumps⟩ := Pass.map_toOption_eq_some.mp (hsame.symm.trans hdump)
    obtain ⟨hwords, hinstructions, -⟩ := (dump_exact.2 _ _ a b ha hb).mp hdumps.symm
    exact ⟨a, b, ha, hb, hdumps.symm, hwords, hinstructions⟩

end Assembly

end WordAssembler
