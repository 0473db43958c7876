import WordAssembler.Proofs.Assembly
import WordAssembler.Proofs.Lines

/-!
# Relocation

A source can be put below another one. Its lines move down by the lines above them and its words by
the words above them, labels and jumps alike, so every distance that a jump covers stays what it
was. What could go wrong is a name: a jump finds its label in the common table as it found it in
its own only if the other source does not define that name, be it spelled like a number.
-/

namespace WordAssembler

open SourceLine

/-! ### Moving down

Everything moves by `count` lines and `base` words. -/

def Label.below (count base : Nat) (label : Label) : Label :=
  { label with line := label.line.below count, address := label.address + base }

def Statement.below (count base : Nat) (statement : Statement) : Statement :=
  { statement with address := statement.address + base, line := statement.line.below count }

def Listed.below (count base : Nat) (listed : Listed) : Listed :=
  { listed with statement := listed.statement.below count base }

def Warning.below (count : Nat) (warning : Warning) : Warning :=
  { warning with line := warning.line.below count }

theorem SourceLine.readable_below {line : SourceLine} (count : Nat) (hline : line.Readable) :
    (line.below count).Readable :=
  hline

theorem SourceLine.extent_below (line : SourceLine) (count : Nat) :
    (line.below count).extent = line.extent :=
  rfl

theorem SourceLine.label?_below (line : SourceLine) (count : Nat) :
    (line.below count).label? = line.label? :=
  rfl

theorem SourceLine.code?_below (line : SourceLine) (count : Nat) :
    (line.below count).code? = line.code? :=
  rfl

theorem SourceLine.labelsAt_below (count base : Nat) (line : SourceLine) (address : Nat) :
    (line.below count).labelsAt (address + base) =
      (line.labelsAt address).map (Label.below count base) := by
  rw [labelsAt, labelsAt, label?_below]
  cases line.label? <;> rfl

theorem SourceLine.statementsAt_below (count base : Nat) (line : SourceLine) (address : Nat) :
    (line.below count).statementsAt (address + base) =
      (line.statementsAt address).map (Statement.below count base) := by
  rw [statementsAt, statementsAt, code?_below]
  cases line.code? <;> rfl

namespace Layout

/-- The lower lines add what they add from where the upper ones end. -/
theorem addedFrom_append {α : Type} (added : SourceLine → Nat → List α) (address : Nat)
    (upper lower : List SourceLine) : addedFrom added address (upper ++ lower) =
      addedFrom added address upper ++ addedFrom added (address + extent upper) lower := by
  induction upper generalizing address with
  | nil => rfl
  | cons line upper ih =>
      rw [List.cons_append, addedFrom, addedFrom, ih, extent, Nat.add_assoc, List.append_assoc]

/-- Moving lines down moves what they add and changes nothing else of it. -/
theorem addedFrom_below {α : Type} {added : SourceLine → Nat → List α} {count base : Nat}
    {move : α → α} (hadded : ∀ line address,
      added (line.below count) (address + base) = (added line address).map move)
    (address : Nat) (lines : List SourceLine) :
    addedFrom added (address + base) (lines.map (SourceLine.below count)) =
      (addedFrom added address lines).map move := by
  induction lines generalizing address with
  | nil => rfl
  | cons line lines ih =>
      rw [List.map_cons, addedFrom, addedFrom, hadded, extent_below, Nat.add_right_comm, ih,
        List.map_append]

theorem labelsFrom_append_below (count : Nat) (upper lower : List SourceLine) :
    labelsFrom 0 (upper ++ lower.map (SourceLine.below count)) =
      labelsFrom 0 upper ++ (labelsFrom 0 lower).map (Label.below count (extent upper)) := by
  rw [labelsFrom, addedFrom_append, addedFrom_below (labelsAt_below count (extent upper))]
  rfl

theorem statementsFrom_append_below (count : Nat) (upper lower : List SourceLine) :
    statementsFrom 0 (upper ++ lower.map (SourceLine.below count)) = statementsFrom 0 upper ++
      (statementsFrom 0 lower).map (Statement.below count (extent upper)) := by
  rw [statementsFrom, addedFrom_append,
    addedFrom_below (statementsAt_below count (extent upper))]
  rfl

end Layout

/-! ### Jumps that move with their labels -/

/-- An offset is a distance, so it stays the same when a statement and its label are moved together.
-/
theorem Operation.offset_of_moved {labels other : LabelTable} {base : Nat} {token : String}
    (hmoved : other.address? token = (labels.address? token).map (· + base)) (address : Nat) :
    offset other (address + base) token = offset labels address token := by
  unfold offset
  rw [hmoved]
  cases labels.address? token with
  | none => rfl
  | some destination =>
      have hdistance : ((destination + base : Nat) : Int) - (((address + base : Nat) : Int) + 1) =
          destination - (address + 1) := by omega
      simpa using hdistance

/-- A statement assembles to the same word once it is moved, if every label it names is moved with
it. -/
theorem Statement.assemble_below {labels other : LabelTable} {statement : Statement}
    {listed : Listed} (count base : Nat) (hlisted : statement.assemble labels = .ok listed)
    (hmoved : ∀ token, listed.operation.token? = some token →
      other.address? token = (labels.address? token).map (· + base)) :
    (statement.below count base).assemble other = .ok (listed.below count base) := by
  obtain ⟨rfl, hparse, hresolve⟩ := assemble_eq_ok.mp hlisted
  refine assemble_eq_ok.mpr ⟨rfl, hparse, ?_⟩
  have hsame : listed.operation.resolve other (listed.statement.address + base) =
      listed.operation.resolve labels listed.statement.address := by
    apply Operation.resolve_congr
    intro token htoken
    exact Operation.offset_of_moved (hmoved token htoken) listed.statement.address
  exact hsame.trans hresolve

theorem Statement.forall₂_assemble_below {labels other : LabelTable} {statements : List Statement}
    {listing : List Listed} (count base : Nat)
    (hlisting : List.Forall₂ (fun statement listed => statement.assemble labels = .ok listed)
      statements listing)
    (hmoved : ∀ listed ∈ listing, ∀ token, listed.operation.token? = some token →
      other.address? token = (labels.address? token).map (· + base)) :
    List.Forall₂ (fun statement listed => statement.assemble other = .ok listed)
      (statements.map (Statement.below count base)) (listing.map (Listed.below count base)) := by
  induction hlisting with
  | nil => exact .nil
  | cons hlisted _ ih =>
      rw [List.forall_mem_cons] at hmoved
      exact .cons (assemble_below count base hlisted hmoved.1) (ih hmoved.2)

theorem Statement.below_zero : Statement.below 0 0 = id :=
  rfl

theorem Listed.below_zero : Listed.below 0 0 = id :=
  rfl

/-! ### One source below another -/

namespace LabelTable

theorem names_eq_map_toList (table : LabelTable) : table.names = table.toList.map Prod.fst := by
  rw [names, toList, List.map_map]
  rfl

def link (upper lower : LabelTable) (count base : Nat)
    (hdisjoint : List.Disjoint upper.names lower.names) : LabelTable where
  labels := upper.labels ++ lower.labels.map (Label.below count base)
  distinct := by
    rw [List.map_append, List.map_map]
    exact upper.distinct.append lower.distinct hdisjoint

section Link

variable {upper lower : LabelTable} {count base : Nat}
  (hdisjoint : List.Disjoint upper.names lower.names)

theorem find?_link (name : String) :
    (upper.link lower count base hdisjoint).find? name =
      (upper.find? name).or ((lower.find? name).map (Label.below count base)) := by
  rw [find?, link, List.find?_append, List.find?_map]
  rfl

theorem address?_link_upper {name : String} (hname : name ∉ lower.names) :
    (upper.link lower count base hdisjoint).address? name = upper.address? name := by
  rw [address?, find?_link, find?_eq_none_of_not_mem hname, Option.map_none, Option.or_none,
    address?]

theorem address?_link_lower {name : String} (hname : name ∉ upper.names) :
    (upper.link lower count base hdisjoint).address? name =
      (lower.address? name).map (· + base) := by
  rw [address?, find?_link, find?_eq_none_of_not_mem hname, Option.none_or, address?,
    Option.map_map, Option.map_map]
  rfl

end Link

end LabelTable

namespace Assembly

def tokens (assembly : Assembly) : List String :=
  assembly.listing.filterMap fun listed => listed.operation.token?

/-- Two assemblies as one, the second moved down below the first. -/
def link (upper lower : Assembly) (count : Nat)
    (hdisjoint : List.Disjoint upper.labels.names lower.labels.names)
    (hfits : upper.program.size + lower.program.size ≤ capacity) : Assembly where
  labels := upper.labels.link lower.labels count upper.program.size hdisjoint
  listing := upper.listing ++ lower.listing.map (Listed.below count upper.program.size)
  program := ⟨upper.program.words ++ lower.program.words, by
    rw [List.length_append]
    exact hfits⟩

theorem mem_tokens {assembly : Assembly} {listed : Listed} {token : String}
    (hlisted : listed ∈ assembly.listing) (htoken : listed.operation.token? = some token) :
    token ∈ assembly.tokens :=
  List.mem_filterMap.mpr ⟨listed, hlisted, htoken⟩

section Link

variable {upper lower : Assembly} {count : Nat}
  (hdisjoint : List.Disjoint upper.labels.names lower.labels.names)
  (hfits : upper.program.size + lower.program.size ≤ capacity)

theorem toList_labels_link : (upper.link lower count hdisjoint hfits).labels.toList =
    upper.labels.toList ++
      lower.labels.toList.map fun label => (label.1, label.2 + upper.program.size) := by
  simp only [link, LabelTable.link, LabelTable.toList, List.map_append, List.map_map]
  rfl

theorem warnings_link : (upper.link lower count hdisjoint hfits).warnings =
    upper.warnings ++ lower.warnings.map (Warning.below count) := by
  have hwarning : ∀ listed : Listed, (listed.below count upper.program.size).warning? =
      listed.warning?.map (Warning.below count) := by
    intro listed
    simp only [Listed.warning?, Option.map_map]
    rfl
  simp only [warnings, link, List.filterMap_append, List.filterMap_map, List.map_filterMap,
    Function.comp_def, hwarning]

/-- Linking does not change how either half was resolved, since neither names a label of the other.
-/
theorem forall₂_assemble_link {upperStatements lowerStatements : List Statement}
    (hupper : List.Forall₂ (fun statement listed => statement.assemble upper.labels = .ok listed)
      upperStatements upper.listing)
    (hlower : List.Forall₂ (fun statement listed => statement.assemble lower.labels = .ok listed)
      lowerStatements lower.listing)
    (hupperTokens : List.Disjoint upper.tokens lower.labels.names)
    (hlowerTokens : List.Disjoint lower.tokens upper.labels.names) :
    List.Forall₂ (fun statement listed =>
        statement.assemble (upper.link lower count hdisjoint hfits).labels = .ok listed)
      (upperStatements ++ lowerStatements.map (Statement.below count upper.program.size))
      (upper.link lower count hdisjoint hfits).listing := by
  apply List.rel_append
  · -- The first source does not move, which is to move by nothing.
    rw [← List.map_id upperStatements, ← List.map_id upper.listing, ← Statement.below_zero,
      ← Listed.below_zero]
    refine Statement.forall₂_assemble_below 0 0 hupper ?_
    intro listed hlisted token htoken
    have hname : token ∉ lower.labels.names := fun hname =>
      hupperTokens (mem_tokens hlisted htoken) hname
    exact (LabelTable.address?_link_upper hdisjoint hname).trans Option.map_id'.symm
  · refine Statement.forall₂_assemble_below count upper.program.size hlower ?_
    intro listed hlisted token htoken
    have hname : token ∉ upper.labels.names := fun hname =>
      hlowerTokens (mem_tokens hlisted htoken) hname
    exact LabelTable.address?_link_lower hdisjoint hname

end Link

end Assembly

/-- **Relocation.** Assembling two sources one below the other gives the words of the first and then
those of the second, the labels of the second moved by the size of the first, and the warnings of
both, numbered as the lines are in the common source. -/
theorem assemble_append {upper lower : String} {a b : Assembly}
    (hend : upper = "" ∨ ∃ body, upper = body ++ "\n")
    (ha : assemble upper = .ok a) (hb : assemble lower = .ok b)
    (hdisjoint : List.Disjoint a.labels.names b.labels.names)
    (hupper : List.Disjoint a.tokens b.labels.names)
    (hlower : List.Disjoint b.tokens a.labels.names)
    (hfits : a.program.size + b.program.size ≤ 32768) :
    ∃ c, assemble (upper ++ lower) = .ok c ∧
      c.program.words = a.program.words ++ b.program.words ∧
      c.labels.toList = a.labels.toList ++
        b.labels.toList.map (fun label => (label.1, label.2 + a.program.size)) ∧
      c.warnings = a.warnings ++ b.warnings.map (Warning.below (numbered upper).length) := by
  have hsize := size_eq_extent ha
  obtain ⟨hlinesA, hlabelsA, hlistingA, hwordsA⟩ := assemble_eq_ok.mp ha
  obtain ⟨hlinesB, hlabelsB, hlistingB, hwordsB⟩ := assemble_eq_ok.mp hb
  let count := (numbered upper).length
  refine ⟨a.link b count hdisjoint hfits, assemble_eq_ok.mpr ⟨?_, ?_, ?_, ?_⟩, rfl,
    Assembly.toList_labels_link hdisjoint hfits, Assembly.warnings_link hdisjoint hfits⟩
  · rw [kept_append hend, List.forall_mem_append, List.forall_mem_map]
    exact ⟨hlinesA, fun line hline => readable_below count (hlinesB line hline)⟩
  · rw [kept_append hend, Layout.labelsFrom_append_below, ← hsize, ← hlabelsA, ← hlabelsB]
    rfl
  · rw [kept_append hend, Layout.statementsFrom_append_below, ← hsize]
    exact Assembly.forall₂_assemble_link hdisjoint hfits hlistingA hlistingB hupper hlower
  · simp only [Assembly.link, hwordsA, hwordsB, List.map_append, List.map_map]
    rfl

theorem assemble_append_two_loops :
    ∃ c, assemble ("top: nop\njez r1, top\n" ++ "jmp end\n\nadd r1, r1, 99\nend: jmp -1") =
        .ok c ∧
      c.program.words = [0x0000, 0x3fd6, 0x0032, 0x24e3, 0xfff2] ∧
      c.labels.toList = [("top", 0), ("end", 4)] ∧
      c.warnings = [⟨⟨5, "add r1, r1, 99"⟩, ⟨99, 4⟩⟩] := by
  have hupper : (assemble "top: nop\njez r1, top\n").toOption.map (fun a =>
      (a.tokens, a.labels.toList, a.program.words, a.warnings)) =
        some (["top"], [("top", 0)], [0x0000, 0x3fd6], []) := by decide +kernel
  have hlower : (assemble "jmp end\n\nadd r1, r1, 99\nend: jmp -1").toOption.map (fun b =>
      (b.tokens, b.labels.toList, b.program.words, b.warnings)) =
        some (["end", "-1"], [("end", 2)], [0x0032, 0x24e3, 0xfff2],
          [⟨⟨3, "add r1, r1, 99"⟩, ⟨99, 4⟩⟩]) := by decide +kernel
  have hcount : (numbered "top: nop\njez r1, top\n").length = 2 := by decide +kernel
  obtain ⟨a, ha, hfactsA⟩ := Pass.map_toOption_eq_some.mp hupper
  obtain ⟨b, hb, hfactsB⟩ := Pass.map_toOption_eq_some.mp hlower
  simp only [Prod.mk.injEq] at hfactsA hfactsB
  obtain ⟨htokensA, hlabelsA, hwordsA, hwarningsA⟩ := hfactsA
  obtain ⟨htokensB, hlabelsB, hwordsB, hwarningsB⟩ := hfactsB
  have hnamesA : a.labels.names = ["top"] := by
    rw [LabelTable.names_eq_map_toList, hlabelsA]
    rfl
  have hnamesB : b.labels.names = ["end"] := by
    rw [LabelTable.names_eq_map_toList, hlabelsB]
    rfl
  have hsizeA : a.program.size = 2 := by
    rw [Program.size, hwordsA]
    rfl
  have hsizeB : b.program.size = 3 := by
    rw [Program.size, hwordsB]
    rfl
  obtain ⟨c, hc, hwords, hlabels, hwarnings⟩ := assemble_append
    (Or.inr ⟨"top: nop\njez r1, top", by decide⟩) ha hb
    (by simp [hnamesA, hnamesB]) (by simp [htokensA, hnamesB]) (by simp [htokensB, hnamesA])
    (by simp [hsizeA, hsizeB])
  refine ⟨c, hc, ?_, ?_, ?_⟩
  · rw [hwords, hwordsA, hwordsB]
    rfl
  · rw [hlabels, hlabelsA, hlabelsB, hsizeA]
    rfl
  · rw [hwarnings, hwarningsA, hwarningsB, hcount]
    rfl

end WordAssembler
