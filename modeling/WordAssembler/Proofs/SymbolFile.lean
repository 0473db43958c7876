import WordAssembler.Proofs.Assembly
import WordAssembler.Proofs.JsonText
import WordAssembler.SymbolMap

/-!
# Symbol files are read back

A symbol map is written as an object of names and numbers, and its text is read as that object.
Inserting the members one by one gives the map again: its names are distinct, so no member takes
another one's place, and its addresses fit in 64 bits, so none is refused. Both hold of every map
that comes from a label table or from a file.
-/

namespace WordAssembler

open Numeral

namespace SymbolMap

open Json

/-! ### The text of a symbol file -/

def symbolTokens (symbol : String × Nat) : List Nat × List Token :=
  (symbol.1.toList.map Char.toNat, [.number (decimal symbol.2).toList])

def symbolMember (symbol : String × Nat) : List Nat × Value :=
  (symbol.1.toList.map Char.toNat, .number (decimal symbol.2).toList)

/-- A symbol ends in a number, so what stands behind it has to end a number. -/
theorem scans_symbol {c : Char} {rest : List Char} {tokens : List Token} (hc : EndsNumber c)
    (hrest : Scans (c :: rest) tokens) (symbol : String × Nat) :
    Scans ((renderSymbol symbol).toList ++ c :: rest)
      (memberTokens (symbolTokens symbol) ++ tokens) := by
  have hindent : Scans "    ".toList [] := fun _ => rfl
  have hcolon : Scans ": ".toList [.colon] := fun _ => rfl
  have hname := hindent.append (scans_quote symbol.1)
  have hmember := (hname.append hcolon).append (hrest.decimal_append hc symbol.2)
  simpa [renderSymbol, memberTokens, symbolTokens] using hmember

theorem scans_symbols (first : String × Nat) (others : List (String × Nat)) :
    Scans ((",\n".intercalate ((first :: others).map renderSymbol)).toList ++ "\n  \x7d".toList)
      (memberTokens (symbolTokens first) ++ furtherTokens (others.map symbolTokens)) := by
  induction others generalizing first with
  | nil =>
      have hend : Scans "\n  \x7d".toList [.closeObject] := fun _ => rfl
      exact scans_symbol (by decide) hend first
  | cons second others ih =>
      have hcomma : Scans [',', '\n'] [.comma] := fun _ => rfl
      have htext : (",\n".intercalate ((first :: second :: others).map renderSymbol)).toList =
          (renderSymbol first).toList ++ [',', '\n'] ++
            (",\n".intercalate ((second :: others).map renderSymbol)).toList := by
        simp [String.toList_intercalate]
      rw [htext, List.append_assoc, List.append_assoc, List.map_cons (f := symbolTokens),
        furtherTokens_cons]
      exact scans_symbol (by decide) (hcomma.append (ih second)) first

theorem scans_renderCode (symbols : List (String × Nat)) :
    Scans (renderCode symbols).toList (objectTokens (symbols.map symbolTokens)) := by
  cases symbols with
  | nil => exact fun _ => rfl
  | cons first others =>
      have hopen : Scans "\x7b\n".toList [.openObject] := fun _ => rfl
      have hcode := hopen.append (scans_symbols first others)
      rw [renderCode, List.isEmpty_cons, if_neg Bool.false_ne_true, String.toList_append,
        String.toList_append, List.append_assoc]
      exact hcode

theorem reads_code (symbols : List (String × Nat)) :
    Reads (objectTokens (symbols.map symbolTokens)) (.object (symbols.map symbolMember)) := by
  apply reads_object
  rw [List.forall₂_map_left_iff, List.forall₂_map_right_iff, List.forall₂_same]
  exact fun symbol _ => ⟨rfl, reads_number _⟩

/-- The symbol file is read back as the value it was written from, whatever characters the names
hold. -/
theorem value_parse?_render (map : SymbolMap) :
    Value.parse? map.render = some (.object
      [("code".toList.map Char.toNat, .object (map.symbols.map symbolMember))]) := by
  have hopen : Scans "\x7b\n  \"code\": ".toList
      [.openObject, .string ("code".toList.map Char.toNat), .colon] := fun _ => rfl
  have hclose : Scans "\n\x7d".toList [.closeObject] := fun _ => rfl
  have hscans := (hopen.append (scans_renderCode map.symbols)).append hclose
  have hmember : ReadsMember ("code".toList.map Char.toNat, _) ("code".toList.map Char.toNat, _) :=
    ⟨rfl, reads_code map.symbols⟩
  have hreads := reads_object (.cons hmember .nil)
  unfold render
  rw [Value.parse?, String.toList_append, String.toList_append, hscans.tokens?_eq]
  exact hreads.ofTokens?_eq

/-! ### The map of a symbol file -/

def Fits (map : SymbolMap) : Prop :=
  ∀ symbol ∈ map.symbols, symbol.2 < 0x10000000000000000

theorem eq_of_symbols_eq {map other : SymbolMap} (hsymbols : map.symbols = other.symbols) :
    map = other := by
  cases map
  cases other
  cases hsymbols
  rfl

theorem symbols_insert_of_not_mem {map : SymbolMap} {name : String} (address : Nat)
    (hname : name ∉ map.symbols.map Prod.fst) :
    (map.insert name address).symbols = map.symbols ++ [(name, address)] := by
  rw [insert, dif_neg hname]

theorem insertMember_symbolMember (map : SymbolMap) {symbol : String × Nat}
    (hfits : symbol.2 < 0x10000000000000000) :
    map.insertMember (symbolMember symbol) = some (map.insert symbol.1 symbol.2) := by
  have haddress : address? (.number (decimal symbol.2).toList) = some symbol.2 := by
    rw [address?, value?_decimal]
    exact if_pos (decide_eq_true hfits)
  rw [insertMember, symbolMember, text?_map_toNat, haddress]
  rfl

/-- Members are inserted one by one in their order, and as no name comes twice none replaces
another. -/
theorem foldlM_insertMember {map result : SymbolMap} {symbols : List (String × Nat)}
    (hresult : result.symbols = map.symbols ++ symbols)
    (hfits : ∀ symbol ∈ symbols, symbol.2 < 0x10000000000000000) :
    (symbols.map symbolMember).foldlM insertMember map = some result := by
  induction symbols generalizing map with
  | nil =>
      rw [List.append_nil] at hresult
      rw [eq_of_symbols_eq hresult]
      rfl
  | cons symbol symbols ih =>
      rw [List.forall_mem_cons] at hfits
      -- The names of the result are distinct, and this one stands in it behind those of the map.
      have hnew : symbol.1 ∉ map.symbols.map Prod.fst := by
        have hdistinct := result.distinct
        rw [hresult, List.map_append, List.map_cons, List.nodup_middle,
          List.nodup_cons] at hdistinct
        exact fun hname => hdistinct.1 (List.mem_append_left _ hname)
      have hinserted : result.symbols = (map.insert symbol.1 symbol.2).symbols ++ symbols := by
        rw [hresult, symbols_insert_of_not_mem symbol.2 hnew, ← List.append_cons]
      rw [List.map_cons, List.foldlM_cons, insertMember_symbolMember map hfits.1]
      exact ih hinserted hfits.2

theorem parse?_render {map : SymbolMap} (hfits : map.Fits) : parse? map.render = some map := by
  have hcode : text? ("code".toList.map Char.toNat) = some "code" := text?_map_toNat "code"
  have hmap : ofCode? (.object (map.symbols.map symbolMember)) = some map :=
    foldlM_insertMember (List.nil_append _).symm hfits
  rw [parse?, value_parse?_render, Option.bind_eq_bind, Option.bind_some, ofValue?, List.mapM_cons,
    hcode]
  exact hmap

/-! ### Addresses that fit -/

theorem fits_empty : empty.Fits :=
  fun _ hsymbol => absurd hsymbol List.not_mem_nil

theorem Fits.insert {map : SymbolMap} (hfits : map.Fits) (name : String) {address : Nat}
    (haddress : address < 0x10000000000000000) : (map.insert name address).Fits := by
  intro symbol hsymbol
  by_cases hname : name ∈ map.symbols.map Prod.fst
  · rw [SymbolMap.insert, dif_pos hname] at hsymbol
    obtain ⟨earlier, hearlier, rfl⟩ := List.mem_map.mp hsymbol
    split
    · exact haddress
    · exact hfits earlier hearlier
  · rw [symbols_insert_of_not_mem address hname, List.mem_append, List.mem_singleton] at hsymbol
    obtain hearlier | rfl := hsymbol
    · exact hfits symbol hearlier
    · exact haddress

theorem address?_lt {v : Value} {address : Nat} (haddress : address? v = some address) :
    address < 0x10000000000000000 := by
  cases v with
  | number digits => exact of_decide_eq_true (Option.filter_eq_some_iff.mp haddress).2
  | null | bool | string | array | object => cases haddress

theorem Fits.insertMember {map result : SymbolMap} {member : List Nat × Value} (hfits : map.Fits)
    (hresult : map.insertMember member = some result) : result.Fits := by
  obtain ⟨name, -, hname⟩ := Option.bind_eq_some_iff.mp hresult
  obtain ⟨address, haddress, hinsert⟩ := Option.bind_eq_some_iff.mp hname
  cases hinsert
  exact hfits.insert name (address?_lt haddress)

/-- Reading members in keeps every address in the range of a machine integer. -/
theorem Fits.foldlM_insertMember {map result : SymbolMap} {members : List (List Nat × Value)}
    (hfits : map.Fits) (hresult : members.foldlM SymbolMap.insertMember map = some result) :
    result.Fits := by
  induction members generalizing map with
  | nil =>
      cases hresult
      exact hfits
  | cons member members ih =>
      obtain ⟨next, hnext, hrest⟩ := Option.bind_eq_some_iff.mp hresult
      exact ih (hfits.insertMember hnext) hrest

theorem fits_of_ofCode? {v : Value} {map : SymbolMap} (hmap : ofCode? v = some map) :
    map.Fits := by
  cases v with
  | object members => exact fits_empty.foldlM_insertMember hmap
  | null | bool | number | string | array => cases hmap

theorem fits_of_parse? {text : String} {map : SymbolMap} (hmap : parse? text = some map) :
    map.Fits := by
  obtain ⟨v, -, hvalue⟩ := Option.bind_eq_some_iff.mp hmap
  unfold ofValue? at hvalue
  split at hvalue
  · exact fits_of_ofCode? hvalue
  · obtain ⟨named, -, hcode⟩ := Option.bind_eq_some_iff.mp hvalue
    split at hcode
    · exact fits_of_ofCode? hcode
    · cases hcode
  · cases hvalue

end SymbolMap

namespace LabelTable

/-- Adds a definition. A name that is already defined keeps the definition it has. -/
def add (table : LabelTable) (label : Label) : LabelTable :=
  (table.insert label).toOption.getD table

theorem mem_of_mem_add {table : LabelTable} {label other : Label}
    (hother : other ∈ (table.add label).labels) : other ∈ table.labels ∨ other = label := by
  cases hinsert : table.insert label with
  | error line =>
      rw [add, hinsert] at hother
      exact Or.inl hother
  | ok result =>
      rw [add, hinsert, Except.toOption, Option.getD_some, (insert_eq_ok_iff.mp hinsert).2,
        List.mem_append, List.mem_singleton] at hother
      exact hother

theorem mem_of_mem_foldl_add {table : LabelTable} {labels : List Label} {other : Label}
    (hother : other ∈ (labels.foldl add table).labels) : other ∈ table.labels ∨ other ∈ labels := by
  induction labels generalizing table with
  | nil => exact Or.inl hother
  | cons label labels ih =>
      rcases ih hother with hadded | hlater
      · rcases mem_of_mem_add hadded with hearlier | rfl
        · exact Or.inl hearlier
        · exact Or.inr List.mem_cons_self
      · exact Or.inr (List.mem_cons_of_mem label hlater)

theorem fits_symbolMap {table : LabelTable}
    (hlabels : ∀ label ∈ table.labels, label.address < 0x10000000000000000) :
    table.symbolMap.Fits := by
  intro symbol hsymbol
  obtain ⟨label, hlabel, rfl⟩ := List.mem_map.mp hsymbol
  exact hlabels label hlabel

end LabelTable

namespace SymbolMap

open SourceLine

/-- An assembled label is at most one past the memory, far inside the range. -/
theorem fits_of_assemble {source : String} {assembly : Assembly}
    (hassemble : assemble source = .ok assembly) : assembly.labels.symbolMap.Fits := by
  obtain ⟨-, hlabels, -, -⟩ := assemble_eq_ok.mp hassemble
  have hsize : assembly.program.size ≤ 32768 := assembly.program.length_le
  rw [size_eq_extent hassemble] at hsize
  apply LabelTable.fits_symbolMap
  intro label hlabel
  rw [hlabels] at hlabel
  have hle := Layout.address_le_of_mem_labelsFrom hlabel
  omega

def ReadAs (text : String) (symbols : List (String × Nat)) : Prop :=
  ∃ map, parse? text = some map ∧ map.symbols = symbols ∧ (symbols.map Prod.fst).Nodup

theorem Fits.readAs_render {map : SymbolMap} (hfits : map.Fits) : ReadAs map.render map.symbols :=
  ⟨map, parse?_render hfits, rfl, map.distinct⟩

/-- **Symbol files are read back as they were written.** The map of a label table, however the table
came to be, and the map of any file that can be read are written as a text that is read as the same
symbols in the same order. That of an assembled program is read as its labels, in the order of the
lines that define them. -/
theorem symbol_file_exact :
    (∀ labels : List Label, (∀ label ∈ labels, label.address < 0x10000000000000000) →
      ReadAs (labels.foldl LabelTable.add ∅).symbolMap.render
        (labels.foldl LabelTable.add ∅).toList) ∧
    (∀ text map, parse? text = some map → ReadAs map.render map.symbols) ∧
    (∀ source assembly, assemble source = .ok assembly →
      ReadAs assembly.labels.symbolMap.render assembly.labels.toList ∧
        assembly.labels.labels = Layout.labelsFrom 0 (kept source)) := by
  refine ⟨?_, ?_, ?_⟩
  · intro labels hlabels
    apply Fits.readAs_render
    apply LabelTable.fits_symbolMap
    intro label hlabel
    rcases LabelTable.mem_of_mem_foldl_add hlabel with hempty | hadded
    · cases hempty
    · exact hlabels label hadded
  · intro text map hmap
    exact (fits_of_parse? hmap).readAs_render
  · intro source assembly hassemble
    obtain ⟨-, hlabels, -, -⟩ := assemble_eq_ok.mp hassemble
    exact ⟨(fits_of_assemble hassemble).readAs_render, hlabels⟩

theorem symbol_file_exact_escaped_name :
    ReadAs "\x7b\n  \"code\": \x7b\n    \"\\\"\\\\\\n\\u001fé😀\": 18446744073709551615\n  \x7d\n\x7d"
        [("\"\\\n\x1fé😀", 18446744073709551615)] ∧
      ReadAs "\x7b\n  \"code\": \x7b\n    \"é\": 3,\n    \"a\": 2\n  \x7d\n\x7d"
        [("é", 3), ("a", 2)] ∧
      ReadAs "\x7b\n  \"code\": \x7b\n    \"start\": 0,\n    \"end\": 1\n  \x7d\n\x7d"
        [("start", 0), ("end", 1)] := by
  obtain ⟨htable, hfile, hassembly⟩ := symbol_file_exact
  refine ⟨?_, ?_, ?_⟩
  · -- The second definition of the name is refused.
    convert htable [⟨"\"\\\n\x1fé😀", ⟨1, ""⟩, 18446744073709551615⟩,
      ⟨"\"\\\n\x1fé😀", ⟨2, ""⟩, 7⟩] (by decide) using 1
    · decide +kernel
    · decide +kernel
  · have hmap : parse? "[\x7b\"\\u00e9\": 1, \"a\":2, \"é\" :3\x7d]" =
        some ⟨[("é", 3), ("a", 2)], by decide⟩ := by decide +kernel
    convert hfile _ _ hmap using 1
    decide +kernel
  · have hassembled : (assemble "start: nop\nend:").toOption.map
        (fun a => (a.labels.symbolMap.render, a.labels.toList)) =
          some ("\x7b\n  \"code\": \x7b\n    \"start\": 0,\n    \"end\": 1\n  \x7d\n\x7d",
            [("start", 0), ("end", 1)]) := by decide +kernel
    obtain ⟨assembly, hassemble, hfacts⟩ := Pass.map_toOption_eq_some.mp hassembled
    obtain ⟨hrender, hsymbols⟩ := Prod.mk.inj hfacts
    rw [← hrender, ← hsymbols]
    exact (hassembly _ assembly hassemble).1

end SymbolMap

end WordAssembler
