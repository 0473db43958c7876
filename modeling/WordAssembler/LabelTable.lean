import WordAssembler.Source.SourceLine

/-!
# Label tables

The labels that a source defines, in the order of their definitions, each with its address and the
line that defines it. A name is defined once; a second definition is refused and changes nothing.
-/

namespace WordAssembler

theorem nodup_map_append_singleton {α β : Type} {key : α → β} {items : List α} {item : α}
    (hdistinct : (items.map key).Nodup) (hnew : key item ∉ items.map key) :
    ((items ++ [item]).map key).Nodup := by
  rw [List.map_append, List.nodup_append]
  refine ⟨hdistinct, by simp, ?_⟩
  intro earlier hearlier other hother hsame
  simp only [List.map_cons, List.map_nil, List.mem_singleton] at hother
  exact hnew (hother ▸ hsame ▸ hearlier)

structure Label where
  name : String
  line : SourceLine
  address : Nat
deriving DecidableEq, Repr

structure LabelTable where
  labels : List Label
  distinct : (labels.map Label.name).Nodup
deriving DecidableEq

namespace LabelTable

def empty : LabelTable :=
  ⟨[], by simp⟩

instance : EmptyCollection LabelTable := ⟨empty⟩

def find? (table : LabelTable) (name : String) : Option Label :=
  table.labels.find? (·.name == name)

def address? (table : LabelTable) (name : String) : Option Nat :=
  (table.find? name).map Label.address

def size (table : LabelTable) : Nat :=
  table.labels.length

def toList (table : LabelTable) : List (String × Nat) :=
  table.labels.map fun label => (label.name, label.address)

theorem name_ne_of_find?_eq_none {table : LabelTable} {name : String}
    (hnone : table.find? name = none) : ∀ label ∈ table.labels, label.name ≠ name := by
  simpa [find?] using hnone

theorem distinct_append {table : LabelTable} {label : Label}
    (hnone : table.find? label.name = none) :
    ((table.labels ++ [label]).map Label.name).Nodup := by
  apply nodup_map_append_singleton table.distinct
  intro hname
  obtain ⟨earlier, hearlier, hsame⟩ := List.mem_map.mp hname
  exact name_ne_of_find?_eq_none hnone earlier hearlier hsame

/-- Adds a definition, or gives the line that already defines the name. -/
def insert (table : LabelTable) (label : Label) : Except SourceLine LabelTable :=
  match hfind : table.find? label.name with
  | some earlier => .error earlier.line
  | none => .ok ⟨table.labels ++ [label], distinct_append hfind⟩

/-- A label is inserted exactly where its name is new. -/
theorem insert_eq_ok_iff {table result : LabelTable} {label : Label} :
    table.insert label = .ok result ↔
      table.find? label.name = none ∧ result.labels = table.labels ++ [label] := by
  obtain ⟨labels, hdistinct⟩ := result
  unfold insert
  split
  · rename_i earlier hfind
    simp [hfind]
  · rename_i hfind
    simp only [Except.ok.injEq, LabelTable.mk.injEq]
    exact ⟨fun h => ⟨hfind, h.symm⟩, fun h => h.2.symm⟩

theorem insert_eq_error_iff {table : LabelTable} {label : Label} {line : SourceLine} :
    table.insert label = .error line ↔
      ∃ earlier, table.find? label.name = some earlier ∧ earlier.line = line := by
  unfold insert
  split
  · rename_i earlier hfind
    simp [hfind]
  · rename_i hfind
    simp [hfind]

end LabelTable

end WordAssembler
