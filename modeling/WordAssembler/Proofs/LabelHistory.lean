import Mathlib.Data.Finset.Card
import WordAssembler.Proofs.SymbolFile

/-!
# A label table remembers first definitions

A table is built by one insertion after another, and an insertion looks at nothing but the names
that are already there. What the table shows after any number of insertions can therefore be read
off their history: a name stands for its first definition, and the names come in the order of these.
An insertion of a name that was used before is answered with the line of the first definition, and
the table is as if it had not been made.
-/

namespace WordAssembler.LabelTable

def ofHistory (history : List Label) : LabelTable :=
  history.foldl add ∅

def Unused (history : List Label) (name : String) : Prop :=
  ∀ label ∈ history, label.name ≠ name

instance (history : List Label) (name : String) : Decidable (Unused history name) :=
  inferInstanceAs (Decidable (∀ label ∈ history, label.name ≠ name))

def FirstOf (history : List Label) (name : String) (first : Label) : Prop :=
  first.name = name ∧ ∃ earlier later, history = earlier ++ first :: later ∧ Unused earlier name

def firsts (history : List Label) : List Label :=
  history.zipIdx.filterMap fun (label, index) =>
    if Unused (history.take index) label.name then some label else none

/-- Holds of a table that shows what the history says: every name once, in the order of first
definitions, with the address of its first definition, and no other name. -/
structure Shows (table : LabelTable) (history : List Label) : Prop where
  toList_eq : table.toList = (firsts history).map fun label => (label.name, label.address)
  names_nodup : (table.toList.map Prod.fst).Nodup
  address?_eq_some_iff : ∀ name address, table.address? name = some address ↔
    ∃ first, FirstOf history name first ∧ first.address = address
  address?_eq_none_iff : ∀ name, table.address? name = none ↔ Unused history name
  size_eq : table.size = (history.map Label.name).toFinset.card
  symbols_eq : table.symbolMap.symbols = table.toList

/-! ### One insertion -/

theorem find?_eq_none_iff {table : LabelTable} {name : String} :
    table.find? name = none ↔ name ∉ table.names := by
  constructor
  · intro hnone hname
    obtain ⟨label, hlabel, rfl⟩ := List.mem_map.mp hname
    exact name_ne_of_find?_eq_none hnone label hlabel rfl
  · exact find?_eq_none_of_not_mem

theorem add_of_insert_eq_ok {table result : LabelTable} {label : Label}
    (hinsert : table.insert label = .ok result) : table.add label = result := by
  rw [add, hinsert]
  rfl

theorem add_of_insert_eq_error {table : LabelTable} {label : Label} {line : SourceLine}
    (hinsert : table.insert label = .error line) : table.add label = table := by
  rw [add, hinsert]
  rfl

/-- One insertion: a label is added behind the others if its name is new, and otherwise nothing
changes. -/
theorem labels_add (table : LabelTable) (label : Label) :
    (table.add label).labels =
      table.labels ++ if table.find? label.name = none then [label] else [] := by
  cases hinsert : table.insert label with
  | ok result =>
      obtain ⟨hnone, hlabels⟩ := insert_eq_ok_iff.mp hinsert
      rw [add_of_insert_eq_ok hinsert, hlabels, if_pos hnone]
  | error line =>
      obtain ⟨earlier, hsome, -⟩ := insert_eq_error_iff.mp hinsert
      rw [add_of_insert_eq_error hinsert, hsome, if_neg (Option.some_ne_none _), List.append_nil]

/-- A name that is already there keeps its definition. -/
theorem find?_add (table : LabelTable) (label : Label) (name : String) :
    (table.add label).find? name =
      (table.find? name).or ([label].find? (·.name == name)) := by
  rw [find?, labels_add, List.find?_append]
  split_ifs with hnone
  · rfl
  · rw [List.find?_nil, Option.or_none]
    by_cases hname : label.name = name
    · subst hname
      obtain ⟨earlier, hsome⟩ := Option.ne_none_iff_exists'.mp hnone
      rw [hsome]
      exact hsome
    · rw [List.find?_cons_of_neg (by simpa using hname), List.find?_nil, Option.or_none]
      rfl

/-! ### All insertions -/

section History

variable {history : List Label} {label first : Label} {name : String}

/-- A name that the table has already keeps its label through all later insertions. -/
theorem find?_foldl_add (history : List Label) (table : LabelTable) (name : String) :
    (history.foldl add table).find? name =
      (table.find? name).or (history.find? (·.name == name)) := by
  induction history generalizing table with
  | nil => simp
  | cons label history ih =>
      rw [List.foldl_cons, ih, find?_add, Option.or_assoc, ← List.find?_append,
        List.singleton_append]

theorem find?_ofHistory (history : List Label) (name : String) :
    (ofHistory history).find? name = history.find? (·.name == name) := by
  rw [ofHistory, find?_foldl_add]
  rfl

theorem ofHistory_concat (history : List Label) (label : Label) :
    ofHistory (history ++ [label]) = (ofHistory history).add label :=
  List.foldl_concat ..

theorem find?_eq_none_iff_unused : (ofHistory history).find? name = none ↔ Unused history name := by
  rw [find?_ofHistory, List.find?_eq_none]
  simp [Unused]

theorem find?_eq_some_iff_firstOf :
    (ofHistory history).find? name = some first ↔ FirstOf history name first := by
  rw [find?_ofHistory, List.find?_eq_some_iff_append]
  simp [FirstOf, Unused]

/-- The labels that count are found by the same step as insertion takes. -/
theorem firsts_concat (history : List Label) (label : Label) : firsts (history ++ [label]) =
    firsts history ++ if Unused history label.name then [label] else [] := by
  -- What is inserted later stands behind the labels that the earlier ones are compared with.
  have hearlier : history.zipIdx.filterMap (fun (other, index) =>
      if Unused ((history ++ [label]).take index) other.name then some other else none) =
        firsts history := by
    apply List.filterMap_congr
    rintro ⟨other, index⟩ hother
    have hindex : index ≤ history.length := by
      have := List.snd_lt_of_mem_zipIdx hother
      omega
    simp only [List.take_append_of_le_length hindex]
  rw [firsts, List.zipIdx_append, List.filterMap_append, hearlier]
  simp only [List.zipIdx_singleton, Nat.zero_add, List.filterMap_cons, List.filterMap_nil,
    List.take_left]
  split_ifs <;> rfl

/-- What a history of insertions leaves is the first label of each name, in order. -/
theorem labels_ofHistory (history : List Label) : (ofHistory history).labels = firsts history := by
  induction history using List.reverseRecOn with
  | nil => rfl
  | append_singleton history label ih =>
      simp only [ofHistory_concat, labels_add, firsts_concat, ih, find?_eq_none_iff_unused]

theorem mem_names_ofHistory :
    name ∈ (ofHistory history).names ↔ name ∈ history.map Label.name := by
  rw [← not_iff_not, ← find?_eq_none_iff, find?_eq_none_iff_unused, List.mem_map]
  simp [Unused]

theorem size_ofHistory (history : List Label) :
    (ofHistory history).size = (history.map Label.name).toFinset.card := by
  have hnames : (ofHistory history).names.toFinset = (history.map Label.name).toFinset := by
    ext name
    rw [List.mem_toFinset, List.mem_toFinset, mem_names_ofHistory]
  calc (ofHistory history).size
      = (ofHistory history).names.length := (List.length_map ..).symm
    _ = (ofHistory history).names.toFinset.card :=
        (List.toFinset_card_of_nodup (ofHistory history).distinct).symm
    _ = (history.map Label.name).toFinset.card := by rw [hnames]

theorem shows_ofHistory (history : List Label) : Shows (ofHistory history) history where
  toList_eq := by rw [toList, labels_ofHistory]
  names_nodup := (ofHistory history).symbolMap.distinct
  address?_eq_some_iff := by
    intro name address
    simp only [address?, Option.map_eq_some_iff, find?_eq_some_iff_firstOf]
  address?_eq_none_iff := by
    intro name
    rw [address?, Option.map_eq_none_iff, find?_eq_none_iff_unused]
  size_eq := size_ofHistory history
  symbols_eq := rfl

end History

/-- **First definitions are kept.** After any insertions a further one succeeds exactly where its
name is unused. Where it fails it is answered with the line of the name's first definition, and the
table stays as it was. The table shows the history all along: each name once, in the order of first
definitions and with the address of its first definition. -/
theorem insertions_exact :
    (∀ earlier label,
      ((∃ table, (ofHistory earlier).insert label = .ok table) ↔ Unused earlier label.name) ∧
      (∀ table, (ofHistory earlier).insert label = .ok table →
        ofHistory (earlier ++ [label]) = table) ∧
      (∀ line, (ofHistory earlier).insert label = .error line ↔
        ∃ first, FirstOf earlier label.name first ∧ first.line = line) ∧
      ∀ line, (ofHistory earlier).insert label = .error line →
        ofHistory (earlier ++ [label]) = ofHistory earlier) ∧
    ∀ history, Shows (ofHistory history) history := by
  refine ⟨?_, shows_ofHistory⟩
  intro earlier label
  refine ⟨?_, ?_, ?_, ?_⟩
  · rw [← find?_eq_none_iff_unused]
    constructor
    · rintro ⟨table, hinsert⟩
      exact (insert_eq_ok_iff.mp hinsert).1
    · intro hnone
      exact ⟨⟨_, distinct_append hnone⟩, insert_eq_ok_iff.mpr ⟨hnone, rfl⟩⟩
  · intro table hinsert
    rw [ofHistory_concat, add_of_insert_eq_ok hinsert]
  · intro line
    simp only [insert_eq_error_iff, find?_eq_some_iff_firstOf]
  · intro line hinsert
    rw [ofHistory_concat, add_of_insert_eq_error hinsert]

theorem insertions_exact_name_again :
    (ofHistory [⟨"b", ⟨1, "b:"⟩, 4⟩, ⟨"a", ⟨2, "a:"⟩, 0⟩]).insert ⟨"b", ⟨9, "b: nop"⟩, 7⟩ =
      .error ⟨1, "b:"⟩ ∧
    (ofHistory [⟨"b", ⟨1, "b:"⟩, 4⟩, ⟨"a", ⟨2, "a:"⟩, 0⟩, ⟨"b", ⟨9, "b: nop"⟩, 7⟩]).toList =
      [("b", 4), ("a", 0)] ∧
    (∃ table, (ofHistory [⟨"b", ⟨1, "b:"⟩, 4⟩]).insert ⟨"a", ⟨2, "a:"⟩, 0⟩ = .ok table) := by
  obtain ⟨hinsert, hshows⟩ := insertions_exact
  have hrefused : (ofHistory [⟨"b", ⟨1, "b:"⟩, 4⟩, ⟨"a", ⟨2, "a:"⟩, 0⟩]).insert
      ⟨"b", ⟨9, "b: nop"⟩, 7⟩ = .error ⟨1, "b:"⟩ :=
    ((hinsert _ _).2.2.1 _).mpr ⟨⟨"b", ⟨1, "b:"⟩, 4⟩, ⟨rfl, [], _, rfl, by decide⟩, rfl⟩
  have hunchanged := (hinsert _ _).2.2.2 _ hrefused
  refine ⟨hrefused, ?_, (hinsert _ _).1.mpr (by decide)⟩
  rw [List.cons_append, List.singleton_append] at hunchanged
  rw [hunchanged, (hshows _).toList_eq]
  decide

end WordAssembler.LabelTable
