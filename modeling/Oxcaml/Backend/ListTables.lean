/-
Oxcaml.Backend.ListTables — how the tables of location and range lists are filled:
`add` of `dwarf_low/location_or_range_list_table.ml`.

The emission of a table is that of `DwarfSections`. A label is made by the counter of
labels, which is passed as a state; between two additions other labels can be made.
-/
import Oxcaml.Backend.DwarfSections

namespace Oxcaml.Backend.ListTables

open AsmDirectives

variable {π : Type} (env : Env) (kind : ListKind π) (dwarfSection : DwarfSection)

/-- `t`, with the fields that only `add` uses. -/
structure Table (π : Type) where
  baseAddr : AsmLabel
  numLists : ℕ
  currentOffsetFromFirstList : DwarfInt
  lists : List (OneList π)

def Table.toListTable (t : Table π) : ListTable π := ⟨t.baseAddr, t.lists⟩

/-- `Index.t`. -/
structure Index where
  label : AsmLabel
  index : ℕ

/-- `Asm_label.create`, with the counter of labels after it. -/
def createLabel (counter : ℕ) : AsmLabel × ℕ := (⟨.dwarf dwarfSection, counter⟩, counter + 1)

def create (counter : ℕ) : Table π × ℕ :=
  let (baseAddr, counter) := createLabel dwarfSection counter
  (⟨baseAddr, 0, DwarfInt.zero env, []⟩, counter)

def add (t : Table π) (list : List (LocatedEntry π)) (counter : ℕ) :
    Except Exn (Table π × Index × ℕ) := do
  let whichIndex := t.numLists
  let (label, counter) := createLabel dwarfSection counter
  let oneList : OneList π := ⟨list, t.currentOffsetFromFirstList, label⟩
  let nextOffsetFromFirstList ← DwarfInt.sum env ((locationOrRangeList env kind).size list)
      (pure t.currentOffsetFromFirstList)
  pure (⟨t.baseAddr, t.numLists + 1, nextOffsetFromFirstList, oneList :: t.lists⟩,
    ⟨oneList.label, whichIndex⟩, counter)

/-- Additions one after the other, each after some other labels have been made. -/
def addAll (t : Table π) (counter : ℕ) :
    List (ℕ × List (LocatedEntry π)) → Except Exn (Table π × List Index)
  | [] => pure (t, [])
  | (otherLabels, list) :: rest => do
    let (t, index, counter) ← add env kind dwarfSection t list (counter + otherLabels)
    let (t, indexes) ← addAll t counter rest
    pure (t, index :: indexes)

/-- A table made by `create` and additions, with the indices that they return. -/
def build (counter : ℕ) (additions : List (ℕ × List (LocatedEntry π))) :
    Except Exn (Table π × List Index) :=
  let (t, counter) := create env dwarfSection counter
  addAll env kind dwarfSection t counter additions

end Oxcaml.Backend.ListTables
