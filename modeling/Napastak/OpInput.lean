import Napastak.LimitOp
import Napastak.Lib.Pull

/-! What the blocking operators of `qengine.c` read of a child, and what a row is where its eight bytes a cell are copied and
its NULL flags are not. -/
namespace Napastak.QEngine
open Store (ColType)

abbrev Schema := List (Bytes × ColType)

def Batch.schema (b : Batch) : Schema := b.cols.map fun c => (c.name,c.type)

/-- A child: its columns, whether its `output_schema` is set, and the batches it gives. -/
structure Input where
  schema : Schema
  known : Bool
  batches : List Batch
  some_ : schema ≠ []
  fits : ∀ b ∈ batches, b.schema = schema

def Input.output (i : Input) : Option Schema := if i.known then some i.schema else none

/-- The rows of a child are those of all its batches. -/
def Input.rows (i : Input) : List Row := i.batches.flatMap Batch.rows

/-- The batches read by a loop that an empty one ends. -/
def seen (bs : List Batch) : List Batch := bs.takeWhile (0 < ·.nrows)

def places (bs : List Batch) : List (Batch × Nat) := bs.flatMap fun b => (List.range b.nrows).map (b,·)

def Batch.cell (b : Batch) (c r : Nat) : Raw := (b.cols[c]?).elim (.bits 0) (·.cell r)

/-- The values of all rows column by column, without flags. -/
def materialise (sc : Schema) (bs : List Batch) : Batch :=
  ⟨(places (seen bs)).length,sc.mapIdx fun c col => ⟨col.1,col.2,[],(places (seen bs)).map fun p => p.1.cell c p.2⟩⟩

/-- What is shown of a value that was copied alone. -/
def Col.copied (c : Col) (r : Nat) : Scalar := Col.scalar {c with nulls := [], values := [c.cell r]} 0

def Batch.copied (b : Batch) (r : Nat) : Row := b.cols.map fun c => (c.name,c.copied r)

def Input.copied (i : Input) : List Row := (places (seen i.batches)).map fun p => p.1.copied p.2

/-- EXPR_COL: the first column of the name; a table in front of the name is not looked at. -/
def Batch.value (b : Batch) (r : Nat) (name : Bytes) : Scalar := ((b.cols.find? (·.name = name)).map (·.scalar r)).getD .null

/-- The value of a column by its place. -/
def byPlace (row : Row) (i : Nat) : Scalar := (row[i]?.map Prod.snd).getD .null

/-- The value that is found for a column where it is looked up by its name. -/
def byName (names : Schema) (row : Row) (i : Nat) : Scalar :=
  (names[i]?.map fun col => ((row.find? (·.1 = col.1)).map Prod.snd).getD .null).getD .null

theorem valueRow (b : Batch) (r : Nat) (name : Bytes) : b.value r name = (((b.row r).find? (·.1 = name)).map Prod.snd).getD .null := by
  rw [Batch.value,Batch.row,List.find?_map,Option.map_map]
  rfl

theorem placesRows (bs : List Batch) : bs.flatMap Batch.rows = (places bs).map fun p => p.1.row p.2 := by
  rw [places,List.map_flatMap]
  congr 1
  funext b
  rw [Batch.rows,List.map_map]
  rfl

theorem placesIn {bs : List Batch} {p : Batch × Nat} (mem : p ∈ places bs) : p.1 ∈ bs ∧ p.2 < p.1.nrows := by
  obtain ⟨b,inBatches,mem⟩ := List.mem_flatMap.mp mem
  obtain ⟨r,less,rfl⟩ := List.mem_map.mp mem
  exact ⟨inBatches,List.mem_range.mp less⟩

theorem seenIn {bs : List Batch} {b : Batch} (mem : b ∈ seen bs) : b ∈ bs := (List.takeWhile_sublist _).subset mem

theorem placesSeen (bs : List Batch) : places (seen bs) <+: places bs := by
  have split : seen bs ++ bs.dropWhile (0 < ·.nrows) = bs := List.takeWhile_append_dropWhile
  refine ⟨places (bs.dropWhile (0 < ·.nrows)),?_⟩
  rw [places,places,← List.flatMap_append,split,places]

theorem schemaWidth {i : Input} {b : Batch} (mem : b ∈ i.batches) : b.cols.length = i.schema.length := by
  rw [← i.fits b mem,Batch.schema,List.length_map]

theorem rowsWide (i : Input) : ∀ row ∈ i.rows, row.length = i.schema.length := by
  intro row mem
  rw [Input.rows,placesRows] at mem
  obtain ⟨p,at_,rfl⟩ := List.mem_map.mp mem
  rw [Batch.row,List.length_map,schemaWidth (placesIn at_).1]

theorem copiedWide (i : Input) : ∀ row ∈ i.copied, row.length = i.schema.length := by
  intro row mem
  obtain ⟨p,at_,rfl⟩ := List.mem_map.mp mem
  rw [Batch.copied,List.length_map,schemaWidth (seenIn (placesIn at_).1)]

/-- No more rows are read than there are. -/
theorem copiedLength (i : Input) : i.copied.length ≤ i.rows.length := by
  rw [Input.copied,Input.rows,placesRows,List.length_map,List.length_map]
  exact (placesSeen i.batches).length_le

theorem materialiseCell {sc : Schema} {bs : List Batch} {c k : Nat} (column : c < sc.length) (row : k < (places (seen bs)).length) :
    (materialise sc bs).cell c k = (places (seen bs))[k].1.cell c (places (seen bs))[k].2 := by
  rw [Batch.cell,materialise,List.getElem?_mapIdx,List.getElem?_eq_getElem column,Option.map_some,Option.elim_some,Col.cell,
    List.getD_eq_getElem?_getD,List.getElem?_map,List.getElem?_eq_getElem row]
  rfl

end Napastak.QEngine
