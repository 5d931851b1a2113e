import Napastak.Scd2
import Napastak.AppendScan

/-! `write_rs_to_table` and the SELECT * that reads a history table back. -/
namespace Napastak.Scd2
open Store Query

def batchSize : Nat := 8192

def chunksGo : Nat → List Row → List (List Row)
  | 0, _ => []
  | fuel + 1, rows => if rows = [] then [] else rows.take batchSize :: chunksGo fuel (rows.drop batchSize)

def chunks (rows : List Row) : List (List Row) := chunksGo rows.length rows

def isNullAt (rows : List Row) (c r : Nat) : Bool := (rows.getD r []).getD c [] = nullSentinel

/-- A bitmap for the rows of a batch, the bits of rows it does not have at zero. -/
def bitmapOf (rows : List Row) (c : Nat) : Option Bytes :=
  if (List.range rows.length).any (isNullAt rows c) then
    some ((List.range (nullBmBytes batchSize)).map fun k => UInt8.ofNat ((List.range 8).foldl (fun byte i =>
      if 8 * k + i < rows.length ∧ isNullAt rows c (8 * k + i) then byte + 2 ^ i else byte) 0))
  else none

/-- A batch of TEXT columns. -/
def batchOf (ncols : Nat) (rows : List Row) : ColBatch where
  schema := some (List.replicate ncols .text)
  ncols := ncols
  nrows := rows.length
  cols := (List.range ncols).map fun c =>
    ⟨bitmapOf rows c,.texts (rows.map fun row => if row.getD c [] = nullSentinel then some [] else some (row.getD c []))⟩

def batches (rs : Rs) : List ColBatch := (chunks rs.rows).map (batchOf rs.names.length)

/-- A table of the catalog: its columns and its log. -/
structure Target where
  names : List Bytes
  file : Bytes

section
variable [Floats]

/-- `write_rs_to_table`, which replaces the table. -/
def writeRsToTable (build : Build) (rs : Rs) : Option Target := (appendAll build [] (batches rs)).map (⟨rs.names,·⟩)

end

/-- SELECT * FROM the table. -/
def selectStar (t : Target) : Option Rs := (execFeed ⟨t.names.length,t.file,none⟩ selectAll).map fun st => ⟨st.rs,t.names⟩

/-- The table, if there is one, as its history. -/
def history : Option Target → Option (Option Rs)
  | none => some none
  | some t => (selectStar t).map some

end Napastak.Scd2
