import Napastak.Compress
import Napastak.Wal
import Napastak.Split

/-! The full scan of `load_tbl`: the tombstones of the whole log, then every record that
still shows rows. `none` is a scan that follows a wild pointer. -/
namespace Napastak.Store
open Codec Framing

abbrev Row := List Bytes

/-- An entry of the first pass; `newCsv` is there only for an UPDATE that has one. -/
structure Tombstone where
  origOff : Nat
  op : UInt8
  newCsv : Option Bytes
  deriving DecidableEq, Repr

def scanTombstone (record : Bytes) : Option Tombstone :=
  match record with
  | [] => none
  | op :: _ =>
    if 262143 < record.length then none
    else if (op = walOpDelete ∨ op = walOpUpdate) ∧ 9 ≤ record.length then
      some ⟨offsetValue record,op,if op = walOpUpdate ∧ 9 < record.length then some (record.drop 9) else none⟩
    else none

/-- The checks `compressed_batch_deserialize` answers with NULL. -/
def batchRejected (data : Bytes) : Bool :=
  data.length < 14 ∨ data.take 4 ≠ dcmb ∨ maxCols < leValue ((data.drop 5).take 4) ∨
    2 ^ 31 ≤ leValue ((data.drop 9).take 4)

/-- The cell of a batch read back from the log: its schema is gone, so every column is taken for
TEXT and a number for a pointer, which is harmless only in the first page. -/
def batchCell (batch : ColBatch) (r c : Nat) : Option Bytes :=
  match batch.cols[c]? with
  | none => if c < batch.ncols then none else some nullSentinel
  | some col =>
    if nullBit col.nullBitmap r then some nullSentinel
    else match col.values with
      | .texts xs => xs[r]?.map fun s => s.getD nullSentinel
      | .nums xs => xs[r]?.bind fun v => if v.toUInt64 < 0x1000 then some nullSentinel else none
      | .null => none

def batchRows (ncols : Nat) (data : Bytes) : Option (List Row) :=
  if batchRejected data then some []
  else do
    let cb ← deserialize data
    let batch := decompressBatch cb
    (List.range batch.nrows).mapM fun r => (List.range ncols).mapM (batchCell batch r)

/-- A line of cells, as many as the schema has columns. -/
def rowOf (ncols : Nat) (line : Bytes) : Row :=
  let vals := walSplitRow line maxCols
  (List.range ncols).map fun i => vals.getD i []

def printable (line : Bytes) : Bool := line.any fun c => 0x20 ≤ c

/-- What the second pass makes of one record. -/
def scanRecord (tbs : List Tombstone) (ncols : Nat) (rec : Nat × Bytes) : Option (List Row) :=
  match rec.2 with
  | [] => some []
  | op :: body =>
    if 16777216 < rec.2.length then some []
    else if op = walOpDelete ∨ op = walOpUpdate then some []
    else if op = walVersionCompressed ∧ body ≠ [] then
      if tbs.any fun t => t.origOff = rec.1 ∧ t.op = walOpDelete then some [] else batchRows ncols body
    else
      let line := trimEnd (cstr rec.2)
      if printable line = false then some []
      else match tbs.find? fun t => t.origOff = rec.1 with
        | none => some [rowOf ncols line]
        | some t => match t.newCsv with
          | none => some []
          | some csv => some [rowOf ncols (trimEnd (cstr csv))]

def tombstones (ps : List Bytes) : List Tombstone := ps.filterMap scanTombstone

def scanRecords (ncols : Nat) (ps : List Bytes) : Option (List Row) :=
  ((placed 0 ps).mapM (scanRecord (tombstones ps) ncols)).map List.flatten

/-- `load_tbl` without an index, on the log file of a table of `ncols` columns. -/
def loadTbl (ncols : Nat) (file : Bytes) : Option (List Row) := scanRecords ncols (records file)

theorem rdBytesRun {n : Nat} {s : Bytes} (h : n ≤ s.length) : rdBytes n s = some (s.take n,s.drop n) :=
  if_neg (Nat.not_lt.mpr h)

/-- The row count in the header of a batch. -/
def headerRows (data : Bytes) : Nat := leValue ((data.drop 9).take 4)

/-- What is read back passed the checks and has the rows of its header. -/
theorem deserializeHeader {data : Bytes} {cb : CompressedBatch} (h : deserialize data = some cb) :
    batchRejected data = false ∧ cb.nrows = headerRows data := by
  rw [deserialize] at h
  split at h
  · cases h
  · rename_i long
    obtain ⟨p,hp,rfl⟩ := Option.map_eq_some_iff.mp h
    have run : ∀ {α β : Type} (r : Reader α) (k : α → Reader β) (s : Bytes), (r >>= k) s = (r s).bind fun p => k p.1 p.2 :=
      fun _ _ _ => rfl
    have le : ∀ n (s : Bytes), n ≤ s.length → rdLe n s = some (leValue (s.take n),s.drop n) := fun n s hs => by
      show (rdBytes n s).bind (fun p => some (leValue p.1,p.2)) = _
      rw [rdBytesRun hs]; rfl
    rw [rdBatch,run,rdBytesRun (by omega)] at hp
    simp only [Option.bind_some] at hp
    split at hp
    · cases hp
    · rename_i magic
      rw [run,le 1 _ (by simp; omega)] at hp
      simp only [Option.bind_some] at hp
      rw [run,le 4 _ (by simp; omega)] at hp
      simp only [Option.bind_some] at hp
      rw [run,le 4 _ (by simp; omega)] at hp
      simp only [Option.bind_some,List.drop_drop] at hp
      split at hp
      · cases hp
      · rename_i counts
        rw [run] at hp
        obtain ⟨cols,_,done⟩ := Option.bind_eq_some_iff.mp hp
        constructor
        · simp only [batchRejected,decide_eq_false_iff_not]
          rintro (h | h | h | h)
          · exact long h
          · exact magic h
          · exact counts (.inl h)
          · exact counts (.inr h)
        · cases Option.some.inj done
          rfl

theorem notRejected {data : Bytes} {cb : CompressedBatch} (h : deserialize data = some cb) : batchRejected data = false :=
  (deserializeHeader h).1

/-- A record that is an ordinary line shows one row. -/
theorem scanLine {off ncols : Nat} {op : UInt8} {body : Bytes} (size : (op :: body).length ≤ 16777216)
    (plain : op ≠ walOpDelete ∧ op ≠ walOpUpdate ∧ op ≠ walVersionCompressed)
    (some_ : printable (trimEnd (cstr (op :: body)))) :
    scanRecord [] ncols (off,op :: body) = some [rowOf ncols (trimEnd (cstr (op :: body)))] := by
  simp only [scanRecord]
  rw [if_neg (Nat.not_lt.mpr size)]
  simp [plain,some_]

theorem noStone {op : UInt8} {body : Bytes} (h : op ≠ walOpDelete ∧ op ≠ walOpUpdate) : scanTombstone (op :: body) = none := by
  simp [scanTombstone,h]

/-! ### A record and its own tombstones -/

/-- A record of the compressed build. -/
def isBatch (p : Bytes) : Bool := p.head? = some walVersionCompressed ∧ 1 < p.length

/-- The line a record or a replacement stands for. -/
def lineOf (p : Bytes) : Bytes := trimEnd (cstr p)

/-- The tombstones of the record at an offset, in log order. -/
def stonesAt (tbs : List Tombstone) (off : Nat) : List Tombstone := tbs.filter fun t => t.origOff = off

/-- A record the scan looks at. -/
def Scanned (p : Bytes) : Prop :=
  p ≠ [] ∧ p.length ≤ 16777216 ∧ p.head? ≠ some walOpDelete ∧ p.head? ≠ some walOpUpdate

theorem findAt (tbs : List Tombstone) (off : Nat) : tbs.find? (fun t => t.origOff = off) = (stonesAt tbs off).head? := by
  rw [stonesAt,List.head?_filter]

theorem anyDelete (tbs : List Tombstone) (off : Nat) :
    (tbs.any fun t => t.origOff = off ∧ t.op = walOpDelete) = true ↔ ∃ t ∈ stonesAt tbs off, t.op = walOpDelete := by
  simp [stonesAt,and_assoc]

theorem Scanned.ops {op : UInt8} {body : Bytes} (h : Scanned (op :: body)) : ¬ (op = walOpDelete ∨ op = walOpUpdate) :=
  fun e => e.elim (fun e => h.2.2.1 (congrArg some e)) fun e => h.2.2.2 (congrArg some e)

/-- With its own tombstones only. -/
theorem scanOwn {tbs : List Tombstone} {ncols off : Nat} {op : UInt8} {body : Bytes} (scanned : Scanned (op :: body)) :
    scanRecord tbs ncols (off,op :: body) =
      if isBatch (op :: body) then
        if ∃ t ∈ stonesAt tbs off, t.op = walOpDelete then some [] else batchRows ncols body
      else if printable (lineOf (op :: body)) = false then some []
      else match (stonesAt tbs off).head? with
        | none => some [rowOf ncols (lineOf (op :: body))]
        | some t => match t.newCsv with
          | none => some []
          | some csv => some [rowOf ncols (lineOf csv)] := by
  have size := scanned.2.1
  have ops := scanned.ops
  have batch : isBatch (op :: body) = true ↔ op = walVersionCompressed ∧ body ≠ [] := by
    simp [isBatch,List.length_pos_iff]
  simp only [scanRecord,if_neg (Nat.not_lt.mpr size),if_neg ops,findAt]
  by_cases hb : isBatch (op :: body)
  · rw [if_pos (batch.mp hb),if_pos hb]
    by_cases hd : ∃ t ∈ stonesAt tbs off, t.op = walOpDelete
    · rw [if_pos hd,if_pos ((anyDelete tbs off).mpr hd)]
    · rw [if_neg hd,if_neg fun h => hd ((anyDelete tbs off).mp h)]
  · rw [if_neg fun h => hb (batch.mpr h),if_neg hb]
    rfl

end Napastak.Store
