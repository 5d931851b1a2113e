import Napastak.Append
import Napastak.Scan

/-! `table_compact` against the full scan: the two read the tombstones of a log each in its
own way. -/
namespace Napastak.Store
open Codec Framing

/-- The longest record that fits the row buffer of compaction. -/
def rowBufMax : Nat := 262143

/-- An entry of the first pass: the offset that is dead and, for an UPDATE, what replaces it. -/
def compactStone (record : Bytes) : Option (Nat × Option Bytes) :=
  match record with
  | [] => none
  | op :: _ =>
    if rowBufMax < record.length then none
    else if op = walOpDelete ∧ record.length = 9 then some (offsetValue record,none)
    else if op = walOpUpdate ∧ 9 ≤ record.length then some (offsetValue record,some (record.drop 9))
    else none

/-- What the second pass writes for a record. The list of replacements is built from its end, so the
last UPDATE of a record is the first one met. -/
def compactRecord (stones : List (Nat × Option Bytes)) (rec : Nat × Bytes) : List Bytes :=
  match rec.2 with
  | [] => []
  | op :: _ =>
    if rowBufMax < rec.2.length then []
    else if op = walOpDelete ∨ op = walOpUpdate then []
    else if stones.any fun s => s.1 = rec.1 then
      ((stones.reverse.filter fun s => s.1 = rec.1).filterMap Prod.snd).head?.toList
    else [rec.2]

def compactRecords (ps : List Bytes) : List Bytes :=
  (placed 0 ps).flatMap (compactRecord (ps.filterMap compactStone))

/-- `table_compact`, on the log file. -/
def tableCompact (file : Bytes) : Bytes := frame (compactRecords (records file))

/-! ### The calls that write a log -/

inductive LogOp
  | append (b : ColBatch)
  | delete (off : Nat)
  | update (off : Nat) (csv : Bytes)

section
variable [Floats]

/-- The records a call writes. -/
def LogOp.records (build : Build) : LogOp → Option (List Bytes)
  | .append b => (appendRecords build b).map (·.1)
  | .delete off => some [deleteRecord off]
  | .update off csv => some [updateRecord off csv]

def LogOp.run (build : Build) (file : Bytes) : LogOp → Option Bytes
  | .append b => (tableAppend build file b).map (·.1)
  | .delete off => some (tableDelete file off)
  | .update off csv => some (tableUpdate file off csv)

/-- The log file after the calls. -/
def runLog (build : Build) (file : Bytes) (ops : List LogOp) : Option Bytes := ops.foldlM (LogOp.run build) file

/-- All the records the calls write. -/
def written (build : Build) (ops : List LogOp) : Option (List Bytes) :=
  (ops.mapM (LogOp.records build)).map List.flatten

end

/-! ### The condition -/

def opFree (p : Bytes) : Bool :=
  p.head? ≠ some walVersionCompressed ∧ p.head? ≠ some walOpDelete ∧ p.head? ≠ some walOpUpdate

/-- The replacements among some tombstones; one without a text is the empty text. -/
def replacements (ts : List Tombstone) : List Bytes :=
  ts.filterMap fun t => if t.op = walOpUpdate then some (t.newCsv.getD []) else none

/-- The scan shows nothing for the record: a batch with a DELETE; a line with no printable byte, or whose
first tombstone is not an UPDATE with a text. -/
def Dead (p : Bytes) (ts : List Tombstone) : Prop :=
  if isBatch p then ∃ t ∈ ts, t.op = walOpDelete
  else printable (lineOf p) = false ∨ ∃ t, ts.head? = some t ∧ t.newCsv = none

/-- As a record of its own the text shows nothing either. -/
def Blank (csv : Bytes) : Prop := csv = [] ∨ opFree csv ∧ printable (lineOf csv) = false

/-- The scan and compaction agree on a record with these tombstones: it has none and is short enough to be
copied, or it is dead and nothing visible replaces it, or its first UPDATE is the one that counts for both
and its text can be a record. -/
def RecordCompacts (p : Bytes) (ts : List Tombstone) : Prop :=
  (ts = [] ∧ (p.length ≤ rowBufMax ∨ (isBatch p = false ∧ printable (lineOf p) = false))) ∨
  (Dead p ts ∧ (rowBufMax < p.length ∨ ∀ csv, (replacements ts).getLast? = some csv → Blank csv) ∧ ts ≠ []) ∨
  (isBatch p = false ∧ printable (lineOf p) ∧ p.length ≤ rowBufMax ∧
    ∃ t csv, ts.head? = some t ∧ t.newCsv = some csv ∧ (replacements ts).getLast? = some csv ∧
      opFree csv ∧ printable (lineOf csv))

structure Compactable (ps : List Bytes) : Prop where
  small : Framable ps
  records : ∀ r ∈ placed 0 ps, Scanned r.2 → RecordCompacts r.2 (stonesAt (tombstones ps) r.1)
  /-- A row that begins with the DELETE byte and is longer than a tombstone buries no record. -/
  stones : ∀ p ∈ ps, p.head? = some walOpDelete → 9 < p.length → p.length ≤ rowBufMax →
    ∀ r ∈ placed 0 ps, r.1 ≠ offsetValue p

end Napastak.Store
