import Napastak.Compact
import Napastak.Lib.Replay

/-! The open log of a table: its file, the position kept beside it and the replication callback, under
writes that can fail or stop short. -/
namespace Napastak.Store
open Codec Framing

/-- What `write(2)` did: an error, or as many of the bytes as it took. -/
abbrev WriteResult := Option Nat

/-- The bytes that reach the file, and whether the call returned their number. -/
def writeCall (data : Bytes) : WriteResult → Bytes × Bool
  | none => ([],false)
  | some n => (data.take n,data.length ≤ n)

/-- The two writes of one record. -/
structure Io where
  header : WriteResult
  payload : WriteResult

/-- A call of the replication callback; the callback is known by its userdata. -/
structure Delivery where
  replUd : Nat
  tableName : Bytes
  lsn : Nat
  data : Bytes
  deriving DecidableEq, Repr

structure WAL where
  file : Bytes
  writePos : Nat
  replCb : Option Nat
  tableName : Bytes
  nextLsn : Nat

/-- `wal_open`, on the file it finds. -/
def walOpen (file : Bytes) : WAL := ⟨file,file.length,none,[],0⟩

/-- `wal_append`: the handle, the returned code and what the callback got. -/
def WAL.append (w : WAL) (data : Bytes) (io : Io) : WAL × Int × Option Delivery :=
  let header := writeCall (leBytes 4 (data.length % 2 ^ 32)) io.header
  let w := {w with file := w.file ++ header.1}
  if header.2 = false then (w,-1,none)
  else
    let payload := writeCall data io.payload
    let w := {w with file := w.file ++ payload.1}
    if payload.2 = false then (w,-1,none)
    else
      let w := {w with writePos := w.writePos + 4 + data.length}
      match w.replCb with
      | none => (w,0,none)
      | some ud => ({w with nextLsn := (w.nextLsn + 1) % 2 ^ 64},0,some ⟨ud,w.tableName,w.nextLsn,data⟩)

/-- A table with its open log, and what its callers and its callback saw: the records whose append returned 0
with the offset `wal_tell` gave before, the calls of `table_append` (the code, and whether every row was
written), the callback last registered, what it should have got and what was delivered. -/
structure OpenTable where
  name : Bytes
  wal : WAL
  acked : List (Nat × Bytes)
  calls : List (Int × Bool)
  registered : Option Nat
  expected : List (Nat × Bytes)
  sent : List Delivery

/-- `table_open` or `table_create`; the name is kept in 128 bytes. -/
def tableOpen (name file : Bytes) : OpenTable where
  name := name.take 127
  wal := {walOpen file with tableName := name.take 127}
  acked := []
  calls := []
  registered := none
  expected := []
  sent := []

def OpenTable.append (t : OpenTable) (data : Bytes) (io : Io) : OpenTable × Int :=
  match t.wal.append data io with
  | (wal,rc,delivery) =>
    ({t with
      wal := wal
      acked := if rc = 0 then t.acked ++ [(t.wal.writePos,data)] else t.acked
      expected := match t.registered with
        | some ud => if rc = 0 then t.expected ++ [(ud,data)] else t.expected
        | none => t.expected
      sent := t.sent ++ delivery.toList},rc)

/-- The loop of `table_append` over its records, which drops the codes; whether every one was 0. -/
def OpenTable.appendAll (t : OpenTable) : List (Bytes × Io) → OpenTable × Bool
  | [] => (t,true)
  | (data,io) :: rest =>
    match t.append data io with
    | (t,rc) => ((t.appendAll rest).1,rc = 0 && (t.appendAll rest).2)

/-- The calls that write records, with what every write did. -/
inductive WriteOp
  | append (b : ColBatch) (io : Nat → Io) (synced : Bool)
  | delete (off : Nat) (io : Io)
  | update (off : Nat) (csv : Bytes) (io : Io)
  | walAppend (data : Bytes) (io : Io)

/-- Each record of a batch with its writes. -/
def withIo (records : List Bytes) (io : Nat → Io) : List (Bytes × Io) := records.mapIdx fun k data => (data,io k)

variable [Floats]

def OpenTable.write (build : Build) (t : OpenTable) : WriteOp → Option OpenTable
  | .append b io synced => do
    let (records,fit) ← appendRecords build b
    let (t,wrote) := t.appendAll (withIo records io)
    let rc : Int := if b.nrows = 0 then 0 else if fit then if synced then 0 else -1 else -1
    some {t with calls := t.calls ++ [(rc,fit && wrote)]}
  | .delete off io => some (t.append (deleteRecord off) io).1
  | .update off csv io => some (t.append (updateRecord off csv) io).1
  | .walAppend data io => some (t.append data io).1

/-- What can happen to a log: a call, or a process that stops after the length of a record and comes back. -/
inductive LogEvent
  | write (op : WriteOp)
  | stop (data : Bytes)
  | reopen

def OpenTable.reopened (t : OpenTable) (file : Bytes) : OpenTable :=
  {t with wal := {walOpen file with tableName := t.name}, registered := none}

def OpenTable.logStep (build : Build) (t : OpenTable) : LogEvent → Option OpenTable
  | .write op => t.write build op
  | .stop data => some (t.reopened (t.wal.file ++ leBytes 4 (data.length % 2 ^ 32)))
  | .reopen => some (t.reopened t.wal.file)

/-- What can happen to a table of a running gateway. -/
inductive TableEvent
  | write (op : WriteOp)
  | setWalCallback (ud : Nat)
  | compact

/-- `table_compact` closes the log and opens the new file. -/
def OpenTable.compact (t : OpenTable) : OpenTable := {t with wal := walOpen (tableCompact t.wal.file)}

def OpenTable.tableStep (build : Build) (t : OpenTable) : TableEvent → Option OpenTable
  | .write op => t.write build op
  | .setWalCallback ud => some {t with wal := {t.wal with replCb := some ud}, registered := some ud}
  | .compact => some t.compact

end Napastak.Store
