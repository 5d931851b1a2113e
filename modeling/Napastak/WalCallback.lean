import Napastak.WalRuns

/-! The replication callback over a run of a table. -/
namespace Napastak.Store
open Codec Framing Replay

/-- How many records a call may write. -/
def WriteOp.count : WriteOp → Nat
  | .append b _ _ => b.nrows
  | _ => 1

/-- The log handle is not exchanged, and the 64-bit counter has room for the records. -/
def keepsHandle (t : OpenTable) : TableEvent → Prop
  | .write op => t.wal.nextLsn + op.count < 2 ^ 64
  | .setWalCallback _ => True
  | .compact => False

instance (t : OpenTable) : ∀ e : TableEvent, Decidable (keepsHandle t e)
  | .write op => inferInstanceAs (Decidable (t.wal.nextLsn + op.count < 2 ^ 64))
  | .setWalCallback _ => isTrue trivial
  | .compact => isFalse id

/-- The calls the callbacks should get: each record under the table's name, numbered from 0. -/
def delivery (name : Bytes) (i : Nat) (p : Nat × Bytes) : Delivery := ⟨p.1,name,i,p.2⟩

structure CallbackInv (t : OpenTable) : Prop where
  name : t.wal.tableName = t.name
  callback : t.wal.replCb = t.registered
  lsn : t.wal.nextLsn = t.expected.length
  sent : t.sent = t.expected.mapIdx (delivery t.name)

/-- What one append does to the callback's side of the handle. -/
theorem appendDelivers (w : WAL) (data : Bytes) (io : Io) :
    (w.append data io).1.tableName = w.tableName ∧ (w.append data io).1.replCb = w.replCb ∧
      (((w.append data io).2.1 ≠ 0 ∨ w.replCb = none) ∧ (w.append data io).1.nextLsn = w.nextLsn ∧
          (w.append data io).2.2 = none ∨
        ∃ ud, w.replCb = some ud ∧ (w.append data io).2.1 = 0 ∧ (w.append data io).1.nextLsn = (w.nextLsn + 1) % 2 ^ 64 ∧
          (w.append data io).2.2 = some ⟨ud,w.tableName,w.nextLsn,data⟩) := by
  simp only [WAL.append]
  cases (writeCall (leBytes 4 (data.length % 2 ^ 32)) io.header).2 with
  | false => simp
  | true =>
    cases (writeCall data io.payload).2 with
    | false => simp
    | true =>
      cases hc : w.replCb with
      | none => simp
      | some ud => simp

theorem sendKeeps {t : OpenTable} (inv : CallbackInv t) (data : Bytes) (io : Io) (room : t.wal.nextLsn + 1 < 2 ^ 64) :
    CallbackInv (t.append data io).1 ∧ (t.append data io).1.wal.nextLsn ≤ t.wal.nextLsn + 1 := by
  obtain ⟨name,callback,lsn,sent⟩ := inv
  obtain ⟨name',callback',⟨quiet,lsn',none_⟩ | ⟨ud,some_,rc,lsn',delivered⟩⟩ := appendDelivers t.wal data io
  · have same : (t.append data io).1.expected = t.expected := by
      rcases quiet with failed | none_
      · cases hr : t.registered <;> simp [OpenTable.append,hr,failed]
      · simp [OpenTable.append,← callback,none_]
    refine ⟨⟨name'.trans name,callback'.trans callback,?_,?_⟩,Nat.le_trans (Nat.le_of_eq lsn') (Nat.le_succ _)⟩
    · rw [same]; exact lsn'.trans lsn
    · rw [same]
      simp only [OpenTable.append,none_,Option.toList_none,List.append_nil]
      exact sent
  · have next : (t.append data io).1.expected = t.expected ++ [(ud,data)] := by
      simp [OpenTable.append,← callback,some_,rc]
    rw [Nat.mod_eq_of_lt room] at lsn'
    refine ⟨⟨name'.trans name,callback'.trans callback,?_,?_⟩,Nat.le_of_eq lsn'⟩
    · rw [next,List.length_append,← lsn]; exact lsn'
    · rw [next,List.mapIdx_append]
      simp only [OpenTable.append,delivered,Option.toList_some,sent,name,lsn]
      simp [delivery]

theorem sendAllKeeps {t : OpenTable} (inv : CallbackInv t) {rs : List (Bytes × Io)} (room : t.wal.nextLsn + rs.length < 2 ^ 64) :
    CallbackInv (t.appendAll rs).1 := by
  induction rs generalizing t with
  | nil => exact inv
  | cons r rs ih =>
    rw [List.length_cons] at room
    obtain ⟨next,lsn⟩ := sendKeeps inv r.1 r.2 (by omega)
    have later : (t.append r.1 r.2).1.wal.nextLsn + rs.length < 2 ^ 64 := by omega
    exact ih next later

section
variable [Floats]

theorem rowRecordsCount (b : ColBatch) (rs : List Nat) : (rowRecords b rs).1.length ≤ rs.length := by
  induction rs with
  | nil => exact Nat.le_refl _
  | cons r rs ih =>
    rw [rowRecords]
    split
    · exact Nat.zero_le _
    · exact Nat.succ_le_succ ih

theorem appendRecordsCount {build : Build} {b : ColBatch} {records : List Bytes} {fit : Bool}
    (is : appendRecords build b = some (records,fit)) : records.length ≤ b.nrows := by
  rw [appendRecords.eq_def] at is
  split at is
  · cases is; exact Nat.zero_le _
  · rename_i some_
    cases build with
    | rows =>
      have count := rowRecordsCount b (List.range b.nrows)
      rw [List.length_range] at count
      rwa [Option.some.inj is] at count
    | compressed =>
      obtain ⟨record,_,e⟩ := Option.map_eq_some_iff.mp is
      cases e
      exact Nat.pos_of_ne_zero some_

theorem tableStepKeeps {build : Build} (t : OpenTable) (e : TableEvent) (t' : OpenTable) (inv : CallbackInv t)
    (ok : keepsHandle t e) (step : t.tableStep build e = some t') : CallbackInv t' := by
  cases e with
  | compact => exact ok.elim
  | setWalCallback ud => cases step; exact ⟨inv.name,rfl,inv.lsn,inv.sent⟩
  | write op =>
    cases op with
    | delete off io => cases step; exact (sendKeeps inv _ io ok).1
    | update off csv io => cases step; exact (sendKeeps inv _ io ok).1
    | walAppend data io => cases step; exact (sendKeeps inv _ io ok).1
    | append b io synced =>
      obtain ⟨⟨records,fit⟩,is,step⟩ := Option.bind_eq_some_iff.mp step
      have count := appendRecordsCount is
      have room : t.wal.nextLsn + b.nrows < 2 ^ 64 := ok
      have inv' := @sendAllKeeps t inv (withIo records io) (by rw [withIo,List.length_mapIdx]; omega)
      cases step
      exact ⟨inv'.name,inv'.callback,inv'.lsn,inv'.sent⟩

/-- In every run of a table that is not compacted the callback gets each record that was appended after it was
set, once and in order, under the table's name, numbered 0, 1, 2 and so on. -/
theorem deliveredOnce {build : Build} {name file : Bytes} {events : List TableEvent} {t : OpenTable}
    (ok : along (OpenTable.tableStep build) keepsHandle (tableOpen name file) events)
    (ran : Replay.run (OpenTable.tableStep build) (tableOpen name file) events = some t) :
    t.sent = t.expected.mapIdx (delivery t.name) :=
  (runInvariant tableStepKeeps ⟨rfl,rfl,rfl,rfl⟩ ok ran).sent

end

/-- A callback, two rows and the delete of one. -/
def watched : List TableEvent :=
  [.setWalCallback 1,.write (.append sevenEight (fun _ => .good) true),.write (.delete 0 .good)]

theorem deliveredOnceWatched : ∃ t,
    Replay.run (@OpenTable.tableStep wholeFloats .rows) (tableOpen (ascii "t") []) watched = some t ∧
      t.sent = t.expected.mapIdx (delivery t.name) :=
  ⟨_,rfl,@deliveredOnce wholeFloats .rows (ascii "t") [] watched _ (by decide) rfl⟩

/-- After a compaction the callback gets nothing; set again, it gets number 0 once more, under no name. -/
theorem compactDropsCallback :
    (∃ t, Replay.run (@OpenTable.tableStep wholeFloats .rows) (tableOpen (ascii "t") [])
        [.setWalCallback 1,.write (.walAppend (ascii "7\n") .good),.compact,.write (.walAppend (ascii "8\n") .good)] = some t ∧
      t.expected = [(1,ascii "7\n"),(1,ascii "8\n")] ∧ t.sent = [⟨1,ascii "t",0,ascii "7\n"⟩]) ∧
    ∃ t, Replay.run (@OpenTable.tableStep wholeFloats .rows) (tableOpen (ascii "t") [])
        [.setWalCallback 1,.write (.walAppend (ascii "7\n") .good),.compact,.setWalCallback 1,
          .write (.walAppend (ascii "8\n") .good)] = some t ∧
      t.sent = [⟨1,ascii "t",0,ascii "7\n"⟩,⟨1,[],0,ascii "8\n"⟩] :=
  ⟨⟨_,rfl,by decide,by decide⟩,_,rfl,by decide⟩

end Napastak.Store
