import Napastak.WalHandle
import Napastak.CompactScan

/-! Runs of a log under failing writes and restarts, and of a table under its callback and compaction. -/
namespace Napastak.Store
open Codec Framing Replay

/-- What a reader with a buffer of `cap` bytes gets of a log, each record at its offset. -/
def readBack (cap : Nat) (file : Bytes) : List (Nat × Bytes) :=
  (placed 0 (records file)).filter fun r => 0 < r.2.length ∧ r.2.length ≤ cap

/-! ### The condition on a write -/

/-- The log ends with a whole record, and the new one is not empty and fits the reader and its length field. -/
structure Ready (cap : Nat) (file data : Bytes) : Prop where
  whole : file = frame (records file)
  some_ : 0 < data.length
  reader : data.length ≤ cap
  field : data.length < 2 ^ 32

/-- Both writes of a record took all its bytes. -/
def Io.whole (io : Io) (data : Bytes) : Bool :=
  (writeCall (leBytes 4 (data.length % 2 ^ 32)) io.header).2 && (writeCall data io.payload).2

instance (cap : Nat) (file data : Bytes) : Decidable (Ready cap file data) :=
  decidable_of_iff (file = frame (records file) ∧ 0 < data.length ∧ data.length ≤ cap ∧ data.length < 2 ^ 32)
    ⟨fun h => ⟨h.1,h.2.1,h.2.2.1,h.2.2.2⟩,fun h => ⟨h.whole,h.some_,h.reader,h.field⟩⟩

def readyAll (cap : Nat) (t : OpenTable) : List (Bytes × Io) → Prop
  | [] => True
  | (data,io) :: rest => Ready cap t.wal.file data ∧ readyAll cap (t.append data io).1 rest

instance decReadyAll (cap : Nat) : ∀ (t : OpenTable) (rs : List (Bytes × Io)), Decidable (readyAll cap t rs)
  | _, [] => isTrue trivial
  | t, (data,io) :: rest =>
    let _ := decReadyAll cap (t.append data io).1 rest
    inferInstanceAs (Decidable (Ready cap t.wal.file data ∧ readyAll cap (t.append data io).1 rest))

section
variable [Floats]

/-- Nothing is written behind a torn record, and a batch with a failed write is not synced with success. -/
def meets (build : Build) (cap : Nat) (t : OpenTable) : LogEvent → Prop
  | .write (.append b io synced) => ∀ records fit, appendRecords build b = some (records,fit) →
      readyAll cap t (withIo records io) ∧ (fit → synced → ∀ p ∈ withIo records io, p.2.whole p.1)
  | .write (.delete off _) => Ready cap t.wal.file (deleteRecord off)
  | .write (.update off csv _) => Ready cap t.wal.file (updateRecord off csv)
  | .write (.walAppend data _) => Ready cap t.wal.file data
  | .stop _ => t.wal.file = frame (records t.wal.file)
  | .reopen => True

instance (build : Build) (cap : Nat) (t : OpenTable) : ∀ e : LogEvent, Decidable (meets build cap t e)
  | .write (.append b io synced) =>
    match h : appendRecords build b with
    | none => isTrue (by simp [meets,h])
    | some (records,fit) =>
      decidable_of_iff (readyAll cap t (withIo records io) ∧
        (fit → synced → ∀ p ∈ withIo records io, p.2.whole p.1)) (by simp [meets,h])
  | .write (.delete off _) => inferInstanceAs (Decidable (Ready cap t.wal.file (deleteRecord off)))
  | .write (.update off csv _) => inferInstanceAs (Decidable (Ready cap t.wal.file (updateRecord off csv)))
  | .write (.walAppend data _) => inferInstanceAs (Decidable (Ready cap t.wal.file data))
  | .stop _ => inferInstanceAs (Decidable (t.wal.file = frame (records t.wal.file)))
  | .reopen => isTrue trivial

end

/-! ### What every step keeps -/

structure LogInv (cap : Nat) (t : OpenTable) : Prop where
  log : ∃ ps tail, Framable ps ∧ Torn tail ∧ t.wal.file = frame ps ++ tail ∧
    (tail = [] → t.wal.writePos = t.wal.file.length) ∧
    (placed 0 ps).filter (fun r => 0 < r.2.length ∧ r.2.length ≤ cap) = t.acked
  codes : ∀ c ∈ t.calls, c.1 = 0 → c.2

theorem tornEmpty : Torn [] := .inl (by decide)

/-- A log with no torn record. -/
theorem LogInv.clean {cap : Nat} {t : OpenTable} (inv : LogInv cap t) (whole : t.wal.file = frame (records t.wal.file)) :
    ∃ ps, Framable ps ∧ t.wal.file = frame ps ∧ t.wal.writePos = t.wal.file.length ∧
      (placed 0 ps).filter (fun r => 0 < r.2.length ∧ r.2.length ≤ cap) = t.acked := by
  obtain ⟨ps,tail,small,torn,is,pos,acked⟩ := inv.log
  have none_ : tail = [] := by
    rw [is,recordsFrameTorn small torn] at whole
    exact List.append_right_eq_self.mp whole
  subst none_
  exact ⟨ps,small,by rw [is,List.append_nil],pos rfl,acked⟩

/-- The bytes of a call that did not take them all. -/
theorem writeShort {data : Bytes} {r : WriteResult} (short : (writeCall data r).2 = false) :
    (writeCall data r).1 = [] ∨ ∃ n < data.length, (writeCall data r).1 = data.take n := by
  cases r with
  | none => exact .inl rfl
  | some n =>
    simp only [writeCall,decide_eq_false_iff_not,Nat.not_le] at short
    exact .inr ⟨n,short,rfl⟩

theorem writeAll {data : Bytes} {r : WriteResult} (all : (writeCall data r).2 = true) : (writeCall data r).1 = data := by
  cases r with
  | none => cases all
  | some n =>
    simp only [writeCall,decide_eq_true_eq] at all
    exact List.take_of_length_le all

/-- What one append does to a clean log: the whole record, or a torn one, or nothing. -/
theorem appendCases (w : WAL) {data : Bytes} (io : Io) (some_ : 0 < data.length) (field : data.length < 2 ^ 32) :
    ((io.whole data = true ∧ (w.append data io).2.1 = 0 ∧ (w.append data io).1.file = w.file ++ framed data ∧
        (w.append data io).1.writePos = w.writePos + 4 + data.length) ∨
      (io.whole data = false ∧ (w.append data io).2.1 = -1 ∧ (w.append data io).1.writePos = w.writePos ∧
        ∃ tail, Torn tail ∧ (w.append data io).1.file = w.file ++ tail)) := by
  have header : ∀ rest : Bytes, (leBytes 4 (data.length % 2 ^ 32) ++ rest).take 4 = leBytes 4 data.length := fun rest => by
    rw [Nat.mod_eq_of_lt field]
    exact List.take_left' (leBytesLength 4 _)
  simp only [WAL.append,Io.whole]
  cases hh : (writeCall (leBytes 4 (data.length % 2 ^ 32)) io.header).2 with
  | false =>
    refine .inr ⟨rfl,rfl,rfl,_,?_,rfl⟩
    rcases writeShort hh with none_ | ⟨n,lt,is⟩
    · rw [none_]; exact tornEmpty
    · rw [is]
      rw [leBytesLength] at lt
      exact .inl (by rw [List.length_take,leBytesLength]; omega)
  | true =>
    rw [writeAll hh]
    simp only [Bool.true_eq_false,if_false,Bool.true_and]
    cases hp : (writeCall data io.payload).2 with
    | false =>
      refine .inr ⟨rfl,rfl,rfl,leBytes 4 (data.length % 2 ^ 32) ++ (writeCall data io.payload).1,?_,List.append_assoc ..⟩
      have size : (writeCall data io.payload).1.length < data.length := by
        rcases writeShort hp with none_ | ⟨n,lt,is⟩
        · rw [none_]; exact some_
        · rw [is,List.length_take]; omega
      right
      rw [header,leValueBytes (by simpa using field),List.length_append,leBytesLength]
      omega
    | true =>
      rw [writeAll hp]
      refine .inl ⟨rfl,?_,?_,?_⟩ <;> cases w.replCb <;> simp [framed]

theorem appendKeeps {cap : Nat} {t : OpenTable} (inv : LogInv cap t) {data : Bytes} (io : Io) (ready : Ready cap t.wal.file data) :
    LogInv cap (t.append data io).1 ∧ ((t.append data io).2 = 0 ↔ io.whole data) := by
  obtain ⟨ps,small,is,pos,acked⟩ := inv.clean ready.whole
  rcases appendCases t.wal io ready.some_ ready.field with ⟨whole,rc,file,at_⟩ | ⟨short,rc,at_,tail,torn,file⟩
  · refine ⟨⟨⟨ps ++ [data],[],?_,tornEmpty,?_,fun _ => ?_,?_⟩,inv.codes⟩,iff_of_true rc whole⟩
    · intro p hp
      rcases List.mem_append.mp hp with hp | hp
      · exact small p hp
      · rw [List.mem_singleton.mp hp]; exact ready.field
    · simp only [OpenTable.append]
      rw [file,is,frameAppend,List.append_nil]
      simp [frame]
    · simp only [OpenTable.append]
      rw [at_,file,List.length_append,framedLength,pos]
      omega
    · simp only [OpenTable.append,rc,if_true]
      rw [placedAppend,List.filter_append,acked,Nat.zero_add,← is,← pos]
      congr 1
      simp [placed,ready.some_,ready.reader]
  · refine ⟨⟨⟨ps,tail,small,torn,?_,fun none_ => ?_,?_⟩,inv.codes⟩,?_⟩
    · simp only [OpenTable.append]
      rw [file,is]
    · simp only [OpenTable.append]
      rw [at_,file,none_,List.append_nil,pos]
    · simp only [OpenTable.append,rc]
      exact acked
    · have ne : (t.append data io).2 ≠ 0 := by
        simp only [OpenTable.append,rc]
        decide
      exact iff_of_false ne (by simp [short])

theorem appendAllKeeps {cap : Nat} {t : OpenTable} (inv : LogInv cap t) {rs : List (Bytes × Io)} (ready : readyAll cap t rs) :
    LogInv cap (t.appendAll rs).1 ∧ ((t.appendAll rs).2 = true ↔ ∀ p ∈ rs, p.2.whole p.1) := by
  induction rs generalizing t with
  | nil => exact ⟨inv,by simp [OpenTable.appendAll]⟩
  | cons r rs ih =>
    obtain ⟨here,later⟩ := ready
    obtain ⟨inv',code⟩ := appendKeeps inv r.2 here
    obtain ⟨last,codes⟩ := ih inv' later
    refine ⟨last,?_⟩
    simp only [OpenTable.appendAll,Bool.and_eq_true,decide_eq_true_eq,List.forall_mem_cons]
    exact and_congr code codes

theorem reopenKeeps {cap : Nat} {t : OpenTable} (inv : LogInv cap t) {tail' : Bytes} (torn : Torn tail')
    (whole : tail' = [] ∨ t.wal.file = frame (records t.wal.file)) : LogInv cap (t.reopened (t.wal.file ++ tail')) := by
  rcases whole with rfl | whole
  · rw [List.append_nil]
    obtain ⟨ps,tail,small,torn,is,_,acked⟩ := inv.log
    exact ⟨⟨ps,tail,small,torn,is,fun _ => rfl,acked⟩,inv.codes⟩
  · obtain ⟨ps,small,is,_,acked⟩ := inv.clean whole
    exact ⟨⟨ps,tail',small,torn,by rw [← is]; rfl,fun _ => rfl,acked⟩,inv.codes⟩

section
variable [Floats]

theorem writeKeeps {build : Build} {cap : Nat} {t t' : OpenTable} {op : WriteOp} (inv : LogInv cap t)
    (ok : meets build cap t (.write op)) (step : t.write build op = some t') : LogInv cap t' := by
  cases op with
  | delete off io => cases step; exact (appendKeeps inv io ok).1
  | update off csv io => cases step; exact (appendKeeps inv io ok).1
  | walAppend data io => cases step; exact (appendKeeps inv io ok).1
  | append b io synced =>
    rw [OpenTable.write] at step
    obtain ⟨⟨records,fit⟩,is,step⟩ := Option.bind_eq_some_iff.mp step
    obtain ⟨ready,synced_⟩ := ok records fit is
    obtain ⟨inv',codes⟩ := appendAllKeeps inv ready
    cases step
    refine ⟨inv'.log,?_⟩
    simp only [List.forall_mem_append,List.forall_mem_singleton]
    refine ⟨inv'.codes,fun rc => ?_⟩
    have fits : fit = true ∧ (synced = true ∨ b.nrows = 0) := by
      by_cases none_ : b.nrows = 0
      · simp only [appendRecords,if_pos none_] at is
        cases is
        exact ⟨rfl,.inr none_⟩
      · cases fit <;> cases synced <;> simp_all
    rw [fits.1,Bool.true_and,codes]
    rcases fits.2 with yes | none_
    · exact synced_ fits.1 yes
    · simp only [appendRecords,if_pos none_] at is
      cases is
      intro p hp
      cases hp

theorem logStepKeeps {build : Build} {cap : Nat} (t : OpenTable) (e : LogEvent) (t' : OpenTable) (inv : LogInv cap t)
    (ok : meets build cap t e) (step : t.logStep build e = some t') : LogInv cap t' := by
  cases e with
  | write op => exact writeKeeps inv ok step
  | reopen =>
    cases step
    have kept := reopenKeeps inv tornEmpty (.inl rfl)
    rwa [List.append_nil] at kept
  | stop data =>
    cases step
    by_cases empty : data.length % 2 ^ 32 = 0
    · obtain ⟨ps,small,is,_,acked⟩ := inv.clean ok
      refine ⟨⟨ps ++ [[]],[],?_,tornEmpty,?_,fun _ => rfl,?_⟩,inv.codes⟩
      · intro p hp
        rcases List.mem_append.mp hp with hp | hp
        · exact small p hp
        · rw [List.mem_singleton.mp hp]; decide
      · simp only [OpenTable.reopened,walOpen,frameAppend,← is,empty,List.append_nil]
        rfl
      · rw [placedAppend,List.filter_append,acked]
        simp [placed,OpenTable.reopened]
    · refine reopenKeeps inv (.inr ?_) (.inr ok)
      have header : (leBytes 4 (data.length % 2 ^ 32)).take 4 = leBytes 4 (data.length % 2 ^ 32) :=
        List.take_of_length_le (by rw [leBytesLength])
      rw [header,leValueBytes (by omega),leBytesLength]
      omega

/-- In every run that writes nothing behind a torn record, what is read back is what was acknowledged, at the
offsets reported for it, and a batch reported as written was written. -/
theorem ackedReadBack {build : Build} {cap : Nat} {name : Bytes} {events : List LogEvent} {t : OpenTable}
    (ok : along (OpenTable.logStep build) (meets build cap) (tableOpen name []) events)
    (ran : Replay.run (OpenTable.logStep build) (tableOpen name []) events = some t) :
    readBack cap t.wal.file = t.acked ∧ ∀ c ∈ t.calls, c.1 = 0 → c.2 := by
  have start : LogInv cap (tableOpen name []) :=
    ⟨⟨[],[],fun p hp => (List.not_mem_nil hp).elim,tornEmpty,rfl,fun _ => rfl,rfl⟩,fun c hc => (List.not_mem_nil hc).elim⟩
  have inv := runInvariant logStepKeeps start ok ran
  obtain ⟨ps,tail,small,torn,is,_,acked⟩ := inv.log
  rw [readBack,is,recordsFrameTorn small torn]
  exact ⟨acked,inv.codes⟩

end

/-- Both writes as they should be. -/
def Io.good : Io := ⟨some 4294967296,some 4294967296⟩

/-- A row, a DELETE whose length is not written, a restart and another row. -/
def failedDelete : List LogEvent :=
  [.write (.walAppend (ascii "7\n") .good),.write (.delete 0 ⟨none,none⟩),.reopen,.write (.walAppend (ascii "8\n") .good)]

theorem ackedReadBackFailedDelete : ∃ t,
    Replay.run (@OpenTable.logStep wholeFloats .rows) (tableOpen (ascii "t") []) failedDelete = some t ∧
      readBack 262143 t.wal.file = t.acked ∧ ∀ c ∈ t.calls, c.1 = 0 → c.2 :=
  ⟨_,rfl,@ackedReadBack wholeFloats .rows 262143 (ascii "t") failedDelete _ (by decide) rfl⟩

/-- One byte of a payload is written and the next record acknowledged: neither is read back. A row whose write
fails is reported as written. -/
theorem ackedLost :
    (∃ t, Replay.run (@OpenTable.logStep wholeFloats .rows) (tableOpen (ascii "t") [])
        [.write (.walAppend (ascii "7\n") ⟨some 4,some 1⟩),.write (.walAppend (ascii "8\n") .good)] = some t ∧
      t.acked = [(0,ascii "8\n")] ∧ readBack 262143 t.wal.file = [(0,[55,2])]) ∧
    ∃ t, Replay.run (@OpenTable.logStep wholeFloats .rows) (tableOpen (ascii "t") [])
        [.write (.append sevenEight (fun k => if k = 0 then .good else ⟨none,none⟩) true)] = some t ∧
      t.calls = [(0,false)] ∧ readBack 262143 t.wal.file = [(0,ascii "7\n")] :=
  ⟨⟨_,rfl,by decide,by decide⟩,_,rfl,by decide,by decide⟩

end Napastak.Store
