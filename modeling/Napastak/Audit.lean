import Napastak.Pipeline
import Napastak.Lib.Ring
import Napastak.Lib.Replay

/-! `audit.c`: callers put events into a ring under its lock, one thread takes them out in batches and writes them.
Dropped calls leave a warning in the log; here the number of waiting records is kept with each. -/
namespace Napastak.Audit
open Scheduler (CharBuf strncpy)
open Napastak.Ring Replay

inductive AuditEventType
  | query | ingest | pipelineRun | authLogin | authFail | schemaChange | policyChange
  deriving DecidableEq, Repr

structure AuditEvent where
  type : AuditEventType
  userId : Option Bytes
  role : Int
  resource : Option Bytes
  actionDetail : Option Bytes
  correlationId : Option Bytes
  clientIp : Option Bytes
  resultCode : Int
  durationMs : Int
  deriving DecidableEq, Repr

structure AuditRecord where
  type : AuditEventType
  userId : CharBuf 64
  role : Int
  resource : CharBuf 128
  actionDetail : CharBuf 4096
  correlationId : CharBuf 37
  clientIp : CharBuf 64
  resultCode : Int
  durationMs : Int
  ts : Int
  deriving DecidableEq

def auditRingSize : Nat := 1024

instance : NeZero auditRingSize := ⟨by decide⟩

def flushBatch : Nat := 100

def intMax : Nat := 2147483647

structure AuditLog where
  ring : Fin auditRingSize → AuditRecord
  head : Nat
  tail : Nat

/-- The copy of an event that waits in the ring. -/
def record (now : Int) (ev : AuditEvent) : AuditRecord where
  type := ev.type
  userId := strncpy 64 (ev.userId.getD [])
  role := ev.role
  resource := strncpy 128 (ev.resource.getD [])
  actionDetail := strncpy 4096 (ev.actionDetail.getD [])
  correlationId := strncpy 37 (ev.correlationId.getD [])
  clientIp := strncpy 64 (ev.clientIp.getD [])
  resultCode := ev.resultCode
  durationMs := ev.durationMs
  ts := now

/-- The test for a full ring: the next head wraps, the tail does not. -/
def AuditLog.full (l : AuditLog) : Bool :=
  (auditRingSize : Int) ≤ ((l.head + 1) % (auditRingSize * 2) : Nat) - (l.tail : Int)

def auditLogEvent (l : AuditLog) (now : Int) (ev : AuditEvent) : AuditLog :=
  if l.full then l
  else {l with ring := Function.update l.ring (slot auditRingSize l.head) (record now ev), head := l.head + 1}

/-- What the flusher takes out under the lock: up to `n` records. -/
def takeBatch : Nat → AuditLog → List AuditRecord × AuditLog
  | 0, l => ([],l)
  | n + 1, l =>
    if l.head = l.tail then ([],l)
    else
      let (batch,l') := takeBatch n {l with tail := l.tail + 1}
      (l.ring (slot auditRingSize l.tail) :: batch,l')

/-- The ring, the flusher's batch and what `flush_record` wrote; then, for the record, what the calls stored and
how many records waited at each call that dropped its event. -/
structure World where
  log : AuditLog
  batch : List AuditRecord
  sink : List AuditRecord
  stored : List AuditRecord
  drops : List Nat

inductive Act
  | event (now : Int) (ev : AuditEvent)
  | take
  | write

def AuditLog.unflushed (l : AuditLog) : List AuditRecord := window l.ring l.tail (l.head - l.tail)

/-- One critical section, or one record written without the lock. At the end of the `int` range the counter
has no next value. -/
def step (w : World) : Act → Option World
  | .event now ev =>
    if intMax ≤ w.log.head then none
    else if w.log.full then some {w with drops := w.drops ++ [w.log.head - w.log.tail]}
    else some {w with log := auditLogEvent w.log now ev, stored := w.stored ++ [record now ev]}
  | .take => match w.batch with
    | [] => some {w with batch := (takeBatch flushBatch w.log).1, log := (takeBatch flushBatch w.log).2}
    | _ :: _ => none
  | .write => match w.batch with
    | [] => none
    | r :: batch => some {w with batch := batch, sink := w.sink ++ [r]}

def blank : AuditRecord := record 0 ⟨.query,none,0,none,none,none,none,0,0⟩

def start : World := ⟨⟨fun _ => {blank with role := 0},0,0⟩,[],[],[],[]⟩

def Act.flusher : Act → Prop
  | .event .. => False
  | .take | .write => True

/-- What was stored is written, once and in order, or waits and the flusher alone will write it; nothing was dropped
while there was room. -/
structure Exact (w : World) : Prop where
  inOrder : w.stored = w.sink ++ w.batch ++ w.log.unflushed
  drained : ∃ acts, (∀ a ∈ acts, a.flusher) ∧ ∃ w', run step w acts = some w' ∧ w'.sink = w.stored
  fullOnly : ∀ waiting ∈ w.drops, waiting = auditRingSize

/-- An event comes while the ring has a place for it, one less before the counters have gone round twice. -/
def Room (w : World) : Act → Prop
  | .event .. => w.log.head < intMax ∧
      w.log.head - w.log.tail < if w.log.head + 1 < auditRingSize * 2 then auditRingSize - 1 else auditRingSize
  | .take | .write => True

/-! ### The ring -/

/-- The counters are at most a ring apart. -/
def AuditLog.Sound (l : AuditLog) : Prop := l.tail ≤ l.head ∧ l.head ≤ l.tail + auditRingSize

theorem notFull {l : AuditLog} : l.full = false ↔ ((l.head + 1) % 2048 : Nat) - (l.tail : Int) < 1024 :=
  decide_eq_false_iff_not.trans Int.not_le

theorem roomNotFull {l : AuditLog} (sound : l.Sound)
    (room : l.head - l.tail < if l.head + 1 < auditRingSize * 2 then auditRingSize - 1 else auditRingSize) :
    l.full = false := by
  have lo : l.tail ≤ l.head := sound.1
  have hi : l.head ≤ l.tail + 1024 := sound.2
  rw [notFull]
  by_cases first : l.head + 1 < 2048
  · have less : l.head - l.tail < 1023 := by rwa [if_pos (show l.head + 1 < auditRingSize * 2 from first)] at room
    rw [Nat.mod_eq_of_lt first]
    omega
  · have less : l.head - l.tail < 1024 := by rwa [if_neg (show ¬ l.head + 1 < auditRingSize * 2 from first)] at room
    omega

/-- Once a whole ring has been taken out, the test never finds the ring full. -/
theorem neverFull {l : AuditLog} (late : auditRingSize ≤ l.tail) : l.full = false := by
  have late : 1024 ≤ l.tail := late
  have small := Nat.mod_lt (l.head + 1) (show 2048 > 0 by decide)
  rw [notFull]
  omega

theorem eventStores {l : AuditLog} (room : l.full = false) (now : Int) (ev : AuditEvent) : auditLogEvent l now ev =
    {l with ring := Function.update l.ring (slot auditRingSize l.head) (record now ev), head := l.head + 1} := by
  rw [auditLogEvent,room]
  rfl

theorem eventUnflushed {l : AuditLog} (order : l.tail ≤ l.head) (room : l.head - l.tail < auditRingSize)
    (notFull : l.full = false) (now : Int) (ev : AuditEvent) :
    (auditLogEvent l now ev).unflushed = l.unflushed ++ [record now ev] := by
  obtain ⟨count,is⟩ := Nat.exists_eq_add_of_le order
  rw [eventStores notFull,AuditLog.unflushed,AuditLog.unflushed]
  simp only [is,Nat.add_assoc,Nat.add_sub_cancel_left]
  exact windowPush (by omega) _

theorem takeBatchIs (n : Nat) {l : AuditLog} (order : l.tail ≤ l.head) :
    ∃ k, takeBatch n l = (window l.ring l.tail k,{l with tail := l.tail + k}) ∧ k = min n (l.head - l.tail) := by
  induction n generalizing l with
  | zero => exact ⟨0,rfl,by omega⟩
  | succ n ih =>
    rw [takeBatch]
    by_cases empty : l.head = l.tail
    · rw [if_pos empty]
      exact ⟨0,rfl,by omega⟩
    · obtain ⟨k,is,count⟩ := ih (l := {l with tail := l.tail + 1}) (by simp only; omega)
      rw [if_neg empty,is]
      exact ⟨k + 1,by rw [window]; simp only [Nat.add_comm k 1,Nat.add_assoc],by simp only at count; omega⟩

theorem takeBatchUnflushed (n : Nat) {l : AuditLog} (order : l.tail ≤ l.head) :
    (takeBatch n l).1 ++ (takeBatch n l).2.unflushed = l.unflushed := by
  obtain ⟨k,is,count⟩ := takeBatchIs n order
  rw [is,AuditLog.unflushed,AuditLog.unflushed,← windowSplit]
  congr 1
  simp only
  omega

/-! ### Runs -/

structure Inv (w : World) : Prop where
  sound : w.log.Sound
  inOrder : w.stored = w.sink ++ w.batch ++ w.log.unflushed
  noDrops : w.drops = []

theorem startInv : Inv start := ⟨⟨Nat.le_refl _,Nat.zero_le _⟩,rfl,rfl⟩

theorem stepKeeps (w : World) (a : Act) (w' : World) (inv : Inv w) (room : Room w a) (h : step w a = some w') : Inv w' := by
  obtain ⟨sound,inOrder,noDrops⟩ := inv
  cases a with
  | event now ev =>
    have open_ := roomNotFull sound room.2
    have less : w.log.head - w.log.tail < auditRingSize := by
      refine Nat.lt_of_lt_of_le room.2 ?_
      split <;> decide
    rw [step,if_neg (Nat.not_le.mpr room.1),open_] at h
    cases h
    refine ⟨?_,?_,noDrops⟩
    · obtain ⟨lo,hi⟩ := sound
      simp only [eventStores open_,AuditLog.Sound] at hi ⊢
      omega
    · simp only [inOrder,eventUnflushed sound.1 less open_,List.append_assoc]
  | take =>
    cases batch : w.batch with
    | cons r rest => rw [step,batch] at h; cases h
    | nil =>
      rw [step,batch] at h
      cases h
      refine ⟨?_,?_,noDrops⟩
      · obtain ⟨k,is,count⟩ := takeBatchIs flushBatch sound.1
        obtain ⟨lo,hi⟩ := sound
        simp only [is,AuditLog.Sound]
        omega
      · simp only [List.append_assoc,takeBatchUnflushed flushBatch sound.1]
        rw [inOrder,batch,List.append_nil]
  | write =>
    cases batch : w.batch with
    | nil => rw [step,batch] at h; cases h
    | cons r rest =>
      rw [step,batch] at h
      cases h
      refine ⟨sound,?_,noDrops⟩
      simp only [inOrder,batch,List.append_assoc,List.cons_append,List.nil_append]

theorem writeAll (w : World) : run step w (List.replicate w.batch.length .write) =
    some {w with batch := [], sink := w.sink ++ w.batch} := by
  obtain ⟨log,batch,sink,stored,drops⟩ := w
  simp only
  induction batch generalizing sink with
  | nil => rw [List.append_nil]; rfl
  | cons r batch ih =>
    rw [List.length_cons,List.replicate_succ,run,step,Option.bind_some,ih,List.append_assoc,List.singleton_append]

/-- The flusher alone writes what its batch and the ring hold. -/
theorem drains (w : World) (order : w.log.tail ≤ w.log.head) : ∃ acts, (∀ a ∈ acts, a.flusher) ∧
    ∃ w', run step w acts = some w' ∧ w'.sink = w.sink ++ w.batch ++ w.log.unflushed := by
  obtain ⟨count,is⟩ := Nat.exists_eq_add_of_le order
  induction count using Nat.strongRecOn generalizing w with
  | ind count ih =>
    have written := writeAll w
    have writes : ∀ a ∈ List.replicate w.batch.length Act.write, a.flusher := fun a ha => by
      rw [List.eq_of_mem_replicate ha]
      trivial
    by_cases empty : count = 0
    · refine ⟨_,writes,_,written,?_⟩
      have none_ : w.log.unflushed = [] := by rw [AuditLog.unflushed,is,empty,Nat.add_zero,Nat.sub_self]; rfl
      rw [none_,List.append_nil]
    · obtain ⟨k,taken,most⟩ := takeBatchIs flushBatch order
      have some_ : 0 < flushBatch := by decide
      have rest := takeBatchUnflushed flushBatch order
      rw [taken] at rest
      obtain ⟨acts,flushers,w',ran,sink⟩ := ih (count - k) (by omega)
        {w with log := {w.log with tail := w.log.tail + k}, batch := window w.log.ring w.log.tail k, sink := w.sink ++ w.batch}
        (by simp only; omega) (by simp only; omega)
      refine ⟨List.replicate w.batch.length .write ++ .take :: acts,fun a ha => ?_,w',?_,?_⟩
      · rcases List.mem_append.mp ha with early | later
        · exact writes a early
        · rcases List.mem_cons.mp later with rfl | later
          · trivial
          · exact flushers a later
      · rw [runAppend,written,Option.bind_some,run]
        simp only [step,taken,Option.bind_some]
        exact ran
      · rw [sink]
        simp only [List.append_assoc] at rest ⊢
        rw [rest]

theorem invExact {w : World} (inv : Inv w) : Exact w where
  inOrder := inv.inOrder
  drained := by
    rw [inv.inOrder]
    exact drains w inv.sound.1
  fullOnly := fun waiting mem => by
    rw [inv.noDrops] at mem
    cases mem

/-- No event comes without room: whatever the interleaving, every event is written once and in order. -/
theorem eventsFlushed {acts : List Act} {w : World} (roomy : along step Room start acts) (ran : run step start acts = some w) :
    Exact w := invExact (runInvariant stepKeeps startInv roomy ran)

def served : AuditEvent := ⟨.query,none,0,none,none,none,none,200,3⟩

def refused : AuditEvent := ⟨.authFail,none,0,none,none,none,none,401,0⟩

theorem eventsFlushedOne : ∃ w, run step start [.event 5 served,.take,.write] = some w ∧ Exact w :=
  ⟨_,rfl,@eventsFlushed [ .event 5 served,.take,.write] _ ⟨⟨by decide,by decide⟩,trivial,trivial,trivial⟩ rfl⟩

/-! ### The overwritten record -/

/-- Everything stored is written. -/
structure Idle (w : World) (n : Nat) : Prop where
  head : w.log.head = n
  tail : w.log.tail = n
  batch : w.batch = []
  written : w.stored = w.sink

theorem idleNext {w : World} {n : Nat} (idle : Idle w n) (small : n < intMax) (ev : AuditEvent) :
    ∃ w', run step w [.event 0 ev,.take,.write] = some w' ∧ Idle w' (n + 1) := by
  obtain ⟨log,batch,sink,stored,drops⟩ := w
  obtain ⟨head,tail,batch,written⟩ := idle
  simp only at head tail batch written
  have open_ : log.full = false := roomNotFull ⟨by omega,by omega⟩ (by
    rw [head,tail,Nat.sub_self]
    split <;> decide)
  have once : takeBatch flushBatch (auditLogEvent log 0 ev) = ([record 0 ev],{auditLogEvent log 0 ev with tail := n + 1}) := by
    rw [eventStores open_,flushBatch,takeBatch,if_neg (by simp only; omega),takeBatch,if_pos (by simp only; omega)]
    simp only [head,tail,Function.update_self]
  refine ⟨⟨{auditLogEvent log 0 ev with tail := n + 1},[],sink ++ [record 0 ev],stored ++ [record 0 ev],drops⟩,?_,?_,rfl,rfl,?_⟩
  · simp only [run,step,if_neg (show ¬ intMax ≤ log.head by omega),open_,batch,once,Option.bind_some,Bool.false_eq_true,if_false]
  · rw [eventStores open_]
    exact congrArg (· + 1) head
  · exact congrArg (· ++ _) written

theorem idleReached (n : Nat) (small : n ≤ intMax) : ∃ acts w, run step start acts = some w ∧ Idle w n := by
  induction n with
  | zero => exact ⟨[],start,rfl,rfl,rfl,rfl,rfl⟩
  | succ n ih =>
    obtain ⟨acts,w,ran,idle⟩ := ih (by omega)
    obtain ⟨w',next,idle'⟩ := idleNext idle (by omega) served
    exact ⟨acts ++ [.event 0 served,.take,.write],w',by rw [runAppend,ran,Option.bind_some,next],idle'⟩

/-- Past the first round every event is stored, whatever waits. -/
theorem floods {w : World} (late : auditRingSize ≤ w.log.tail) (ev : AuditEvent) (m : Nat) (small : w.log.head + m ≤ intMax) :
    ∃ ring, run step w (List.replicate m (.event 0 ev)) = some
      {w with log := ⟨ring,w.log.head + m,w.log.tail⟩, stored := w.stored ++ List.replicate m (record 0 ev)} := by
  induction m generalizing w with
  | zero => exact ⟨w.log.ring,congrArg some (by rw [List.replicate_zero,List.append_nil]; rfl)⟩
  | succ m ih =>
    obtain ⟨ring,ran⟩ := ih (w := {w with log := auditLogEvent w.log 0 ev, stored := w.stored ++ [record 0 ev]})
      (by rw [eventStores (neverFull late)]; exact late) (by rw [eventStores (neverFull late)]; simp only; omega)
    refine ⟨ring,?_⟩
    rw [List.replicate_succ,run,step,if_neg (by omega),neverFull late]
    simp only [Bool.false_eq_true,if_false,Option.bind_some]
    rw [ran,eventStores (neverFull late)]
    simp only [List.append_assoc,List.singleton_append,List.replicate_succ,Nat.add_assoc,Nat.add_comm 1 m]

/-- After 1024 written events, 1025 more before the flusher runs: the last one takes the place of the first. -/
theorem ringOverwrites : ∃ acts w, run step start acts = some w ∧ ¬ Exact w := by
  obtain ⟨acts,w,ran,idle⟩ := idleReached 1024 (by decide)
  have late : auditRingSize ≤ w.log.tail := Nat.le_of_eq idle.tail.symm
  obtain ⟨ring,flood⟩ := floods late served 1024 (by rw [idle.head]; decide)
  have last : step {w with log := ⟨ring,w.log.head + 1024,w.log.tail⟩, stored := w.stored ++ List.replicate 1024 (record 0 served)}
      (.event 0 refused) = some {w with
        log := ⟨Function.update ring (slot auditRingSize (w.log.head + 1024)) (record 0 refused),w.log.head + 1024 + 1,w.log.tail⟩,
        stored := w.stored ++ List.replicate 1024 (record 0 served) ++ [record 0 refused]} := by
    have open_ : (AuditLog.mk ring (w.log.head + 1024) w.log.tail).full = false := neverFull late
    rw [step,if_neg (by simp only [idle.head]; decide),open_,eventStores open_]
    rfl
  refine ⟨acts ++ (List.replicate 1024 (.event 0 served) ++ [.event 0 refused]),_,by
    rw [runAppend,ran,Option.bind_some,runAppend,flood,Option.bind_some,run,last]; rfl,fun exact_ => ?_⟩
  have order := exact_.inOrder
  simp only [AuditLog.unflushed,idle.head,idle.tail,idle.batch,idle.written,List.append_nil,List.append_assoc] at order
  have same := List.append_cancel_left order
  rw [show 1024 + 1024 + 1 - 1024 = 1024 + 1 from rfl,window,List.replicate_succ] at same
  have first := (List.cons.inj same).1
  rw [show slot auditRingSize 1024 = slot auditRingSize (1024 + 1024) from rfl,Function.update_self] at first
  exact absurd (congrArg AuditRecord.resultCode first) (by decide)

end Napastak.Audit
