import Napastak.CStr
import Napastak.Lib.Replay

/-! The transaction manager of the storage layer: the slot pool, the calls that take
its mutex once, and `txn_commit` in the steps other threads can come between. The
memory of a slot's arena is not modelled, only what it holds. -/
namespace Napastak.Txns

def maxActive : Nat := 64
def maxEntries : Nat := 4096
def idNone : Nat := 0

inductive TxnStatus where
  | active | committed | aborted
  deriving DecidableEq, Repr

inductive TxnOpType where
  | insert | delete | update
  deriving DecidableEq, Repr

/-- An empty `newCsv` is the NULL pointer. -/
structure TxnEntry (B : Type) where
  table : Bytes
  op : TxnOpType
  batch : Option B
  origOffset : Int
  newCsv : Bytes
  csvLen : Nat
  deriving DecidableEq, Repr

/-- An entry of a slot cleared by `memset`. -/
def zeroEntry {B : Type} : TxnEntry B := ⟨[],.insert,none,0,[],0⟩

/-- The entries are the whole array of the slot; `nentries` of them are in use. -/
structure Txn (B : Type) where
  id : Nat
  status : TxnStatus
  beginTs : Int
  entries : Nat → TxnEntry B
  nentries : Nat

structure TxnManager (B : Type) where
  txns : Nat → Txn B
  nextId : Nat

variable {B : Type}

def TxnManager.set (tm : TxnManager B) (i : Nat) (t : Txn B) : TxnManager B :=
  {tm with txns := Function.update tm.txns i t}

def txnManagerCreate : TxnManager B := ⟨fun _ => ⟨0,.active,0,fun _ => zeroEntry,0⟩,1⟩

def findSlot (tm : TxnManager B) (id : Nat) : Option Nat :=
  (List.range maxActive).find? fun i => (tm.txns i).id = id ∧ (tm.txns i).status = .active

def findFreeSlot (tm : TxnManager B) : Option Nat :=
  (List.range maxActive).find? fun i => (tm.txns i).id = idNone ∨ (tm.txns i).status ≠ .active

def txnBegin (tm : TxnManager B) (now : Int) : TxnManager B × Nat :=
  match findFreeSlot tm with
  | none => (tm,idNone)
  | some i =>
    let slot : Txn B := ⟨tm.nextId,.active,now,fun _ => zeroEntry,0⟩
    ({tm.set i slot with nextId := (tm.nextId + 1) % 2 ^ 64},slot.id)

/-- The arguments of the three buffering calls. -/
inductive Write (B : Type) where
  | insert (table : Bytes) (batch : B)
  | delete (table : Bytes) (origOffset : Int)
  | update (table : Bytes) (origOffset : Int) (newCsv : Bytes)

/-- The fields a buffering call sets; the others keep what the array held. -/
def Write.fill : Write B → TxnEntry B → TxnEntry B
  | .insert table batch, e => {e with table := table.take 127, op := .insert, batch := some batch}
  | .delete table off, e => {e with table := table.take 127, op := .delete, origOffset := off}
  | .update table off csv, e =>
    let e := {e with table := table.take 127, op := .update, origOffset := off}
    if csv.isEmpty then e else {e with newCsv := csv, csvLen := csv.length}

/-- What the caller asked to be applied. -/
def Write.entry (w : Write B) : TxnEntry B := w.fill zeroEntry

def txnBuffer (tm : TxnManager B) (id : Nat) (w : Write B) : TxnManager B × Int :=
  if id = idNone then (tm,-1)
  else match findSlot tm id with
    | none => (tm,-1)
    | some i =>
      let t := tm.txns i
      if t.nentries ≥ maxEntries then (tm,-1)
      else
        let entries := Function.update t.entries t.nentries (w.fill (t.entries t.nentries))
        (tm.set i {t with entries := entries, nentries := t.nentries + 1},0)

def txnBufferInsert (tm : TxnManager B) (id : Nat) (table : Bytes) (batch : B) := txnBuffer tm id (.insert table batch)
def txnBufferDelete (tm : TxnManager B) (id : Nat) (table : Bytes) (off : Int) := txnBuffer tm id (.delete table off)
def txnBufferUpdate (tm : TxnManager B) (id : Nat) (table : Bytes) (off : Int) (csv : Bytes) :=
  txnBuffer tm id (.update table off csv)

def Txn.drop (t : Txn B) : Txn B := {t with status := .aborted, nentries := 0, id := idNone}

def txnRollback (tm : TxnManager B) (id : Nat) : TxnManager B × Int :=
  if id = idNone then (tm,-1)
  else match findSlot tm id with
    | none => (tm,-1)
    | some i => (tm.set i (tm.txns i).drop,0)

/-- One turn of the loop of `txn_manager_timeout_check`; the id it rolled back, if any. -/
def timeoutSlot (now timeout : Int) (tm : TxnManager B) (i : Nat) : TxnManager B × Option Nat :=
  let t := tm.txns i
  if t.status ≠ .active ∨ t.id = idNone then (tm,none)
  else if now - t.beginTs > timeout then (tm.set i t.drop,some t.id)
  else (tm,none)

/-- A `txn_commit` call between its two critical sections. -/
structure Commit where
  slot : Nat
  id : Nat
  nentries : Nat
  i : Nat
  rc : Int
  deriving DecidableEq, Repr

def commitMark (tm : TxnManager B) (id : Nat) : TxnManager B × Option Commit :=
  if id = idNone then (tm,none)
  else match findSlot tm id with
    | none => (tm,none)
    | some i =>
      let t := tm.txns i
      (tm.set i {t with status := .committed},some ⟨i,id,t.nentries,0,0⟩)

def Commit.more (c : Commit) : Bool := c.i < c.nentries ∧ c.rc = 0

/-- The entry the apply loop reads next, straight from the slot. -/
def commitEntry (tm : TxnManager B) (c : Commit) : TxnEntry B := (tm.txns c.slot).entries c.i

def commitClean (tm : TxnManager B) (c : Commit) : TxnManager B :=
  tm.set c.slot {tm.txns c.slot with nentries := 0, id := idNone}

/-- What happened to a transaction, as its callers and the apply callback see it. -/
inductive Mark (B : Type) where
  | began
  | buffered (e : TxnEntry B)
  | rolledBack
  | timedOut
  | marked
  | applied (e : TxnEntry B)
  | returned (rc : Int)
  deriving DecidableEq, Repr

/-- The manager, the commits in progress by thread, and the history. -/
structure World (B : Type) where
  tm : TxnManager B
  calls : Nat → Option Commit
  hist : List (Nat × Mark B)

inductive Event (B : Type) where
  | begin (now : Int)
  | buffer (id : Nat) (w : Write B)
  | rollback (id : Nat)
  | sweep (now timeout : Int)
  | commit (thread : Nat) (id : Nat)
  | apply (thread : Nat) (rc : Int)
  | finish (thread : Nat)

def sweepSlot (now timeout : Int) (w : World B) (i : Nat) : World B :=
  match timeoutSlot now timeout w.tm i with
  | (tm,none) => {w with tm := tm}
  | (tm,some id) => {w with tm := tm, hist := w.hist ++ [(id,.timedOut)]}

/-- One critical section, or one call of the apply callback with the result it gave. A call that
fails its checks returns at once and changes nothing. -/
def step (w : World B) : Event B → Option (World B)
  | .begin now =>
    match txnBegin w.tm now with
    | (tm,id) => some {w with tm := tm, hist := if id = idNone then w.hist else w.hist ++ [(id,.began)]}
  | .buffer id wr =>
    match txnBuffer w.tm id wr with
    | (tm,rc) => some (if rc = 0 then {w with tm := tm, hist := w.hist ++ [(id,.buffered wr.entry)]} else w)
  | .rollback id =>
    match txnRollback w.tm id with
    | (tm,rc) => some (if rc = 0 then {w with tm := tm, hist := w.hist ++ [(id,.rolledBack)]} else w)
  | .sweep now timeout =>
    some (if timeout ≤ 0 then w else (List.range maxActive).foldl (sweepSlot now timeout) w)
  | .commit thread id =>
    match w.calls thread with
    | some _ => none
    | none =>
      match commitMark w.tm id with
      | (_,none) => some w
      | (tm,some c) =>
        some {tm := tm, calls := Function.update w.calls thread (some c), hist := w.hist ++ [(id,.marked)]}
  | .apply thread rc =>
    match w.calls thread with
    | none => none
    | some c =>
      if c.more then
        some {w with
          calls := Function.update w.calls thread (some {c with i := c.i + 1, rc := rc})
          hist := w.hist ++ [(c.id,.applied (commitEntry w.tm c))]}
      else none
  | .finish thread =>
    match w.calls thread with
    | none => none
    | some c =>
      if c.more then none
      else some {tm := commitClean w.tm c, calls := Function.update w.calls thread none,
                 hist := w.hist ++ [(c.id,.returned c.rc)]}

def start : World B := ⟨txnManagerCreate,fun _ => none,[]⟩

/-- `txn_begin` does not take the slot of a commit in progress, and the id counter has not wrapped. -/
def spares (w : World B) : Event B → Prop
  | .begin _ => w.tm.nextId ≠ 0 ∧ ((findFreeSlot w.tm).all fun i => (w.tm.txns i).id = idNone) = true
  | _ => True

instance : ∀ (w : World B) (e : Event B), Decidable (spares w e)
  | w, .begin _ =>
    inferInstanceAs (Decidable (w.tm.nextId ≠ 0 ∧ ((findFreeSlot w.tm).all fun i => (w.tm.txns i).id = idNone) = true))
  | _, .buffer _ _ | _, .rollback _ | _, .sweep _ _ | _, .commit _ _ | _, .apply _ _ | _, .finish _ => isTrue trivial

end Napastak.Txns
