import Napastak.CStr
import Napastak.Lib.Replay

/-! `replicator.c` and the storage node: WAL records of the leader wait in a queue, one thread sends each to the
replicas in turn and waits for their answers. A message travels and is applied apart from the leader's thread. -/
namespace Napastak.Replicator
open Replay

structure ReplItem where
  tableName : Bytes
  lsn : Nat
  data : Bytes
  deriving DecidableEq, Repr

def replQueueCap : Nat := 1024

def maxReplicas : Nat := 8

/-- `sizeof(ProtoReplicateHdr)`. -/
def replicateHdrSize : Nat := 152

/-- The largest body `proto_recv` takes. -/
def maxBody : Nat := 64 * 1024 * 1024

/-- One replica with the leader's connection to it: the messages under way, each with the connection it was sent on,
the answer that has come back, and the records appended to the replica's tables. -/
structure Replica where
  connected : Bool
  connection : Nat
  inbox : List (ReplItem × Nat)
  ack : Option Bool
  applied : List ReplItem
  deriving DecidableEq, Repr

def Replica.new : Replica := ⟨false,0,[],none,[]⟩

/-- The record the worker has taken, the replica it is at, and whether it waits for the answer. -/
structure Sending where
  item : ReplItem
  replica : Nat
  waiting : Bool
  deriving DecidableEq, Repr

/-- The leader's logs are kept as the list of its records. -/
structure World where
  nextLsn : Bytes → Nat
  logged : List ReplItem
  queue : List ReplItem
  sending : Option Sending
  replicas : List Replica
  lastAckedLsn : Nat

inductive SendOutcome
  | connectFailed | sendFailed | sent
  deriving DecidableEq, Repr

inductive Act
  | append (table data : Bytes)
  | addReplica
  | take
  | send (outcome : SendOutcome)
  | recvAck
  | recvFailed
  | finish
  | handle (replica message : Nat) (ok : Bool)
  | lose (replica message : Nat)

/-- `replicator_enqueue`. -/
def replicatorEnqueue (queue : List ReplItem) (item : ReplItem) : List ReplItem :=
  if replQueueCap ≤ queue.length then queue else queue ++ [item]

/-- `storage_client_connect`, when it is called for. -/
def Replica.connect (r : Replica) : Replica :=
  if r.connected then r else {r with connected := true, connection := r.connection + 1, ack := none}

def Replica.disconnect (r : Replica) : Replica := {r with connected := false, ack := none}

/-- The first half of `send_to_replica`; the flag says whether it goes on to wait for an answer. -/
def Replica.send (r : Replica) (item : ReplItem) : SendOutcome → Option (Replica × Bool)
  | .connectFailed => if r.connected then none else some (r,false)
  | .sendFailed => some (r.connect.disconnect,false)
  | .sent => some ({r.connect with inbox := r.connect.inbox ++ [(item,r.connect.connection)]},true)

/-- `handle_replicate`: the record is appended or not, the answer goes back on the message's connection. -/
def Replica.handle (r : Replica) (message : Nat) (ok : Bool) : Option Replica :=
  match r.inbox[message]? with
  | none => none
  | some (item,connection) =>
    if maxBody < replicateHdrSize + item.data.length then none
    else some {r with
      inbox := r.inbox.eraseIdx message
      applied := if ok then r.applied ++ [item] else r.applied
      ack := if r.connected ∧ connection = r.connection then some ok else r.ack}

def World.next (w : World) (s : Sending) (r : Replica) (waiting : Bool) : World :=
  {w with
    replicas := w.replicas.set s.replica r
    sending := some {s with replica := if waiting then s.replica else s.replica + 1, waiting := waiting}}

/-- One step of the leader's callers, of the worker or of a replica. The worker reads a whole answer and looks at
nothing in it. -/
def step (w : World) : Act → Option World
  | .append table data =>
    let item := ⟨table,w.nextLsn table,data⟩
    some {w with
      nextLsn := Function.update w.nextLsn table (w.nextLsn table + 1)
      logged := w.logged ++ [item]
      queue := replicatorEnqueue w.queue item}
  | .addReplica =>
    if maxReplicas ≤ w.replicas.length then some w else some {w with replicas := w.replicas ++ [Replica.new]}
  | .take => match w.sending, w.queue with
    | none,item :: queue => some {w with queue := queue, sending := some ⟨item,0,false⟩}
    | _,_ => none
  | .send outcome => do
    let s ← w.sending
    let r ← w.replicas[s.replica]?
    if s.waiting then none
    else
      let (r',waiting) ← r.send s.item outcome
      some (w.next s r' waiting)
  | .recvAck => do
    let s ← w.sending
    let r ← w.replicas[s.replica]?
    if s.waiting ∧ r.ack.isSome then some (w.next s {r with ack := none} false) else none
  | .recvFailed => do
    let s ← w.sending
    let r ← w.replicas[s.replica]?
    if s.waiting then some (w.next s r.disconnect false) else none
  | .finish => do
    let s ← w.sending
    if s.waiting = false ∧ w.replicas.length ≤ s.replica then some {w with sending := none, lastAckedLsn := s.item.lsn}
    else none
  | .handle i message ok => do
    let r ← w.replicas[i]?
    let r' ← r.handle message ok
    some {w with replicas := w.replicas.set i r'}
  | .lose i message => do
    let r ← w.replicas[i]?
    if message < r.inbox.length then
      some {w with replicas := w.replicas.set i {r with inbox := r.inbox.eraseIdx message}}
    else none

def start : World := ⟨fun _ => 0,[],[],none,[],0⟩

def ofTable (table : Bytes) (items : List ReplItem) : List ReplItem := items.filter fun item => decide (item.tableName = table)

/-- The records a replica holds of a table are the first ones the leader logged for it, numbered without a gap. -/
def InOrder (w : World) : Prop := ∀ r ∈ w.replicas, ∀ table, ofTable table r.applied <+: ofTable table w.logged ∧
  (ofTable table r.applied).map ReplItem.lsn = List.range (ofTable table r.applied).length

/-- From the given number on, the last acknowledged number vouches for every record up to it. -/
def Acked (w : World) (first : Nat) : Prop := ∀ n, first ≤ n → n ≤ w.lastAckedLsn →
  ∀ item ∈ w.logged, item.lsn ≤ n → ∀ r ∈ w.replicas, item ∈ r.applied

def Replicated (w : World) : Prop := InOrder w ∧ Acked w 0

/-- The queue has room; every message is sent, applied and answered; a replica comes before the first record is taken
from the queue. -/
def Smooth (w : World) : Act → Prop
  | .append .. => w.queue.length < replQueueCap
  | .addReplica => w.queue.length = w.logged.length
  | .send outcome => outcome = .sent
  | .handle _ _ ok => ok = true
  | .recvFailed | .lose .. => False
  | .take | .recvAck | .finish => True

instance (w : World) : ∀ a : Act, Decidable (Smooth w a)
  | .append .. => inferInstanceAs (Decidable (w.queue.length < replQueueCap))
  | .addReplica => inferInstanceAs (Decidable (w.queue.length = w.logged.length))
  | .send outcome => inferInstanceAs (Decidable (outcome = .sent))
  | .handle _ _ ok => inferInstanceAs (Decidable (ok = true))
  | .recvFailed | .lose .. => isFalse id
  | .take | .recvAck | .finish => isTrue trivial

end Napastak.Replicator
