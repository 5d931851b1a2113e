import Napastak.CStr
import Mathlib.Data.Fintype.Basic
import Mathlib.Data.List.FinRange

/-! `conn_pool.c`: the open sessions of outside systems, leased to one caller at a time. A step of a call is what it does
under the mutex, or between two uses of it; steps of any number of calls alternate in any order. -/
namespace Napastak.ConnPool

/-- `POOL_MAX_SLOTS`. -/
abbrev maxSlots : Nat := 64

/-- The connector instance is known by the number of the opening it came from. -/
structure PoolSlot where
  used : Bool
  leased : Bool
  opening : Bool
  connId : Bytes
  soPath : Bytes
  fp : Bytes
  cfg : Option Bytes
  inst : Option Nat
  lastUsed : Int
  lastOk : Int
  lastError : Bytes
  deriving DecidableEq, Repr

def PoolSlot.empty : PoolSlot := ⟨false,false,false,[],[],[],none,none,0,0,[]⟩

/-- The arguments of `conn_pool_acquire`. -/
structure Request where
  connId : Bytes
  soPath : Bytes
  cfgJson : Bytes
  verify : Bool
  errsz : Nat
  deriving DecidableEq, Repr

/-- Where a call stands. An `acquire` that has succeeded is its lease until that is released; `naming` has the new
instance in the slot and has not written the slot's fields, `verifying` and `pinging` wait for an answer to a ping. -/
inductive Call
  | idle
  | acquiring (r : Request)
  | loading (k : Fin maxSlots) (n : Nat) (r : Request)
  | naming (k : Fin maxSlots) (n : Nat) (r : Request) (loaded : Bool)
  | verifying (k : Fin maxSlots) (n : Nat) (r : Request)
  | opened (k : Fin maxSlots) (n : Nat)
  | openFailed (k : Fin maxSlots) (n : Nat) (err : Bytes)
  | holding (k : Fin maxSlots) (n : Nat)
  | ticking (t : Int) (i : Nat)
  | pinging (t : Int) (k : Fin maxSlots) (n : Nat)
  | failed (err : Bytes)
  | ended
  deriving DecidableEq, Repr

/-- The pool with its calls. `begun` has the connection of every opening begun so far, `alive` the openings under way
and the sessions that are open. -/
structure World where
  slots : Fin maxSlots → PoolSlot
  maxPerConn : Nat
  idlePingSec : Int
  begun : List Bytes
  alive : Finset Nat
  calls : Nat → Call

/-- `conn_pool_create`. -/
def create (maxPerConn idlePingSec : Int) : World where
  slots := fun _ => PoolSlot.empty
  maxPerConn := if 0 < maxPerConn then maxPerConn.toNat else 4
  idlePingSec := if 0 < idlePingSec then idlePingSec else 60
  begun := []
  alive := ∅
  calls := fun _ => .idle

/-- The bytes of a literal that is not all ASCII. -/
def utf8 (s : String) : Bytes := s.toUTF8.data.toList

def hexDigit (d : Nat) : UInt8 := if d < 10 then 48 + d.toUInt8 else 87 + d.toUInt8

/-- `cfg_fingerprint`: FNV-1a, printed as `%016llx`. -/
def cfgFingerprint (s : Bytes) : Bytes :=
  let h := s.foldl (fun h c => (h ^^^ c.toNat) * 1099511628211 % 2 ^ 64) 1469598103934665603
  (List.range 16).map fun i => hexDigit (h / 16 ^ (15 - i) % 16)

def World.setSlot (w : World) (k : Fin maxSlots) (s : PoolSlot) : World := {w with slots := Function.update w.slots k s}

def World.setCall (w : World) (c : Nat) (x : Call) : World := {w with calls := Function.update w.calls c x}

/-- `connector_unload`. -/
def World.unload (w : World) : Option Nat → World
  | none => w
  | some n => {w with alive := w.alive.erase n}

def PoolSlot.close (s : PoolSlot) : PoolSlot := {s with inst := none, cfg := none}

def PoolSlot.free (s : PoolSlot) : PoolSlot :=
  {s.close with used := false, leased := false, connId := [], fp := [], lastError := []}

/-- `slot_close`. -/
def World.slotClose (w : World) (k : Fin maxSlots) : World := (w.unload (w.slots k).inst).setSlot k (w.slots k).close

/-- `slot_free`. -/
def World.slotFree (w : World) (k : Fin maxSlots) : World := (w.unload (w.slots k).inst).setSlot k (w.slots k).free

inductive Found
  | session (k : Fin maxSlots) (n : Nat)
  | missing (mine : Nat) (dead : Option (Fin maxSlots))
  deriving DecidableEq, Repr

/-- The scan of `conn_pool_acquire` for a session to take. -/
def scan (connId fp : Bytes) (now : Int) : List (Fin maxSlots) → World → Nat → Option (Fin maxSlots) → World × Found
  | [], w, mine, dead => (w,.missing mine dead)
  | k :: ks, w, mine, dead =>
    let s := w.slots k
    if s.used = false ∨ s.connId ≠ connId then scan connId fp now ks w mine dead
    else if s.fp ≠ fp then scan connId fp now ks (if s.leased then w else w.slotFree k) mine dead
    else if s.leased then scan connId fp now ks w (mine + 1) dead
    else match s.inst with
      | some n => (w.setSlot k {s with leased := true, lastUsed := now},.session k n)
      | none => scan connId fp now ks w (mine + 1) (dead.or (some k))

/-- The first half of `slot_open_unlocked`, up to the unlocking. -/
def World.reserve (w : World) (c : Nat) (k : Fin maxSlots) (r : Request) : World :=
  let s := {w.slots k with
    connId := r.connId.take 63, soPath := r.soPath.take 511, fp := cfgFingerprint r.cfgJson
    used := true, leased := true, opening := true}
  {(w.setSlot k s).setCall c (.loading k w.begun.length r) with
    begun := w.begun ++ [r.connId]
    alive := insert w.begun.length w.alive}

def firstFree (slots : Fin maxSlots → PoolSlot) : Option (Fin maxSlots) :=
  (List.finRange maxSlots).find? fun k => (slots k).used = false

/-- The slot to evict: idle for the longest time. -/
def victim (slots : Fin maxSlots → PoolSlot) : Option (Fin maxSlots) :=
  (List.finRange maxSlots).foldl (fun best k =>
    if (slots k).used ∧ (slots k).leased = false ∧ ∀ b ∈ best, (slots k).lastUsed < (slots b).lastUsed then some k else best) none

/-- One turn of the loop in `conn_pool_acquire`; a call that has to wait takes another later. -/
def World.enter (w : World) (c : Nat) (r : Request) (now : Int) : World :=
  match scan r.connId (cfgFingerprint r.cfgJson) now (List.finRange maxSlots) w 0 none with
  | (w,.session k n) => w.setCall c (.holding k n)
  | (w,.missing _ (some k)) =>
    if (w.slots k).lastError ≠ [] ∧ now - (w.slots k).lastUsed < 5 then
      w.setCall c (.failed ((w.slots k).lastError.take (r.errsz - 1)))
    else w.reserve c k r
  | (w,.missing mine none) =>
    if mine < w.maxPerConn then
      match firstFree w.slots with
      | some k => w.reserve c k r
      | none => match victim w.slots with
        | some k => (w.slotFree k).reserve c k r
        | none => w
    else w

inductive LoadOutcome
  | noMemory | failed | loaded
  deriving DecidableEq, Repr

/-- `slot_open` up to the result of `connector_load`. -/
def World.load (w : World) (c : Nat) (k : Fin maxSlots) (n : Nat) (r : Request) : LoadOutcome → World
  | .noMemory =>
    ({w with alive := w.alive.erase n}).setCall c (.openFailed k n ((utf8 "нет памяти под сессию подключения").take (r.errsz - 1)))
  | .failed =>
    (({w with alive := w.alive.erase n}).setSlot k {w.slots k with cfg := some r.cfgJson, inst := none}).setCall c
      (.naming k n r false)
  | .loaded => (w.setSlot k {w.slots k with cfg := some r.cfgJson, inst := some n}).setCall c (.naming k n r true)

/-- The fields of the slot of a new session. -/
def PoolSlot.named (s : PoolSlot) (r : Request) (now : Int) : PoolSlot :=
  {s with
    connId := r.connId.take 63, soPath := r.soPath.take 511, fp := cfgFingerprint r.cfgJson
    used := true, lastUsed := now}

/-- `slot_open` from there to the ping. -/
def World.name (w : World) (c : Nat) (k : Fin maxSlots) (n : Nat) (r : Request) (loaded : Bool) (now : Int) : World :=
  let s := (w.slots k).named r now
  if loaded then
    if r.verify then (w.setSlot k s).setCall c (.verifying k n r)
    else (w.setSlot k {s with lastOk := now, lastError := []}).setCall c (.opened k n)
  else
    let err := (utf8 "не удалось поднять коннектор (" ++ r.soPath ++ utf8 ")").take (r.errsz - 1)
    (w.setSlot k {s with cfg := none, lastError := err.take 255}).setCall c (.openFailed k n err)

/-- The text of an unanswered ping. -/
def pingError (why : Option Bytes) (default : Bytes) : Bytes :=
  match why with
  | some (a :: s) => (a :: s).take 255
  | _ => default

/-- `slot_open` after the ping. -/
def World.verified (w : World) (c : Nat) (k : Fin maxSlots) (n : Nat) (r : Request) (ok : Bool) (why : Option Bytes) : World :=
  let s := w.slots k
  if ok then (w.setSlot k {s with lastOk := s.lastUsed, lastError := []}).setCall c (.opened k n)
  else
    let msg := pingError why (utf8 "система не отвечает")
    ((w.unload s.inst).setSlot k {s.close with lastError := msg}).setCall c (.openFailed k n (msg.take (r.errsz - 1)))

/-- `conn_pool_release`. -/
def World.release (w : World) (c : Nat) (k : Fin maxSlots) (healthy : Bool) (now : Int) : World :=
  let w := (w.setSlot k {w.slots k with leased := false, lastUsed := now}).setCall c .ended
  if (w.slots k).fp = [] then w.slotFree k
  else if healthy then w.setSlot k {w.slots k with lastOk := now, lastError := []}
  else w.slotFree k

/-- `conn_pool_invalidate` at one slot. -/
def World.invalidateSlot (connId : Bytes) (w : World) (k : Fin maxSlots) : World :=
  let s := w.slots k
  if s.used = false ∨ s.connId ≠ connId then w
  else if s.leased then w.setSlot k {s with fp := []}
  else w.slotFree k

/-- `conn_pool_invalidate`. -/
def World.invalidate (w : World) (connId : Bytes) : World :=
  if connId = [] then w else (List.finRange maxSlots).foldl (World.invalidateSlot connId) w

/-- `conn_pool_tick` at one slot, up to the ping. -/
def World.look (w : World) (c : Nat) (t : Int) (i : Nat) : World :=
  if h : i < maxSlots then
    let s := w.slots ⟨i,h⟩
    match s.inst with
    | none => w.setCall c (.ticking t (i + 1))
    | some n =>
      if s.used = false ∨ s.leased ∨ t - s.lastUsed < w.idlePingSec then w.setCall c (.ticking t (i + 1))
      else (w.setSlot ⟨i,h⟩ {s with leased := true}).setCall c (.pinging t ⟨i,h⟩ n)
  else w.setCall c .ended

/-- `conn_pool_tick` at one slot, after the ping. -/
def World.pinged (w : World) (c : Nat) (t : Int) (k : Fin maxSlots) (ok : Bool) (why : Option Bytes) (now : Int) : World :=
  let w := (w.setSlot k {w.slots k with leased := false}).setCall c (.ticking t (k + 1))
  if ok then w.setSlot k {w.slots k with lastOk := now, lastUsed := now, lastError := []}
  else
    let w := w.slotClose k
    w.setSlot k {w.slots k with lastError := pingError why (utf8 "сессия не отвечает"), lastUsed := now}

inductive Act
  | acquire (c : Nat) (r : Request)
  | enter (c : Nat) (now : Int)
  | load (c : Nat) (outcome : LoadOutcome)
  | name (c : Nat) (now : Int)
  | verified (c : Nat) (ok : Bool) (why : Option Bytes)
  | relock (c : Nat)
  | release (c : Nat) (healthy : Bool) (now : Int)
  | invalidate (connId : Bytes)
  | tick (c : Nat) (t : Int)
  | look (c : Nat)
  | pinged (c : Nat) (ok : Bool) (why : Option Bytes) (now : Int)
  deriving DecidableEq, Repr

/-- A step of one of the calls. Each call has a number of its own, and so has its lease. -/
def step (w : World) : Act → Option World
  | .acquire c r => match w.calls c with
    | .idle =>
      if r.connId = [] then
        some (w.setCall c (.failed ((utf8 "conn_pool: не задан идентификатор подключения").take (r.errsz - 1))))
      else some (w.setCall c (.acquiring r))
    | _ => none
  | .enter c now => match w.calls c with
    | .acquiring r => some (w.enter c r now)
    | _ => none
  | .load c outcome => match w.calls c with
    | .loading k n r => some (w.load c k n r outcome)
    | _ => none
  | .name c now => match w.calls c with
    | .naming k n r loaded => some (w.name c k n r loaded now)
    | _ => none
  | .verified c ok why => match w.calls c with
    | .verifying k n r => some (w.verified c k n r ok why)
    | _ => none
  | .relock c => match w.calls c with
    | .opened k n => some ((w.setSlot k {w.slots k with opening := false}).setCall c (.holding k n))
    | .openFailed k _ err => some ((w.setSlot k {w.slots k with opening := false, leased := false}).setCall c (.failed err))
    | _ => none
  | .release c healthy now => match w.calls c with
    | .holding k _ => some (w.release c k healthy now)
    | _ => none
  | .invalidate connId => some (w.invalidate connId)
  | .tick c t => match w.calls c with
    | .idle => some (w.setCall c (.ticking t 0))
    | _ => none
  | .look c => match w.calls c with
    | .ticking t i => some (w.look c t i)
    | _ => none
  | .pinged c ok why now => match w.calls c with
    | .pinging t k _ => some (w.pinged c t k ok why now)
    | _ => none

end Napastak.ConnPool
