import Napastak.Lib.Replay

/-! The pool of threads, `threadpool.c`. A step is one critical section of a thread, or what it does between two; a
task is the number of the call that hands it in. -/
namespace Napastak.ThreadPool

/-- A worker before its critical section, in the wait for work, in a task, behind it, or gone. -/
inductive Worker
  | ready
  | sleeping
  | running (t : Nat)
  | returned (t : Nat)
  | left
  deriving DecidableEq, Repr

/-- A call of `tp_submit` or of `tp_wait`: before its critical section, waiting in it, or behind it. -/
inductive Call
  | adding
  | full
  | added
  | checking
  | busy
  | waited
  deriving DecidableEq, Repr

/-- The call of `tp_destroy`. -/
inductive Owner
  | idle
  | joining
  | destroyed
  deriving DecidableEq, Repr

def Worker.active : Worker → Bool
  | .running _ | .returned _ => true
  | _ => false

def Worker.woken : Worker → Worker
  | .sleeping => .ready
  | k => k

def Call.blocked : Call → Bool
  | .full | .busy => true
  | _ => false

def Call.woken : Call → Call
  | .full => .adding
  | .busy => .checking
  | x => x

/-- `submitted`, `started` and `ended` have the tasks in the order in which that came to pass. -/
structure Pool where
  workers : List Worker
  queue : List Nat
  queueSize : Nat
  active : Nat
  shutdown : Bool
  calls : List Call
  owner : Owner
  submitted : List Nat
  started : List Nat
  ended : List Nat
  deriving DecidableEq, Repr

/-- `tp_create`. -/
def tpCreate (n : Nat) : Pool := ⟨List.replicate n .ready,[],0,0,false,[],.idle,[],[],[]⟩

/-- `pthread_cond_signal` on `cond_work`: one of those that wait, if there are any. -/
def Pool.signalWork (p : Pool) : Option Nat → Option Pool
  | some w => if p.workers[w]? = some .sleeping then some {p with workers := p.workers.set w .ready} else none
  | none => if p.workers.contains .sleeping then none else some p

/-- `pthread_cond_signal` on `cond_idle`. -/
def Pool.signalIdle (p : Pool) : Option Nat → Option Pool
  | some c => match p.calls[c]? with
    | some x => if x.blocked then some {p with calls := p.calls.set c x.woken} else none
    | none => none
  | none => if p.calls.any Call.blocked then none else some p

def Pool.broadcastWork (p : Pool) : Pool := {p with workers := p.workers.map Worker.woken}

def Pool.broadcastIdle (p : Pool) : Pool := {p with calls := p.calls.map Call.woken}

/-- A wait may end without a signal. -/
inductive Act
  | submit
  | wait
  | destroy
  | work (w : Nat) (signal : Option Nat)
  | run (w : Nat)
  | finish (w : Nat)
  | add (c : Nat) (signal : Option Nat)
  | check (c : Nat)
  | joined
  | wakeWorker (w : Nat)
  | wakeCall (c : Nat)
  deriving DecidableEq, Repr

section
variable (queueMax : Nat)

/-- `tp_destroy` is the last call: none begins behind it. -/
def step (p : Pool) : Act → Option Pool
  | .submit => if p.owner = .idle then some {p with calls := p.calls ++ [.adding]} else none
  | .wait => if p.owner = .idle then some {p with calls := p.calls ++ [.checking]} else none
  | .destroy => if p.owner = .idle then some {p with shutdown := true, owner := .joining}.broadcastWork else none
  | .work w signal => match p.workers[w]? with
    | some .ready => match p.queue with
      | [] => if signal = none then some {p with workers := p.workers.set w (if p.shutdown then .left else .sleeping)} else none
      | t :: rest => {p with
          workers := p.workers.set w (.running t)
          queue := rest
          queueSize := p.queueSize - 1
          active := p.active + 1
          started := p.started ++ [t]}.signalIdle signal
    | _ => none
  | .run w => match p.workers[w]? with
    | some (.running t) => some {p with workers := p.workers.set w (.returned t), ended := p.ended ++ [t]}
    | _ => none
  | .finish w => match p.workers[w]? with
    | some (.returned _) =>
      let p := {p with workers := p.workers.set w .ready, active := p.active - 1}
      some (if p.active = 0 ∧ p.queue = [] then p.broadcastIdle else p)
    | _ => none
  | .add c signal => match p.calls[c]? with
    | some .adding =>
      if queueMax ≤ p.queueSize ∧ p.shutdown = false then
        if signal = none then some {p with calls := p.calls.set c .full} else none
      else {p with
          calls := p.calls.set c .added
          queue := p.queue ++ [c]
          queueSize := p.queueSize + 1
          submitted := p.submitted ++ [c]}.signalWork signal
    | _ => none
  | .check c => match p.calls[c]? with
    | some .checking => some {p with calls := p.calls.set c (if p.active ≠ 0 ∨ p.queue ≠ [] then .busy else .waited)}
    | _ => none
  | .joined => if p.owner = .joining ∧ ∀ k ∈ p.workers, k = .left then some {p with owner := .destroyed} else none
  | .wakeWorker w => if p.workers[w]? = some .sleeping then some {p with workers := p.workers.set w .ready} else none
  | .wakeCall c => match p.calls[c]? with
    | some x => if x.blocked then some {p with calls := p.calls.set c x.woken} else none
    | none => none

/-! ### What is meant -/

/-- A step that a thread of the pool or of a call in progress takes by itself. -/
def Act.proceeds : Act → Bool
  | .work _ _ | .run _ | .finish _ | .add _ _ | .check _ | .joined => true
  | _ => false

/-- Tasks are started once and in the order in which they were handed in; `tp_wait` returns when there is none,
`tp_destroy` when all have ended; as long as a task is queued or a call waits some thread goes on. -/
structure Kept (p : Pool) : Prop where
  limit : p.shutdown = false → p.queue.length ≤ queueMax
  order : p.started <+: p.submitted ∧ p.submitted.Nodup
  waits : ∀ c p', step queueMax p (.check c) = some p' → p'.calls[c]? = some .waited → p.queue = [] ∧ ∀ k ∈ p.workers, k.active = false
  destroys : p.owner = .destroyed → p.started = p.submitted ∧ ∀ t ∈ p.submitted, t ∈ p.ended
  moves : p.queue ≠ [] ∨ (∃ x ∈ p.calls, x.blocked = true) ∨ p.owner = .joining → ∃ a, a.proceeds = true ∧ (step queueMax p a).isSome

end

end Napastak.ThreadPool
