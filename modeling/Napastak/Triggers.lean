import Napastak.CStr
import Mathlib.Logic.Function.Basic

/-! The scheduler and the requests that start pipelines: `scheduler.c` with the handlers of a manual run and of a
webhook, and the worker that takes up a queued run. A step is what a thread does under the mutex or between two uses of
it; a pointer into the array of pipelines is the number of its slot. -/
namespace Napastak.Triggers

inductive RunStatus
  | pending | running | success | failed | cancelled
  deriving DecidableEq, Repr

/-- A webhook trigger. -/
structure Hook where
  token : Bytes
  method : Bytes
  deriving DecidableEq, Repr

/-- `cron` is what `pipeline_active_cron` returns. -/
structure Pipeline where
  id : Bytes
  enabled : Bool
  cron : Option Bytes
  hooks : List Hook
  nextRun : Int
  status : RunStatus
  deriving DecidableEq, Repr

/-- The capacity of the array. -/
def maxPipelines : Nat := 256

/-- Where a request stands, with the pipeline it names; a run that is queued goes on with its own copy. A webhook
names the pipeline its token was found at. -/
inductive Call
  | idle
  | found (i : Nat) (id : Bytes)
  | tested (i : Nat) (id : Bytes)
  | marked (i : Nat) (id : Bytes)
  | inline (i : Nat) (id : Bytes) (finishes : Bool)
  | ran (i : Nat) (id : Bytes)
  | finishing (id dest : Bytes) (status : RunStatus)
  | queued (id : Bytes) (p : Pipeline)
  | working (id : Bytes) (p : Pipeline)
  | worked (id : Bytes) (p : Pipeline)
  | ended (id : Bytes) (accepted : Bool)
  | hookFound (i : Nat) (id token : Bytes)
  | hookTested (i : Nat) (id : Bytes)
  | hookRunning (i : Nat) (id : Bytes)
  | hookRan (i : Nat) (id : Bytes)
  | hookAgain (i : Nat) (id : Bytes)
  | hookEnded (id : Bytes) (accepted : Bool)
  deriving DecidableEq, Repr

/-- Where a pass of `sched_loop` stands. -/
inductive Tick
  | idle
  | looking (i : Nat) (now : Int)
  | passed (i : Nat) (now : Int)
  | running (i : Nat) (now : Int)
  deriving DecidableEq, Repr

/-- Who holds the mutex. -/
inductive Holder
  | tick | hook (c : Nat)
  deriving DecidableEq, Repr

/-- `begun` has the pipelines whose execution each request has begun. Slots from `n` on keep what stood in them. -/
structure World where
  slots : Nat → Pipeline
  n : Nat
  mu : Option Holder
  tick : Tick
  calls : Nat → Call
  begun : Nat → List Bytes

def World.start (slots : Nat → Pipeline) (n : Nat) : World := ⟨slots,n,none,.idle,fun _ => .idle,fun _ => []⟩

def World.setCall (w : World) (c : Nat) (x : Call) : World := {w with calls := Function.update w.calls c x}

def World.setSlot (w : World) (i : Nat) (p : Pipeline) : World := {w with slots := Function.update w.slots i p}

def World.setStatus (w : World) (i : Nat) (s : RunStatus) : World := w.setSlot i {w.slots i with status := s}

/-- `pipeline_execute_steps` begins. -/
def World.beginRun (w : World) (c : Nat) (id : Bytes) : World := {w with begun := Function.update w.begun c (w.begun c ++ [id])}

/-- The status at the end of an execution. -/
def result (ok : Bool) : RunStatus := if ok then .success else .failed

/-- The first slot below `n` for which `f` holds. -/
def World.first (w : World) (f : Pipeline → Bool) : Option Nat := (List.range w.n).find? fun i => f (w.slots i)

/-- `scheduler_find`. -/
def World.schedulerFind (w : World) (id : Bytes) : Option Nat := w.first fun p => p.id = id

/-- `scheduler_find_by_webhook_token`. -/
def World.schedulerFindByWebhookToken (w : World) (token : Bytes) : Option Nat :=
  if token = [] then none else w.first fun p => p.enabled && p.hooks.any fun h => h.token = token

/-- `scheduler_add`. -/
def World.schedulerAdd (w : World) (p : Pipeline) : World :=
  if w.n < maxPipelines then {w.setSlot w.n p with n := w.n + 1} else w

/-- `scheduler_remove`: the last pipeline goes to the free place. -/
def World.schedulerRemove (w : World) (id : Bytes) : World :=
  match w.schedulerFind id with
  | some i => {w.setSlot i (w.slots (w.n - 1)) with n := w.n - 1}
  | none => w

/-- `scheduler_finish_run`. -/
def World.schedulerFinishRun (w : World) (id : Bytes) (s : RunStatus) : World :=
  match w.schedulerFind id with
  | some i => w.setStatus i s
  | none => w

/-- The method a webhook asks for. -/
def wantMethod (p : Pipeline) (token : Bytes) : Bytes :=
  match p.hooks.find? fun h => h.token = token with
  | some h => if h.method ≠ [] then h.method else ascii "POST"
  | none => ascii "POST"

inductive Act
  | find (c : Nat) (id : Bytes)
  | test (c : Nat)
  | mark (c : Nat)
  | queue (c : Nat)
  | inline (c : Nat) (finishes : Bool)
  | inlineEnd (c : Nat) (ok : Bool)
  | args (c : Nat)
  | finish (c : Nat)
  | take (c : Nat)
  | workEnd (c : Nat) (ok : Bool)
  | workFinish (c : Nat)
  | hookFind (c : Nat) (token : Bytes)
  | hookTest (c : Nat) (method : Bytes)
  | hookRun (c : Nat)
  | hookRunEnd (c : Nat) (ok : Bool)
  | hookAgain (c : Nat)
  | hookAgainEnd (c : Nat) (ok : Bool)
  | tick (now : Int)
  | tickTest
  | tickMark
  | tickEnd (ok : Bool)
  | add (p : Pipeline)
  | remove (id : Bytes)
  deriving DecidableEq, Repr

section
variable (cronNext : Bytes → Int → Int)

/-- The turn of `sched_loop` at one slot, up to the test of the flag. -/
def World.look (w : World) (i : Nat) (now : Int) : World :=
  if i < w.n then
    let p := w.slots i
    match p.cron with
    | none => {w with tick := .looking (i + 1) now}
    | some cron =>
      if p.enabled = false then {w with tick := .looking (i + 1) now}
      else
        let p := if p.nextRun = 0 then {p with nextRun := cronNext cron now} else p
        {w.setSlot i p with
          tick := if 0 < p.nextRun ∧ p.nextRun ≤ now ∧ p.status ≠ .running then .passed i now else .looking (i + 1) now}
  else {w with tick := .idle, mu := none}

/-- The next run of a pipeline that is started. -/
def Pipeline.started (p : Pipeline) (now : Int) : Pipeline :=
  {p with
    status := .running
    nextRun := if p.cron = some (ascii "@reboot") then 2 ^ 63 - 1 else match p.cron with
      | some cron => cronNext cron now
      | none => p.nextRun}

/-- A step of a thread; those that take the mutex find it free. -/
def step (w : World) : Act → Option World
  | .find c id => match w.calls c, w.mu with
    | .idle, none => some (w.setCall c (match w.schedulerFind id with
      | some i => .found i id
      | none => .ended id false))
    | _, _ => none
  | .test c => match w.calls c with
    | .found i id => some (w.setCall c (if (w.slots i).status = .running then .ended id false else .tested i id))
    | _ => none
  | .mark c => match w.calls c with
    | .tested i id => some ((w.setStatus i .running).setCall c (.marked i id))
    | _ => none
  | .queue c => match w.calls c with
    | .marked i id => some (w.setCall c (.queued id (w.slots i)))
    | _ => none
  | .inline c finishes => match w.calls c with
    | .marked i id => some ((w.beginRun c (w.slots i).id).setCall c (.inline i id finishes))
    | _ => none
  | .inlineEnd c ok => match w.calls c with
    | .inline i id finishes => some ((w.setStatus i (result ok)).setCall c (if finishes then .ran i id else .ended id true))
    | _ => none
  | .args c => match w.calls c with
    | .ran i id => some (w.setCall c (.finishing id (w.slots i).id (w.slots i).status))
    | _ => none
  | .finish c => match w.calls c, w.mu with
    | .finishing id dest s, none => some ((w.schedulerFinishRun dest s).setCall c (.ended id true))
    | _, _ => none
  | .take c => match w.calls c with
    | .queued id p => some ((w.beginRun c p.id).setCall c (.working id p))
    | _ => none
  | .workEnd c ok => match w.calls c with
    | .working id p => some (w.setCall c (.worked id {p with status := result ok}))
    | _ => none
  | .workFinish c => match w.calls c, w.mu with
    | .worked id p, none => some ((w.schedulerFinishRun p.id p.status).setCall c (.ended id true))
    | _, _ => none
  | .hookFind c token => match w.calls c, w.mu with
    | .idle, none => some (w.setCall c (match w.schedulerFindByWebhookToken token with
      | some i => .hookFound i (w.slots i).id token
      | none => .hookEnded [] false))
    | _, _ => none
  | .hookTest c method => match w.calls c with
    | .hookFound i id token => some (w.setCall c (
      if strcasecmp method (wantMethod (w.slots i) token) ≠ 0 ∨ (w.slots i).status = .running then .hookEnded id false
      else .hookTested i id))
    | _ => none
  | .hookRun c => match w.calls c, w.mu with
    | .hookTested i id, none =>
      some {((w.setStatus i .running).beginRun c (w.slots i).id).setCall c (.hookRunning i id) with mu := some (.hook c)}
    | _, _ => none
  | .hookRunEnd c ok => match w.calls c with
    | .hookRunning i id => some {(w.setStatus i (result ok)).setCall c (.hookRan i id) with mu := none}
    | _ => none
  | .hookAgain c => match w.calls c with
    | .hookRan i id => some ((w.beginRun c (w.slots i).id).setCall c (.hookAgain i id))
    | _ => none
  | .hookAgainEnd c ok => match w.calls c with
    | .hookAgain i id => some ((w.setStatus i (result ok)).setCall c (.hookEnded id true))
    | _ => none
  | .tick now => match w.tick, w.mu with
    | .idle, none => some {w with tick := .looking 0 now, mu := some .tick}
    | _, _ => none
  | .tickTest => match w.tick with
    | .looking i now => some (w.look cronNext i now)
    | _ => none
  | .tickMark => match w.tick with
    | .passed i now => some {w.setSlot i ((w.slots i).started cronNext now) with tick := .running i now}
    | _ => none
  | .tickEnd ok => match w.tick with
    | .running i now => some {w.setStatus i (result ok) with tick := .looking (i + 1) now}
    | _ => none
  | .add p => match w.mu with
    | none => some (w.schedulerAdd p)
    | _ => none
  | .remove id => match w.mu with
    | none => some (w.schedulerRemove id)
    | _ => none

end

/-! ### What is meant -/

/-- Whoever may run a pipeline: the loop, or a request. -/
abbrev Runner := Option Nat

/-- A run of the pipeline, from its mark to the end of the request or of the worker. -/
def InProgress (pid : Bytes) (w : World) : Runner → Prop
  | none => match w.tick with
    | .running i _ => (w.slots i).id = pid
    | _ => False
  | some c => match w.calls c with
    | .marked i _ | .inline i _ _ | .ran i _ | .hookRunning i _ | .hookRan i _ | .hookAgain i _ => (w.slots i).id = pid
    | .finishing _ dest _ => dest = pid
    | .queued _ p | .working _ p | .worked _ p => p.id = pid
    | _ => False

/-- The request named the pipeline and was answered as accepted. -/
def Accepted (pid : Bytes) (w : World) (c : Nat) : Prop :=
  match w.calls c with
  | .queued id _ | .working id _ | .worked id _ | .ended id true | .hookEnded id true => id = pid
  | _ => False

def Call.name : Call → Option Bytes
  | .idle => none
  | .found _ id | .tested _ id | .marked _ id | .inline _ id _ | .ran _ id | .finishing id _ _ | .queued id _ | .working id _
  | .worked id _ | .ended id _ | .hookFound _ id _ | .hookTested _ id | .hookRunning _ id | .hookRan _ id | .hookAgain _ id
  | .hookEnded id _ => some id

/-- One run at a time; an accepted request waits for a worker or has begun one execution, of the pipeline it named;
only requests that named the pipeline have begun executions of it; without a run the flag is clear. -/
structure Kept (pid : Bytes) (w : World) : Prop where
  alone : ∀ e e', InProgress pid w e → InProgress pid w e' → e = e'
  once : ∀ c, Accepted pid w c → (∃ p, w.calls c = .queued pid p) ∧ w.begun c = [] ∨ w.begun c = [pid]
  own : ∀ c, pid ∈ w.begun c → (w.calls c).name = some pid
  clear : (∀ e, ¬ InProgress pid w e) → ∀ j < w.n, (w.slots j).id = pid → (w.slots j).status ≠ .running

end Napastak.Triggers
