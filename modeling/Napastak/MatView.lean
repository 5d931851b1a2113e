import Napastak.Cron
import Napastak.Jwt
import Napastak.Lib.Replay

/-! `matview.c`: definitions of views with a stale flag, the queue of views to refresh after a write, and the tick.
Callers, the ticker and the materialising of a view run as threads whose steps are the sections under one lock,
the read of the sources and the write of the result. A table is known by the number of writes to it. -/
namespace Napastak.Mvs
open Auth (strstr)
open Cron (atoi)

inductive MvRefreshMode
  | manual | onWrite | schedule
  deriving DecidableEq, Repr

/-- A row of `matviews`. -/
structure MatView where
  name : Bytes
  definitionSql : Bytes
  sourceTables : List Bytes
  refreshMode : MvRefreshMode
  refreshCron : Bytes
  lastRefreshed : Int
  isStale : Bool
  deriving DecidableEq, Repr

/-- The column `source_tables`. -/
def srcsJson (tables : List Bytes) : Bytes :=
  ascii "[" ++ (ascii ",").intercalate (tables.map fun t => ascii "\"" ++ t ++ ascii "\"") ++ ascii "]"

/-- The table `matviews`, with `name` as its key. -/
structure Matviews where
  rows : List MatView
  keyed : (rows.map MatView.name).Nodup

def Matviews.find (m : Matviews) (name : Bytes) : Option MatView := m.rows.find? fun v => decide (v.name = name)

def Matviews.delete (m : Matviews) (name : Bytes) : Matviews where
  rows := m.rows.filter fun v => decide (v.name ≠ name)
  keyed := m.keyed.sublist (List.filter_sublist.map _)

/-- What an update makes of a row: its name stays. -/
structure Update where
  apply : MatView → MatView
  sameName : ∀ v, (apply v).name = v.name

def Matviews.update (m : Matviews) (name : Bytes) (u : Update) : Matviews where
  rows := m.rows.map fun v => if v.name = name then u.apply v else v
  keyed := by
    have same : MatView.name ∘ (fun v => if v.name = name then u.apply v else v) = MatView.name := by
      funext v
      by_cases is : v.name = name
      · exact (congrArg _ (if_pos is)).trans (u.sameName v)
      · exact congrArg _ (if_neg is)
    rw [List.map_map,same]
    exact m.keyed

def Matviews.insert (m : Matviews) (v : MatView) (new : v.name ∉ m.rows.map MatView.name) : Matviews where
  rows := m.rows ++ [v]
  keyed := by
    rw [List.map_append,List.nodup_append]
    exact ⟨m.keyed,List.nodup_singleton _,fun a mem b own same => new (by
      rw [List.map_singleton,List.mem_singleton] at own; rwa [← own,← same])⟩

def redefine (mv : MatView) : Update where
  apply v := {mv with name := v.name, lastRefreshed := v.lastRefreshed, isStale := true}
  sameName _ := rfl

def setStale : Update where
  apply v := {v with isStale := true}
  sameName _ := rfl

def recordOutcome (ok : Bool) (now : Int) : Update where
  apply v := {v with isStale := !ok, lastRefreshed := now}
  sameName _ := rfl

/-- `mvs_create_view`. `none` is a list of sources that does not fit `srcs_json`. -/
def mvsCreateView (m : Matviews) (mv : MatView) : Option Matviews :=
  if mv.name = [] ∨ mv.definitionSql = [] then some m
  else if 2048 ≤ (srcsJson mv.sourceTables).length then none
  else if known : mv.name ∈ m.rows.map MatView.name then some (m.update mv.name (redefine mv))
  else some (m.insert {mv with lastRefreshed := 0, isStale := true} known)

/-- A write to the table concerns the view. -/
def MatView.uses (v : MatView) (table : Bytes) : Bool := (strstr (srcsJson v.sourceTables) table).isSome

/-- The size of `to_invalidate`, `to_refresh`, `pending_refresh` and `sched_names`. -/
def maxNames : Nat := 64

def toInvalidate (m : Matviews) (table : Bytes) : List Bytes :=
  ((m.rows.filter fun v => !v.isStale && v.uses table).take maxNames).map MatView.name

def getText (name : Bytes) : Bytes :=
  ascii "SELECT name,definition_sql,source_tables,refresh_mode,refresh_cron," ++
    ascii "last_refreshed,is_stale,row_count,refresh_duration_ms,last_error FROM matviews WHERE name='" ++ name ++ ascii "';"

def mvGetSql (name : Bytes) : Bytes := (getText name).take 255

/-- What sqlite gives for a `SELECT` text over the rows of `matviews`. -/
abbrev Select := List MatView → Bytes → Option MatView

def wanted : Option MatView → List Bytes
  | none => []
  | some v => if v.refreshMode = .onWrite then [v.name] else []

/-- Sets the flags one by one and collects `to_refresh`. -/
def invalidate (select : Select) (m : Matviews) : List Bytes → Matviews × List Bytes
  | [] => (m,[])
  | name :: names =>
    let m' := m.update name setStale
    let (last,toRefresh) := invalidate select m' names
    (last,wanted (select m'.rows (mvGetSql name)) ++ toRefresh)

def enqueue (pending : List Bytes) : List Bytes → List Bytes
  | [] => pending
  | name :: names =>
    if pending.length < maxNames then enqueue (if name ∈ pending then pending else pending ++ [name]) names else pending

/-- The period of a view has elapsed since its last refresh. -/
def MatView.due (v : MatView) (now : Int) : Bool :=
  decide (v.refreshMode = .schedule) && decide (0 < atoi v.refreshCron) && decide (atoi v.refreshCron ≤ now - v.lastRefreshed)

def schedNames (m : Matviews) (now : Int) : List Bytes :=
  ((m.rows.filter fun v => !v.isStale && v.due now).take maxNames).map MatView.name

/-- Where a caller stands. `mark` and `enqueue` are the two halves of `mvs_invalidate` after the given write of a
table, on behalf of a refresh or not. -/
inductive Thread
  | done
  | read (name sql : Bytes)
  | store (name sql : Bytes) (sources : Bytes → Nat)
  | mark (table : Bytes) (write : Nat) (refresh : Option Bytes)
  | enqueue (table : Bytes) (write : Nat) (toRefresh : List Bytes) (refresh : Option Bytes)
  | record (name : Bytes) (ok : Bool)

def Thread.resume : Option Bytes → Thread
  | none => .done
  | some name => .record name true

/-- `mvs_refresh` up to its first unlocked step. -/
def mvsRefresh (m : Matviews) (name : Bytes) : Thread :=
  match m.find name with
  | none => .done
  | some v => .read name v.definitionSql

inductive TickLoop
  | onWrite | schedule
  deriving DecidableEq, Repr

/-- The store, the tables and the threads, of which the first is the ticker with the names it has yet to refresh.
Then, for the record: up to which write of a table the flags are set and `mvs_invalidate` is over, the views that a
write has made stale with no successful refresh since, and the views that were due and passed over by a tick. -/
structure World where
  views : Matviews
  pending : List Bytes
  version : Bytes → Nat
  content : Bytes → Option (Bytes × (Bytes → Nat))
  threads : List Thread
  tick : TickLoop
  names : List Bytes
  marked : Bytes → Nat
  completed : Bytes → Nat
  outdated : List Bytes
  missed : List Bytes

inductive Act
  | createView (mv : MatView)
  | dropView (name : Bytes)
  | write (table : Bytes)
  | refresh (name : Bytes)
  | advance (i : Nat) (ok : Bool) (now : Int)
  | tickPending
  | tickNext
  | tickSchedule (now : Int)

/-- The next step of a thread; `ok` says whether the SQL of a view runs and its table is written. -/
def advance (select : Select) (w : World) (ok : Bool) (now : Int) : Thread → World × Thread
  | .done => (w,.done)
  | .read name sql => (w,if ok then .store name sql w.version else .record name false)
  | .store name sql sources =>
    if ok then
      ({w with
        version := Function.update w.version name (w.version name + 1)
        content := Function.update w.content name (some (sql,sources))},
       .mark name (w.version name + 1) (some name))
    else ({w with content := Function.update w.content name none},.record name false)
  | .mark table write refresh =>
    let stale := w.views.rows.filter fun v => !v.isStale && v.uses table
    ({w with
      views := (invalidate select w.views (toInvalidate w.views table)).1
      marked := Function.update w.marked table (max (w.marked table) write)
      outdated := w.outdated ++ (stale.filter fun v => decide (v.refreshMode = .onWrite)).map MatView.name},
     .enqueue table write (invalidate select w.views (toInvalidate w.views table)).2 refresh)
  | .enqueue table write toRefresh refresh =>
    ({w with
      pending := enqueue w.pending toRefresh
      completed := Function.update w.completed table (max (w.completed table) write)},
     .resume refresh)
  | .record name ok' =>
    ({w with
      views := w.views.update name (recordOutcome ok' now)
      outdated := if ok' then w.outdated.filter fun n => decide (n ≠ name) else w.outdated},
     .done)

/-- One step of the system. The ticker takes its next name when the refresh before is over. -/
def step (select : Select) (w : World) : Act → Option World
  | .createView mv => (mvsCreateView w.views mv).map fun views => {w with views := views}
  | .dropView name =>
    some {w with views := w.views.delete name, outdated := w.outdated.filter fun n => decide (n ≠ name)}
  | .write table => some {w with
      version := Function.update w.version table (w.version table + 1)
      content := Function.update w.content table none
      threads := w.threads ++ [.mark table (w.version table + 1) none]}
  | .refresh name => some {w with threads := w.threads ++ [mvsRefresh w.views name]}
  | .advance i ok now =>
    w.threads[i]?.map fun th =>
      let (w',th') := advance select w ok now th
      {w' with threads := w.threads.set i th'}
  | .tickPending => match w.tick, w.names, w.threads with
    | .schedule,[],.done :: _ => some {w with tick := .onWrite, names := w.pending, pending := []}
    | _,_,_ => none
  | .tickNext => match w.names, w.threads with
    | name :: names,.done :: rest => some {w with names := names, threads := mvsRefresh w.views name :: rest}
    | _,_ => none
  | .tickSchedule now => match w.tick, w.names, w.threads with
    | .onWrite,[],.done :: _ => some {w with
        tick := .schedule
        names := schedNames w.views now
        missed := w.missed ++
          ((w.views.rows.filter fun v => v.due now).map MatView.name).filter fun n => decide (n ∉ schedNames w.views now)}
    | _,_,_ => none

def start : World where
  views := ⟨[],List.nodup_nil⟩
  pending := []
  version _ := 0
  content _ := none
  threads := [ .done]
  tick := .schedule
  names := []
  marked _ := 0
  completed _ := 0
  outdated := []
  missed := []

end Napastak.Mvs
