import Napastak.CStr
import Napastak.Lib.Replay

/-! Pipelines that start when a file arrives, `file_watcher.c`. -/
namespace Napastak.FileWatcher
open Replay (run along runInvariant)

structure Trigger where
  fileArrival : Bool
  watchDir : Bytes
  filePattern : Bytes
  deriving DecidableEq, Repr

structure Pipeline where
  id : Bytes
  enabled : Bool
  triggers : List Trigger
  deriving DecidableEq, Repr

structure FwEntry where
  wd : Int
  pipelineId : Bytes
  pattern : Bytes
  dir : Bytes
  deriving DecidableEq, Repr

def maxWatches : Nat := 64

/-- What stands for an empty pattern. -/
def Trigger.glob (t : Trigger) : Bytes := if t.filePattern ≠ [] then t.filePattern else ascii "*"

def collectTrigger (p : Pipeline) (es : List FwEntry) (t : Trigger) : List FwEntry :=
  if es.length < maxWatches ∧ t.fileArrival = true ∧ t.watchDir ≠ [] then es ++ [⟨-1,p.id,t.glob,t.watchDir⟩] else es

def collectTriggers (ps : List Pipeline) : List FwEntry :=
  ps.foldl (fun es p => p.triggers.foldl (collectTrigger p) es) []

/-- An event that inotify hands out; the name is missing for what befalls the directory itself. -/
structure Event where
  wd : Int
  name : Option Bytes
  deriving DecidableEq, Repr

/-- What `read` comes back with: events, `EINTR`, `EAGAIN` where none is pending, another end. -/
inductive Read
  | events (evs : List Event)
  | interrupted
  | again
  | closed
  deriving DecidableEq, Repr

/-- `log` has the events that were read, with the pipelines that were asked to run, by their places. -/
structure Watcher where
  entries : List FwEntry
  running : Bool
  looping : Bool
  log : List (Event × List Nat)
  deriving DecidableEq, Repr

section
variable (fnmatch : Bytes → Bytes → Bool) (watch : Bytes → Int)

/-- The table with the descriptors of `inotify_add_watch`; directories that cannot be watched are left out. -/
def addWatches (es : List FwEntry) : List FwEntry :=
  es.filterMap fun e => if watch e.dir < 0 then none else some {e with wd := watch e.dir}

/-- `file_watcher_create`. -/
def fileWatcherCreate (ps : List Pipeline) : Option Watcher :=
  match collectTriggers ps with
  | [] => none
  | es => match addWatches watch es with
    | [] => none
    | entries => some ⟨entries,true,true,[]⟩

/-- `scheduler_find`. -/
def schedulerFind (ps : List Pipeline) (id : Bytes) : Option Nat := ps.findIdx? fun p => p.id = id

/-- `find_by_wd`. -/
def findByWd (es : List FwEntry) (wd : Int) : Option FwEntry := es.find? fun e => e.wd = wd

/-- The turn of the loop for one event. -/
def handle (ps : List Pipeline) (es : List FwEntry) (ev : Event) : List Nat :=
  match ev.name with
  | none => []
  | some name => match findByWd es ev.wd with
    | none => []
    | some e =>
      if fnmatch e.pattern name = false then []
      else match schedulerFind ps e.pipelineId with
        | none => []
        | some i => if (ps[i]?.map Pipeline.enabled).getD false then [i] else []

inductive Act
  | read (r : Read)
  | destroy
  deriving DecidableEq, Repr

/-- A turn of `watcher_loop`, or `file_watcher_destroy`. -/
def step (ps : List Pipeline) (w : Watcher) : Act → Option Watcher
  | .read r =>
    if w.looping = false then none
    else match r with
      | .events evs => some {w with log := w.log ++ evs.map fun ev => (ev,handle fnmatch ps w.entries ev), looping := w.running}
      | .interrupted => some {w with looping := w.running}
      | .again => some {w with looping := false}
      | .closed => some {w with looping := false}
  | .destroy => some {w with running := false}

/-! ### What is meant -/

/-- An event is meant for a pipeline that is enabled and has a trigger for the directory and the name. -/
def Meant (ps : List Pipeline) (ev : Event) (i : Nat) : Prop :=
  ∃ name p t, ev.name = some name ∧ ps[i]? = some p ∧ p.enabled = true ∧ t ∈ p.triggers ∧ t.fileArrival = true ∧ t.watchDir ≠ [] ∧
    0 ≤ ev.wd ∧ watch t.watchDir = ev.wd ∧ fnmatch t.glob name = true

structure Kept (ps : List Pipeline) (w : Watcher) : Prop where
  delivered : ∀ f ∈ w.log, f.2.Nodup ∧ ∀ i, i ∈ f.2 ↔ Meant fnmatch watch ps f.1 i
  reads : w.running = true → w.looping = true

/-! ### When it holds -/

/-- Until the watcher is destroyed a read brings events or is interrupted; a pipeline for which an event is meant is that of the
table's first entry for the directory, whose pattern matches too. -/
def Clean (ps : List Pipeline) (w : Watcher) : Act → Prop
  | .read (.events evs) => ∀ ev ∈ evs, ∀ i name, ev.name = some name → Meant fnmatch watch ps ev i →
      ∃ e, findByWd w.entries ev.wd = some e ∧ fnmatch e.pattern name = true ∧ ps[i]?.map Pipeline.id = some e.pipelineId
  | .read .again => w.running = false
  | .read .closed => w.running = false
  | _ => True

end

/-- An entry stems from a trigger of the pipeline it names. -/
def Stems (ps : List Pipeline) (e : FwEntry) : Prop :=
  ∃ p ∈ ps, ∃ t ∈ p.triggers, t.fileArrival = true ∧ t.watchDir ≠ [] ∧ e.pipelineId = p.id ∧ e.pattern = t.glob ∧ e.dir = t.watchDir

theorem collectStems {ps : List Pipeline} {p : Pipeline} (own : p ∈ ps) {ts : List Trigger} {es : List FwEntry}
    (before : ∀ e ∈ es, Stems ps e) (part : ∀ t ∈ ts, t ∈ p.triggers) : ∀ e ∈ ts.foldl (collectTrigger p) es, Stems ps e := by
  induction ts generalizing es with
  | nil => exact before
  | cons t ts ih =>
    refine ih (fun e mem => ?_) fun t mem => part t (List.mem_cons_of_mem _ mem)
    rw [collectTrigger] at mem
    split at mem
    · rename_i fits
      rcases List.mem_append.mp mem with was | new
      · exact before e was
      · rw [List.mem_singleton.mp new]
        exact ⟨p,own,t,part t List.mem_cons_self,fits.2.1,fits.2.2,rfl,rfl,rfl⟩
    · exact before e mem

theorem collectedStem (ps : List Pipeline) : ∀ e ∈ collectTriggers ps, Stems ps e := by
  have go : ∀ (qs : List Pipeline) (es : List FwEntry), (∀ p ∈ qs, p ∈ ps) → (∀ e ∈ es, Stems ps e) →
      ∀ e ∈ qs.foldl (fun es p => p.triggers.foldl (collectTrigger p) es) es, Stems ps e := by
    intro qs
    induction qs with
    | nil => exact fun _ _ before => before
    | cons q qs ih =>
      intro es part before
      exact ih _ (fun p mem => part p (List.mem_cons_of_mem _ mem)) (collectStems (part q List.mem_cons_self) before fun _ mem => mem)
  exact go ps [] (fun _ mem => mem) nofun

/-- What the table holds of each entry. -/
def Rooted (watch : Bytes → Int) (ps : List Pipeline) (es : List FwEntry) : Prop :=
  ∀ e ∈ es, Stems ps e ∧ 0 ≤ e.wd ∧ watch e.dir = e.wd

variable {fnmatch : Bytes → Bytes → Bool} {watch : Bytes → Int} {ps : List Pipeline} {w w' : Watcher}

theorem createRooted (made : fileWatcherCreate watch ps = some w) :
    Rooted watch ps w.entries ∧ w.running = true ∧ w.looping = true ∧ w.log = [] := by
  rw [fileWatcherCreate] at made
  split at made
  · cases made
  · split at made
    · cases made
    · cases made
      refine ⟨fun e mem => ?_,rfl,rfl,rfl⟩
      obtain ⟨e',was,is⟩ := List.mem_filterMap.mp mem
      split at is
      · cases is
      · cases is
        exact ⟨collectedStem ps e' was,Int.not_lt.mp ‹_›,rfl⟩

theorem findPlace (distinct : (ps.map Pipeline.id).Nodup) {i : Nat} {p : Pipeline} (at_ : ps[i]? = some p) :
    schedulerFind ps p.id = some i := by
  obtain ⟨less,is⟩ := List.getElem?_eq_some_iff.mp at_
  refine List.findIdx?_eq_some_iff_getElem.mpr ⟨less,by rw [is]; exact decide_eq_true rfl,fun j before same => ?_⟩
  have apart := List.pairwise_iff_getElem.mp distinct j i (by simpa using Nat.lt_trans before less) (by simpa using less) before
  rw [List.getElem_map,List.getElem_map,is] at apart
  exact apart (of_decide_eq_true same)

theorem handleMeant (distinct : (ps.map Pipeline.id).Nodup) (rooted : Rooted watch ps w.entries) {ev : Event} {i : Nat}
    (asked : i ∈ handle fnmatch ps w.entries ev) : Meant fnmatch watch ps ev i := by
  rw [handle] at asked
  split at asked
  · cases asked
  · rename_i name named
    split at asked
    · cases asked
    · rename_i e found
      split at asked
      · cases asked
      · rename_i fits
        obtain ⟨⟨p,own,t,trigger,arrival,dir,id,pattern,there⟩,watched,wd⟩ := rooted e (List.mem_of_find?_eq_some found)
        have same : e.wd = ev.wd := by simpa using List.find?_some found
        obtain ⟨j,at_⟩ := List.mem_iff_getElem?.mp own
        rw [id,findPlace distinct at_] at asked
        simp only [at_] at asked
        split at asked
        · rename_i enabled
          cases List.mem_singleton.mp asked
          refine ⟨name,p,t,named,at_,enabled,trigger,arrival,dir,same ▸ watched,?_,?_⟩
          · rw [← there,wd,same]
          · rw [← pattern]
            exact Bool.not_eq_false _ ▸ fits
        · cases asked

theorem handleNodup (es : List FwEntry) (ev : Event) : (handle fnmatch ps es ev).Nodup := by
  rw [handle]
  repeat' split
  all_goals simp

theorem handleExact (distinct : (ps.map Pipeline.id).Nodup) (rooted : Rooted watch ps w.entries) {ev : Event}
    (first : ∀ i name, ev.name = some name → Meant fnmatch watch ps ev i →
      ∃ e, findByWd w.entries ev.wd = some e ∧ fnmatch e.pattern name = true ∧ ps[i]?.map Pipeline.id = some e.pipelineId) (i : Nat) :
    i ∈ handle fnmatch ps w.entries ev ↔ Meant fnmatch watch ps ev i := by
  refine ⟨handleMeant distinct rooted,fun meant => ?_⟩
  have ⟨name,p,t,named,at_,enabled,_⟩ := meant
  obtain ⟨e,found,fits,id⟩ := first i name named meant
  rw [at_] at id
  have found_ : schedulerFind ps e.pipelineId = some i := Option.some.inj id ▸ findPlace distinct at_
  simp [handle,named,found,fits,found_,at_,enabled]

structure Inv (fnmatch : Bytes → Bytes → Bool) (watch : Bytes → Int) (ps : List Pipeline) (w : Watcher) : Prop
    extends Kept fnmatch watch ps w where
  rooted : Rooted watch ps w.entries

theorem stepInv (distinct : (ps.map Pipeline.id).Nodup) (inv : Inv fnmatch watch ps w) {a : Act} (clean : Clean fnmatch watch ps w a)
    (is : step fnmatch ps w a = some w') : Inv fnmatch watch ps w' := by
  cases a with
  | destroy =>
    cases is
    exact ⟨⟨inv.delivered,nofun⟩,inv.rooted⟩
  | read r =>
    simp only [step] at is
    split at is
    · cases is
    · cases r with
      | events evs =>
        cases is
        refine ⟨⟨fun f mem => ?_,id⟩,inv.rooted⟩
        rcases List.mem_append.mp mem with was | new
        · exact inv.delivered f was
        · obtain ⟨ev,read,rfl⟩ := List.mem_map.mp new
          exact ⟨handleNodup _ _,handleExact distinct inv.rooted (clean ev read)⟩
      | interrupted =>
        cases is
        exact ⟨⟨inv.delivered,id⟩,inv.rooted⟩
      | again =>
        cases is
        exact ⟨⟨inv.delivered,fun on => absurd on (by rw [clean]; nofun)⟩,inv.rooted⟩
      | closed =>
        cases is
        exact ⟨⟨inv.delivered,fun on => absurd on (by rw [clean]; nofun)⟩,inv.rooted⟩

theorem watcherKept (fnmatch : Bytes → Bytes → Bool) (watch : Bytes → Int) {ps : List Pipeline} (distinct : (ps.map Pipeline.id).Nodup)
    {w₀ w : Watcher} {acts : List Act} (made : fileWatcherCreate watch ps = some w₀)
    (clean : along (step fnmatch ps) (Clean fnmatch watch ps) w₀ acts) (reach : run (step fnmatch ps) w₀ acts = some w) :
    Kept fnmatch watch ps w := by
  obtain ⟨rooted,_,looping,log⟩ := createRooted made
  have start : Inv fnmatch watch ps w₀ := ⟨⟨by rw [log]; nofun,fun _ => looping⟩,rooted⟩
  exact (runInvariant (fun _ _ _ inv ok is => stepInv distinct inv ok is) start clean reach).toKept

/-- Two directories, each with its own pipeline. -/
def twoDirs : List Pipeline := [⟨ascii "in",true,[⟨true,ascii "/in",ascii "a"⟩]⟩,⟨ascii "out",true,[⟨true,ascii "/out",ascii "b"⟩]⟩]

def twoDirsWatch (dir : Bytes) : Int := if dir = ascii "/in" then 1 else if dir = ascii "/out" then 2 else -1

/-- A pattern without special characters. -/
def sameName (pattern name : Bytes) : Bool := pattern = name

def twoReads : List Act := [.read .interrupted,.read (.events [⟨2,some (ascii "b")⟩,⟨1,some (ascii "c")⟩]),.destroy]

theorem watcherKeptTwoDirs : ∃ w₀ w, fileWatcherCreate twoDirsWatch twoDirs = some w₀ ∧ run (step sameName twoDirs) w₀ twoReads = some w ∧
    w.log.map Prod.snd = [[1],[]] ∧ Kept sameName twoDirsWatch twoDirs w := by
  refine ⟨_,_,rfl,rfl,rfl,@watcherKept sameName twoDirsWatch twoDirs (by decide) _ _ twoReads rfl (And.intro trivial
    (And.intro (fun ev mem i name named meant => ?_) (And.intro trivial trivial))) rfl⟩
  obtain ⟨name',p,t,named',at_,_,trigger,_,_,_,there,fits⟩ := meant
  rcases List.mem_cons.mp mem with rfl | mem
  · cases named
    rcases i with _ | _ | i
    · cases at_
      rw [List.mem_singleton.mp trigger] at there
      cases there
    · exact ⟨_,rfl,rfl,rfl⟩
    · cases at_
  · cases List.mem_singleton.mp mem
    cases named
    cases named'
    rcases i with _ | _ | i
    · cases at_
      rw [List.mem_singleton.mp trigger] at fits
      cases fits
    · cases at_
      rw [List.mem_singleton.mp trigger] at there
      cases there
    · cases at_

/-- The loop ends at the first read that finds nothing. -/
theorem emptyReadEnds : ¬ ∀ w₀ acts w, fileWatcherCreate twoDirsWatch twoDirs = some w₀ → run (step sameName twoDirs) w₀ acts = some w →
    Kept sameName twoDirsWatch twoDirs w := fun kept => by
  have on := (kept _ [.read .again] _ rfl rfl).reads rfl
  cases on

end Napastak.FileWatcher
