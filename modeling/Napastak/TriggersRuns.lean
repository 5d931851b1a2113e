import Napastak.Triggers
import Napastak.Lib.Replay

/-! Runs of the scheduler in which no webhook starts the pipeline, its flag is clear when it is set, and no removal
moves it under a pointer. -/
namespace Napastak.Triggers
open Replay (run along runInvariant)

/-! ### Phases of a request -/

/-- The slot a request points to, and the pipeline it names. -/
def Call.pointer : Call → Option (Nat × Bytes)
  | .found i id | .tested i id | .marked i id | .inline i id _ | .ran i id | .hookFound i id _ | .hookTested i id
  | .hookRunning i id | .hookRan i id | .hookAgain i id => some (i,id)
  | _ => none

/-- The pipeline a request names, and the one its copy is of. -/
def Call.copy : Call → Option (Bytes × Bytes)
  | .queued id p | .working id p | .worked id p => some (id,p.id)
  | .finishing id dest _ => some (id,dest)
  | _ => none

/-- The status a request is about to write. -/
def Call.final : Call → Option RunStatus
  | .finishing _ _ s => some s
  | .worked _ p => some p.status
  | _ => none

/-- A webhook that has started its pipeline. -/
def Call.hooked : Call → Bool
  | .hookRunning _ _ | .hookRan _ _ | .hookAgain _ _ | .hookEnded _ true => true
  | _ => false

/-- A request whose execution has begun. -/
def Call.started : Call → Bool
  | .inline _ _ _ | .ran _ _ | .finishing _ _ _ | .working _ _ | .worked _ _ | .ended _ true => true
  | _ => false

/-- Whether a request is in a run of the pipeline, and whether the flag is set for it. -/
def Call.mode (pid : Bytes) : Call → Option Bool
  | .marked _ id | .inline _ id _ | .queued id _ | .working id _ | .worked id _ => if id = pid then some true else none
  | .ran _ id | .finishing id _ _ => if id = pid then some false else none
  | _ => none

def Tick.mode (k : Nat) : Tick → Option Bool
  | .running i _ => if i = k then some true else none
  | _ => none

def World.mode (pid : Bytes) (k : Nat) (w : World) : Runner → Option Bool
  | none => w.tick.mode k
  | some c => (w.calls c).mode pid

/-! ### The condition -/

/-- Only other pipelines are added and removed. No webhook starts the pipeline; whoever sets its flag finds it clear,
and no request that ran it has yet to write its end; a removal moves it only while no request points to its place or to
the one it goes to. -/
def Clean (pid : Bytes) (w : World) : Act → Prop
  | .add p => p.id ≠ pid
  | .remove id => id ≠ pid ∧ ∀ i, w.schedulerFind id = some i → (w.slots (w.n - 1)).id = pid →
      ∀ c j d, (w.calls c).pointer = some (j,d) → j ≠ i ∧ j ≠ w.n - 1
  | .mark c => ∀ i id, w.calls c = .tested i id → (w.slots i).id = pid →
      (w.slots i).status ≠ .running ∧ ∀ d, (w.calls d).mode pid ≠ some false
  | .tickMark => ∀ i now, w.tick = .passed i now → (w.slots i).id = pid →
      (w.slots i).status ≠ .running ∧ ∀ d, (w.calls d).mode pid ≠ some false
  | .hookRun c => ∀ i id, w.calls c = .hookTested i id → (w.slots i).id ≠ pid
  | _ => True

/-! ### The invariant -/

structure Local (pid : Bytes) (k : Nat) (slots : Nat → Pipeline) (x : Call) (b : List Bytes) : Prop where
  pointer : ∀ i id, x.pointer = some (i,id) → (id = pid ↔ i = k) ∧ (i ≠ k → (slots i).id ≠ pid)
  copy : ∀ id d, x.copy = some (id,d) → (id = pid ↔ d = pid)
  hooked : x.hooked = true → x.name ≠ some pid
  final : ∀ s, x.final = some s → x.name = some pid → s ≠ .running
  own : x.name = some pid → b = if x.started then [pid] else []
  others : x.name ≠ some pid → pid ∉ b
  fresh : x = .idle → b = []

structure Locks (w : World) : Prop where
  tick : w.tick ≠ .idle → w.mu = some .tick
  hook : ∀ c i id, w.calls c = .hookRunning i id → w.mu = some (.hook c)
  span : ∀ i now, w.tick = .passed i now ∨ w.tick = .running i now → i < w.n

structure Inv (pid : Bytes) (w : World) (k : Nat) : Prop where
  place : k < w.n
  here : (w.slots k).id = pid
  only : ∀ j < w.n, (w.slots j).id = pid → j = k
  locks : Locks w
  each : ∀ c, Local pid k w.slots (w.calls c) (w.begun c)
  flag : (w.slots k).status = .running ↔ ∃ e, w.mode pid k e = some true
  alone : ∀ e e', w.mode pid k e ≠ none → w.mode pid k e' ≠ none → e = e'

variable {pid : Bytes} {k : Nat} {w w' : World}

/-! ### What a step keeps -/

/-- One runner's part: it goes on with the flag as it was, starts where no other runs, or stops with the flag clear. -/
inductive Flow (M : Runner → Option Bool) (e : Runner) (m : Option Bool) (s s' : RunStatus) : Prop
  | same (mode : m = M e) (status : s' = s)
  | start (free : ∀ d, M d = none) (mode : m = some true) (status : s' = .running)
  | stop (active : M e ≠ none) (mode : m ≠ some true) (status : s' ≠ .running)

theorem Flow.kept {M : Runner → Option Bool} {e : Runner} {m : Option Bool} {s s' : RunStatus} (flow : Flow M e m s s')
    (flag : s = .running ↔ ∃ d, M d = some true) (alone : ∀ d d', M d ≠ none → M d' ≠ none → d = d') :
    (s' = .running ↔ ∃ d, Function.update M e m d = some true) ∧
      ∀ d d', Function.update M e m d ≠ none → Function.update M e m d' ≠ none → d = d' := by
  cases flow with
  | same mode status =>
    rw [mode,Function.update_eq_self,status]
    exact ⟨flag,alone⟩
  | start free mode status =>
    have only : ∀ d, Function.update M e m d ≠ none → d = e := fun d active => by
      by_contra other
      rw [Function.update_of_ne other,free] at active
      exact active rfl
    exact ⟨⟨fun _ => ⟨e,by rw [Function.update_self,mode]⟩,fun _ => status⟩,
      fun d d' hd hd' => (only d hd).trans (only d' hd').symm⟩
  | stop active mode status =>
    have only : ∀ d, Function.update M e m d ≠ none → d = e := fun d now => by
      by_contra other
      rw [Function.update_of_ne other] at now
      exact other (alone d e now active)
    refine ⟨⟨fun set => absurd set status,fun ⟨d,busy⟩ => ?_⟩,fun d d' hd hd' => (only d hd).trans (only d' hd').symm⟩
    have is := only d (by rw [busy]; nofun)
    rw [is,Function.update_self] at busy
    exact absurd busy mode

theorem Local.frame {slots slots' : Nat → Pipeline} {x : Call} {b : List Bytes} (l : Local pid k slots x b)
    (ids : ∀ j, (slots' j).id = (slots j).id) : Local pid k slots' x b :=
  {l with pointer := fun i id is => ⟨(l.pointer i id is).1,fun other => by rw [ids]; exact (l.pointer i id is).2 other⟩}

theorem modeUpdate (c : Nat) (x : Call) (slots : Nat → Pipeline) (mu : Option Holder) (begun : Nat → List Bytes) :
    (World.mk slots w.n mu w.tick (Function.update w.calls c x) begun).mode pid k =
      Function.update (w.mode pid k) (some c) (x.mode pid) := by
  funext e
  cases e with
  | none => rw [Function.update_of_ne (Option.some_ne_none c).symm]; rfl
  | some d =>
    by_cases same : d = c
    · subst same
      rw [Function.update_self,World.mode]
      simp only [Function.update_self]
    · rw [Function.update_of_ne (by simpa using same),World.mode,World.mode]
      simp only [Function.update_of_ne same]

/-- A step of one request that moves no pipeline. -/
theorem Inv.move (inv : Inv pid w k) {slots : Nat → Pipeline} {mu : Option Holder} {c : Nat} {x : Call} {b : List Bytes}
    (ids : ∀ j, (slots j).id = (w.slots j).id)
    (locks : Locks ⟨slots,w.n,mu,w.tick,Function.update w.calls c x,Function.update w.begun c b⟩) (own : Local pid k w.slots x b)
    (flow : Flow (w.mode pid k) (some c) (x.mode pid) (w.slots k).status (slots k).status) :
    Inv pid ⟨slots,w.n,mu,w.tick,Function.update w.calls c x,Function.update w.begun c b⟩ k := by
  obtain ⟨flag,alone⟩ := flow.kept inv.flag inv.alone
  refine ⟨inv.place,by rw [ids]; exact inv.here,fun j less is => inv.only j less (by rw [← ids]; exact is),locks,fun d => ?_,?_,?_⟩
  · by_cases same : d = c
    · subst same
      simp only [Function.update_self]
      exact own.frame ids
    · simp only [Function.update_of_ne same]
      exact (inv.each d).frame ids
  · rw [modeUpdate]
    exact flag
  · rw [modeUpdate]
    exact alone

theorem Inv.keep (inv : Inv pid w k) {slots : Nat → Pipeline} {mu : Option Holder} {c : Nat} {x : Call}
    (ids : ∀ j, (slots j).id = (w.slots j).id)
    (locks : Locks ⟨slots,w.n,mu,w.tick,Function.update w.calls c x,w.begun⟩) (own : Local pid k w.slots x (w.begun c))
    (flow : Flow (w.mode pid k) (some c) (x.mode pid) (w.slots k).status (slots k).status) :
    Inv pid ⟨slots,w.n,mu,w.tick,Function.update w.calls c x,w.begun⟩ k := by
  have same : w.begun = Function.update w.begun c (w.begun c) := (Function.update_eq_self _ _).symm
  rw [same] at locks ⊢
  exact inv.move ids locks own flow

theorem Locks.call (locks : Locks w) {c : Nat} {x : Call} (other : ∀ i id, x ≠ .hookRunning i id) (slots : Nat → Pipeline)
    (begun : Nat → List Bytes) : Locks ⟨slots,w.n,w.mu,w.tick,Function.update w.calls c x,begun⟩ := by
  refine ⟨locks.tick,fun d i id is => ?_,locks.span⟩
  by_cases same : d = c
  · subst same
    simp only [Function.update_self] at is
    exact absurd is (other i id)
  · simp only [Function.update_of_ne same] at is
    exact locks.hook d i id is

/-! ### Slots -/

theorem slotHere (w : World) (i : Nat) (p : Pipeline) : (w.setSlot i p).slots i = p := Function.update_self ..

theorem slotThere (w : World) {i j : Nat} (other : j ≠ i) (p : Pipeline) : (w.setSlot i p).slots j = w.slots j :=
  Function.update_of_ne other _ _

theorem statusIds (w : World) (i : Nat) (s : RunStatus) (j : Nat) : ((w.setStatus i s).slots j).id = (w.slots j).id := by
  rw [World.setStatus,World.setSlot]
  by_cases same : j = i
  · subst same
    simp only [Function.update_self]
  · simp only [Function.update_of_ne same]

theorem statusHere (w : World) (k : Nat) (s : RunStatus) : ((w.setStatus k s).slots k).status = s := by
  simp only [World.setStatus,World.setSlot,Function.update_self]

theorem statusThere (w : World) {i k : Nat} (other : i ≠ k) (s : RunStatus) :
    ((w.setStatus i s).slots k).status = (w.slots k).status := by
  simp only [World.setStatus,World.setSlot,Function.update_of_ne other.symm]

theorem firstSome {f : Pipeline → Bool} {i : Nat} (is : w.first f = some i) : i < w.n ∧ f (w.slots i) = true :=
  ⟨List.mem_range.mp (List.mem_of_find?_eq_some is),@List.find?_some _ (fun i => f (w.slots i)) _ _ is⟩

theorem findSome {id : Bytes} {i : Nat} (is : w.schedulerFind id = some i) : i < w.n ∧ (w.slots i).id = id := by
  obtain ⟨less,same⟩ := firstSome is
  exact ⟨less,of_decide_eq_true same⟩

theorem Inv.findOwn (inv : Inv pid w k) : w.schedulerFind pid = some k := by
  cases is : w.schedulerFind pid with
  | none =>
    have none_ := List.find?_eq_none.mp is k (List.mem_range.mpr inv.place)
    exact absurd (decide_eq_true inv.here) none_
  | some i => rw [inv.only i (findSome is).1 (findSome is).2]

theorem finishIds (w : World) (id : Bytes) (s : RunStatus) (j : Nat) : ((w.schedulerFinishRun id s).slots j).id = (w.slots j).id := by
  rw [World.schedulerFinishRun]
  split
  · exact statusIds w _ s j
  · rfl

/-- `scheduler_finish_run` changes the slots only. -/
theorem finishFrame (w : World) (id : Bytes) (s : RunStatus) :
    w.schedulerFinishRun id s = {w with slots := (w.schedulerFinishRun id s).slots} := by
  rw [World.schedulerFinishRun]
  split <;> rfl

theorem Inv.finishOwn (inv : Inv pid w k) (s : RunStatus) : ((w.schedulerFinishRun pid s).slots k).status = s := by
  rw [World.schedulerFinishRun,inv.findOwn]
  exact statusHere w k s

theorem Inv.finishOther (inv : Inv pid w k) {id : Bytes} (other : id ≠ pid) (s : RunStatus) :
    ((w.schedulerFinishRun id s).slots k).status = (w.slots k).status := by
  rw [World.schedulerFinishRun]
  split
  · rename_i i is
    refine statusThere w (fun same => other ?_) s
    rw [← (findSome is).2,same,inv.here]
  · rfl

/-! ### Requests -/

theorem Local.away {slots : Nat → Pipeline} {x : Call} {b : List Bytes} (l : Local pid k slots x b) {i : Nat} {id : Bytes}
    (is : x.pointer = some (i,id)) (other : id ≠ pid) : i ≠ k := fun same => other ((l.pointer i id is).1.mpr same)

theorem Local.slotName {slots : Nat → Pipeline} {x : Call} {b : List Bytes} (l : Local pid k slots x b) (here : (slots k).id = pid)
    {i : Nat} {id : Bytes} (is : x.pointer = some (i,id)) : (id = pid ↔ (slots i).id = pid) := by
  obtain ⟨place,far⟩ := l.pointer i id is
  refine ⟨fun same => by rw [place.mp same]; exact here,fun same => ?_⟩
  by_contra other
  exact far (fun at_ => other (place.mpr at_)) same

theorem Inv.found (inv : Inv pid w k) {i : Nat} (less : i < w.n) :
    ((w.slots i).id = pid ↔ i = k) ∧ (i ≠ k → (w.slots i).id ≠ pid) :=
  ⟨⟨inv.only i less,fun same => by rw [same]; exact inv.here⟩,fun other same => other (inv.only i less same)⟩

/-- A write of the flag through a pointer that is not the pipeline's. -/
theorem Flow.elsewhere {M : Runner → Option Bool} {e : Runner} {m : Option Bool} {i : Nat} (w : World) (other : i ≠ k)
    (s : RunStatus) (mode : m = M e) : Flow M e m (w.slots k).status ((w.setStatus i s).slots k).status :=
  .same mode (statusThere w other s)

theorem resultEnded (ok : Bool) : result ok ≠ .running := by cases ok <;> nofun

theorem Inv.find (inv : Inv pid w k) (c : Nat) (id : Bytes) (idle : w.calls c = .idle) :
    Inv pid (w.setCall c (match w.schedulerFind id with
      | some i => .found i id
      | none => .ended id false)) k := by
  have l := inv.each c
  have none_ : w.begun c = [] := l.fresh idle
  split
  · rename_i i is
    obtain ⟨less,same⟩ := findSome is
    refine inv.keep (fun _ => rfl) (inv.locks.call (by nofun) _ _) ⟨fun j d at_ => ?_,nofun,nofun,nofun,fun _ => none_,fun _ => ?_,nofun⟩ ?_
    · cases at_
      rw [← same]
      exact inv.found less
    · rw [none_]
      exact List.not_mem_nil
    · exact .same (by rw [World.mode,idle]; rfl) rfl
  · refine inv.keep (fun _ => rfl) (inv.locks.call (by nofun) _ _) ⟨nofun,nofun,nofun,nofun,fun _ => none_,fun _ => ?_,nofun⟩ ?_
    · rw [none_]
      exact List.not_mem_nil
    · exact .same (by rw [World.mode,idle]; rfl) rfl

theorem Inv.test (inv : Inv pid w k) (c i : Nat) (id : Bytes) (at_ : w.calls c = .found i id) :
    Inv pid (w.setCall c (if (w.slots i).status = .running then .ended id false else .tested i id)) k := by
  have l := inv.each c
  rw [at_] at l
  split
  · exact inv.keep (fun _ => rfl) (inv.locks.call (by nofun) _ _)
      {l with pointer := nofun, copy := nofun, hooked := nofun, final := nofun, fresh := nofun}
      (.same (by rw [World.mode,at_]; rfl) rfl)
  · exact inv.keep (fun _ => rfl) (inv.locks.call (by nofun) _ _) {l with hooked := nofun, fresh := nofun}
      (.same (by rw [World.mode,at_]; rfl) rfl)

theorem Inv.noneRuns (inv : Inv pid w k) (clear : (w.slots k).status ≠ .running)
    (ended : ∀ d, (w.calls d).mode pid ≠ some false) (e : Runner) : w.mode pid k e = none := by
  cases is : w.mode pid k e with
  | none => rfl
  | some b =>
    cases b with
    | true => exact absurd (inv.flag.mpr ⟨e,is⟩) clear
    | false =>
      cases e with
      | some d => exact absurd is (ended d)
      | none =>
        rw [World.mode,Tick.mode.eq_def] at is
        split at is
        · split at is <;> cases is
        · cases is

theorem Inv.mark (inv : Inv pid w k) (c i : Nat) (id : Bytes) (at_ : w.calls c = .tested i id)
    (clean : (w.slots i).id = pid → (w.slots i).status ≠ .running ∧ ∀ d, (w.calls d).mode pid ≠ some false) :
    Inv pid ((w.setStatus i .running).setCall c (.marked i id)) k := by
  have l := inv.each c
  rw [at_] at l
  refine inv.keep (statusIds w i _) (inv.locks.call (by nofun) _ _) {l with hooked := nofun, fresh := nofun} ?_
  by_cases same : id = pid
  · have place := (l.pointer i id rfl).1.mp same
    subst place
    obtain ⟨clear,ended⟩ := clean inv.here
    exact .start (inv.noneRuns clear ended) (if_pos same) (statusHere w i _)
  · exact .elsewhere w (l.away rfl same) _ (by rw [World.mode,at_]; exact if_neg same)

theorem Inv.queue (inv : Inv pid w k) (c i : Nat) (id : Bytes) (at_ : w.calls c = .marked i id) :
    Inv pid (w.setCall c (.queued id (w.slots i))) k := by
  have l := inv.each c
  rw [at_] at l
  refine inv.keep (fun _ => rfl) (inv.locks.call (by nofun) _ _)
    {l with pointer := nofun, copy := fun d p is => ?_, hooked := nofun, final := nofun, fresh := nofun}
    (.same (by rw [World.mode,at_]; rfl) rfl)
  cases is
  exact l.slotName inv.here rfl

/-- The list of executions with one more, of the pipeline named. -/
theorem Local.begins {slots : Nat → Pipeline} {x y : Call} {b : List Bytes} (l : Local pid k slots x b) {d : Bytes}
    (names : x.name = some pid ↔ d = pid) (same : y.name = x.name) (before : x.started = false) (after : y.started = true) :
    (y.name = some pid → b ++ [d] = if y.started then [pid] else []) ∧ (y.name ≠ some pid → pid ∉ b ++ [d]) := by
  rw [same,after]
  refine ⟨fun own => ?_,fun other mem => ?_⟩
  · rw [l.own own,before,names.mp own]
    rfl
  · rcases List.mem_append.mp mem with mem | mem
    · exact l.others other mem
    · exact other (names.mpr (List.mem_singleton.mp mem).symm)

theorem Inv.inline (inv : Inv pid w k) (c i : Nat) (id : Bytes) (finishes : Bool) (at_ : w.calls c = .marked i id) :
    Inv pid ((w.beginRun c (w.slots i).id).setCall c (.inline i id finishes)) k := by
  have l := inv.each c
  rw [at_] at l
  obtain ⟨own,others⟩ := @Local.begins _ _ _ _ (.inline i id finishes) _ l (w.slots i).id
    (Option.some_inj.trans (l.slotName inv.here rfl)) rfl rfl rfl
  exact inv.move (fun _ => rfl) (inv.locks.call (by nofun) _ _) {l with hooked := nofun, own := own, others := others, fresh := nofun}
    (.same (by rw [World.mode,at_]; rfl) rfl)

theorem Inv.inlineEnd (inv : Inv pid w k) (c i : Nat) (id : Bytes) (finishes ok : Bool) (at_ : w.calls c = .inline i id finishes) :
    Inv pid ((w.setStatus i (result ok)).setCall c (if finishes then .ran i id else .ended id true)) k := by
  have l := inv.each c
  rw [at_] at l
  have flow {x : Call} (mode : x.mode pid ≠ some true) (gone : id ≠ pid → x.mode pid = none) :
      Flow (w.mode pid k) (some c) (x.mode pid) (w.slots k).status ((w.setStatus i (result ok)).slots k).status := by
    by_cases same : id = pid
    · have place := (l.pointer i id rfl).1.mp same
      subst place
      refine .stop ?_ mode (by rw [statusHere]; exact resultEnded ok)
      rw [World.mode,at_,Call.mode,if_pos same]
      nofun
    · exact .elsewhere w (l.away rfl same) _ (by rw [gone same,World.mode,at_]; exact (if_neg same).symm)
  cases finishes with
  | true =>
    refine inv.keep (statusIds w i _) (inv.locks.call (by nofun) _ _) {l with hooked := nofun, fresh := nofun} (flow ?_ fun other => if_neg other)
    rw [if_pos rfl,Call.mode]
    split <;> nofun
  | false =>
    exact inv.keep (statusIds w i _) (inv.locks.call (by nofun) _ _)
      {l with pointer := nofun, copy := nofun, hooked := nofun, final := nofun, fresh := nofun} (flow nofun fun _ => rfl)

theorem Inv.args (inv : Inv pid w k) (c i : Nat) (id : Bytes) (at_ : w.calls c = .ran i id) :
    Inv pid (w.setCall c (.finishing id (w.slots i).id (w.slots i).status)) k := by
  have l := inv.each c
  rw [at_] at l
  refine inv.keep (fun _ => rfl) (inv.locks.call (by nofun) _ _)
    {l with pointer := nofun, copy := fun d p is => ?_, hooked := nofun, final := fun s is own busy => ?_, fresh := nofun}
    (.same (by rw [World.mode,at_]; rfl) rfl)
  · cases is
    exact l.slotName inv.here rfl
  · cases is
    have same : id = pid := Option.some.inj own
    have place := (l.pointer i id rfl).1.mp same
    subst place
    obtain ⟨e,run⟩ := inv.flag.mp busy
    have mine : w.mode pid i (some c) = some false := by
      rw [World.mode,at_]
      exact if_pos same
    have is := inv.alone e (some c) (by rw [run]; nofun) (by rw [mine]; nofun)
    rw [is,mine] at run
    cases run

theorem Inv.finish (inv : Inv pid w k) (c : Nat) (id dest : Bytes) (s : RunStatus) {x : Call} (at_ : w.calls c = x)
    (copy : x.copy = some (id,dest)) (final : x.final = some s) (name : x.name = some id) (started : x.started = true)
    (mode : id = pid → x.mode pid ≠ none) (gone : id ≠ pid → x.mode pid = none) :
    Inv pid ((w.schedulerFinishRun dest s).setCall c (.ended id true)) k := by
  have l := inv.each c
  rw [at_] at l
  have own := l.own
  have others := l.others
  rw [started,name] at own
  rw [name] at others
  rw [finishFrame]
  refine inv.keep (finishIds w dest s) (inv.locks.call (by nofun) _ _) ⟨nofun,nofun,nofun,nofun,own,others,nofun⟩ ?_
  by_cases same : id = pid
  · have own := (l.copy id dest copy).mp same
    subst own
    refine .stop (by rw [World.mode,at_]; exact mode same) nofun ?_
    rw [inv.finishOwn]
    exact l.final s final (by rw [name,same])
  · refine .same (by rw [World.mode,at_,gone same]; rfl) (inv.finishOther (fun there => same ((l.copy id dest copy).mpr there)) s)

theorem Inv.take (inv : Inv pid w k) (c : Nat) (id : Bytes) (p : Pipeline) (at_ : w.calls c = .queued id p) :
    Inv pid ((w.beginRun c p.id).setCall c (.working id p)) k := by
  have l := inv.each c
  rw [at_] at l
  obtain ⟨own,others⟩ := @Local.begins _ _ _ _ (.working id p) _ l p.id (Option.some_inj.trans (l.copy id p.id rfl)) rfl rfl rfl
  exact inv.move (fun _ => rfl) (inv.locks.call (by nofun) _ _) {l with hooked := nofun, own := own, others := others, fresh := nofun}
    (.same (by rw [World.mode,at_]; rfl) rfl)

theorem Inv.workEnd (inv : Inv pid w k) (c : Nat) (id : Bytes) (p : Pipeline) (ok : Bool) (at_ : w.calls c = .working id p) :
    Inv pid (w.setCall c (.worked id {p with status := result ok})) k := by
  have l := inv.each c
  rw [at_] at l
  refine inv.keep (fun _ => rfl) (inv.locks.call (by nofun) _ _) {l with hooked := nofun, final := fun s is _ => ?_, fresh := nofun}
    (.same (by rw [World.mode,at_]; rfl) rfl)
  cases is
  exact resultEnded ok

/-! ### Webhooks -/

theorem Inv.hookFind (inv : Inv pid w k) (c : Nat) (token : Bytes) (idle : w.calls c = .idle) :
    Inv pid (w.setCall c (match w.schedulerFindByWebhookToken token with
      | some i => .hookFound i (w.slots i).id token
      | none => .hookEnded [] false)) k := by
  have none_ : w.begun c = [] := (inv.each c).fresh idle
  have others : pid ∉ w.begun c := by rw [none_]; exact List.not_mem_nil
  split
  · rename_i i is
    have less : i < w.n := by
      rw [World.schedulerFindByWebhookToken] at is
      split at is
      · cases is
      · exact (firstSome is).1
    refine inv.keep (fun _ => rfl) (inv.locks.call (by nofun) _ _)
      ⟨fun j d at_ => ?_,nofun,nofun,nofun,fun _ => none_,fun _ => others,nofun⟩ (.same (by rw [World.mode,idle]; rfl) rfl)
    cases at_
    exact inv.found less
  · exact inv.keep (fun _ => rfl) (inv.locks.call (by nofun) _ _)
      ⟨nofun,nofun,nofun,nofun,fun _ => none_,fun _ => others,nofun⟩ (.same (by rw [World.mode,idle]; rfl) rfl)

theorem Inv.hookTest (inv : Inv pid w k) (c i : Nat) (id token method : Bytes) (at_ : w.calls c = .hookFound i id token) :
    Inv pid (w.setCall c (
      if strcasecmp method (wantMethod (w.slots i) token) ≠ 0 ∨ (w.slots i).status = .running then .hookEnded id false
      else .hookTested i id)) k := by
  have l := inv.each c
  rw [at_] at l
  split
  · exact inv.keep (fun _ => rfl) (inv.locks.call (by nofun) _ _)
      {l with pointer := nofun, copy := nofun, hooked := nofun, final := nofun, fresh := nofun}
      (.same (by rw [World.mode,at_]; rfl) rfl)
  · exact inv.keep (fun _ => rfl) (inv.locks.call (by nofun) _ _) {l with hooked := nofun, fresh := nofun}
      (.same (by rw [World.mode,at_]; rfl) rfl)

/-- A webhook that runs another pipeline. -/
theorem Local.elsewhere {slots : Nat → Pipeline} {x y : Call} {b d : List Bytes} (l : Local pid k slots x b) (away : x.name ≠ some pid)
    (name : y.name = x.name) (pointer : ∀ i id, y.pointer = some (i,id) → x.pointer = some (i,id)) (copy : y.copy = none)
    (none_ : pid ∉ d) (busy : y ≠ .idle) : Local pid k slots y (b ++ d) := by
  rw [← name] at away
  refine ⟨fun i id is => l.pointer i id (pointer i id is),fun _ _ is => ?_,fun _ => away,fun _ _ own => absurd own away,
    fun own => absurd own away,fun other mem => ?_,fun idle => absurd idle busy⟩
  · rw [copy] at is
    cases is
  · rcases List.mem_append.mp mem with mem | mem
    · exact l.others (by rw [← name]; exact other) mem
    · exact none_ mem

theorem Inv.hookRun (inv : Inv pid w k) (c i : Nat) (id : Bytes) (at_ : w.calls c = .hookTested i id) (free : w.mu = none)
    (clean : (w.slots i).id ≠ pid) :
    Inv pid {((w.setStatus i .running).beginRun c (w.slots i).id).setCall c (.hookRunning i id) with mu := some (.hook c)} k := by
  have l := inv.each c
  rw [at_] at l
  have other : id ≠ pid := fun same => clean ((l.slotName inv.here rfl).mp same)
  have here : ((w.setStatus i .running).slots i).id = (w.slots i).id := statusIds w i _ i
  refine inv.move (statusIds w i _) ⟨fun busy => ?_,fun d j e is => ?_,fun j now is => ?_⟩
    (l.elsewhere (by simpa [Call.name] using other) rfl (fun _ _ is => is) rfl (by simpa using Ne.symm clean) nofun)
    (.elsewhere w (l.away rfl other) _ (by rw [World.mode,at_]; rfl))
  · have held := inv.locks.tick busy
    rw [free] at held
    cases held
  · by_cases same : d = c
    · rw [same]
    · simp only [Function.update_of_ne same] at is
      have held := inv.locks.hook d j e is
      rw [free] at held
      cases held
  · exact inv.locks.span j now is

theorem Inv.hookRunEnd (inv : Inv pid w k) (c i : Nat) (id : Bytes) (ok : Bool) (at_ : w.calls c = .hookRunning i id) :
    Inv pid {(w.setStatus i (result ok)).setCall c (.hookRan i id) with mu := none} k := by
  have l := inv.each c
  rw [at_] at l
  have away : (Call.hookRunning i id).name ≠ some pid := l.hooked rfl
  have held := inv.locks.hook c i id at_
  have own := l.elsewhere (y := .hookRan i id) (d := []) away rfl (fun _ _ is => is) rfl List.not_mem_nil nofun
  rw [List.append_nil] at own
  refine inv.keep (statusIds w i _) ⟨fun busy => ?_,fun d j e is => ?_,fun j now is => inv.locks.span j now is⟩ own
    (.elsewhere w (l.away rfl fun same => away (congrArg some same)) _ (by rw [World.mode,at_]; rfl))
  · have tick := inv.locks.tick busy
    rw [held] at tick
    cases tick
  · by_cases same : d = c
    · subst same
      simp only [Function.update_self] at is
      cases is
    · simp only [Function.update_of_ne same] at is
      have hook := inv.locks.hook d j e is
      rw [held] at hook
      cases hook
      exact absurd rfl same

theorem Inv.hookAgain (inv : Inv pid w k) (c i : Nat) (id : Bytes) (at_ : w.calls c = .hookRan i id) :
    Inv pid ((w.beginRun c (w.slots i).id).setCall c (.hookAgain i id)) k := by
  have l := inv.each c
  rw [at_] at l
  have away : (Call.hookRan i id).name ≠ some pid := l.hooked rfl
  have other : id ≠ pid := fun same => away (congrArg some same)
  have there : (w.slots i).id ≠ pid := fun same => other ((l.slotName inv.here rfl).mpr same)
  exact inv.move (fun _ => rfl) (inv.locks.call (by nofun) _ _)
    (l.elsewhere away rfl (fun _ _ is => is) rfl (by simpa using Ne.symm there) nofun) (.same (by rw [World.mode,at_]; rfl) rfl)

theorem Inv.hookAgainEnd (inv : Inv pid w k) (c i : Nat) (id : Bytes) (ok : Bool) (at_ : w.calls c = .hookAgain i id) :
    Inv pid ((w.setStatus i (result ok)).setCall c (.hookEnded id true)) k := by
  have l := inv.each c
  rw [at_] at l
  have away : (Call.hookAgain i id).name ≠ some pid := l.hooked rfl
  have own := l.elsewhere (y := .hookEnded id true) (d := []) away rfl nofun rfl List.not_mem_nil nofun
  rw [List.append_nil] at own
  exact inv.keep (statusIds w i _) (inv.locks.call (by nofun) _ _) own
    (.elsewhere w (l.away rfl fun same => away (congrArg some same)) _ (by rw [World.mode,at_]; rfl))

/-! ### The loop -/

theorem modeTick (slots : Nat → Pipeline) (mu : Option Holder) (t : Tick) :
    (World.mk slots w.n mu t w.calls w.begun).mode pid k = Function.update (w.mode pid k) none (t.mode k) := by
  funext e
  cases e with
  | none => rw [Function.update_self]; rfl
  | some d => rw [Function.update_of_ne (Option.some_ne_none d)]; rfl

/-- A step of the loop. -/
theorem Inv.turn (inv : Inv pid w k) {slots : Nat → Pipeline} {mu : Option Holder} {t : Tick}
    (ids : ∀ j, (slots j).id = (w.slots j).id) (held : w.tick ≠ .idle ∨ w.mu = none) (lock : t ≠ .idle → mu = some .tick)
    (span : ∀ i now, t = .passed i now ∨ t = .running i now → i < w.n)
    (flow : Flow (w.mode pid k) none (t.mode k) (w.slots k).status (slots k).status) :
    Inv pid ⟨slots,w.n,mu,t,w.calls,w.begun⟩ k := by
  obtain ⟨flag,alone⟩ := flow.kept inv.flag inv.alone
  have noHook : ∀ c i id, w.calls c ≠ .hookRunning i id := fun c i id is => by
    have hook := inv.locks.hook c i id is
    rcases held with busy | free
    · rw [inv.locks.tick busy] at hook
      cases hook
    · rw [free] at hook
      cases hook
  refine ⟨inv.place,by rw [ids]; exact inv.here,fun j less is => inv.only j less (by rw [← ids]; exact is),
    ⟨lock,fun c i id is => absurd is (noHook c i id),span⟩,fun d => (inv.each d).frame ids,?_,?_⟩
  · rw [modeTick]
    exact flag
  · rw [modeTick]
    exact alone

theorem Inv.tickTest (inv : Inv pid w k) (cronNext : Bytes → Int → Int) (i : Nat) (now : Int) (at_ : w.tick = .looking i now) :
    Inv pid (w.look cronNext i now) k := by
  have busy : w.tick ≠ .idle := by rw [at_]; nofun
  have held : w.mu = some .tick := inv.locks.tick busy
  have idle : w.mode pid k none = none := by rw [World.mode,at_]; rfl
  have on : Inv pid {w with tick := .looking (i + 1) now} k :=
    inv.turn (fun _ => rfl) (.inl busy) (fun _ => held) (by simp) (.same idle.symm rfl)
  rw [World.look]
  split
  · rename_i less
    dsimp only
    split
    · exact on
    · rename_i cron _
      split
      · exact on
      · generalize again : (if (w.slots i).nextRun = 0 then {w.slots i with nextRun := cronNext cron now} else w.slots i) = p
        have id : p.id = (w.slots i).id := by rw [← again]; split <;> rfl
        have status : p.status = (w.slots i).status := by rw [← again]; split <;> rfl
        refine inv.turn (fun j => ?_) (.inl busy) (fun _ => held) (fun j t is => ?_) (.same (.trans ?_ idle.symm) ?_)
        · by_cases same : j = i
          · rw [same,slotHere,id]
          · rw [slotThere w same]
        · split at is <;> rcases is with is | is <;> cases is
          exact less
        · split <;> rfl
        · by_cases same : k = i
          · rw [same,slotHere,status]
          · rw [slotThere w same]
  · exact inv.turn (fun _ => rfl) (.inl busy) (fun non => absurd rfl non) (by simp) (.same idle.symm rfl)

theorem Inv.tickMark (inv : Inv pid w k) (cronNext : Bytes → Int → Int) (i : Nat) (now : Int) (at_ : w.tick = .passed i now)
    (clean : (w.slots i).id = pid → (w.slots i).status ≠ .running ∧ ∀ d, (w.calls d).mode pid ≠ some false) :
    Inv pid {w.setSlot i ((w.slots i).started cronNext now) with tick := .running i now} k := by
  have busy : w.tick ≠ .idle := by rw [at_]; nofun
  have less := inv.locks.span i now (.inl at_)
  refine inv.turn (fun j => ?_) (.inl busy) (fun _ => inv.locks.tick busy) (fun j t is => ?_) ?_
  · by_cases same : j = i
    · rw [same,slotHere,Pipeline.started]
    · rw [slotThere w same]
  · rcases is with is | is <;> cases is
    exact less
  · by_cases same : i = k
    · subst same
      obtain ⟨clear,ended⟩ := clean inv.here
      exact .start (inv.noneRuns clear ended) (if_pos rfl) (by rw [slotHere,Pipeline.started])
    · refine .same ((if_neg same).trans ?_) ?_
      · rw [World.mode,at_]
        rfl
      · rw [slotThere w (Ne.symm same)]

theorem Inv.tickEnd (inv : Inv pid w k) (i : Nat) (now : Int) (ok : Bool) (at_ : w.tick = .running i now) :
    Inv pid {w.setStatus i (result ok) with tick := .looking (i + 1) now} k := by
  have busy : w.tick ≠ .idle := by rw [at_]; nofun
  refine inv.turn (statusIds w i _) (.inl busy) (fun _ => inv.locks.tick busy) (by simp) ?_
  by_cases same : i = k
  · subst same
    refine .stop ?_ nofun (by rw [statusHere]; exact resultEnded ok)
    rw [World.mode,at_,Tick.mode,if_pos rfl]
    nofun
  · refine .elsewhere w same _ ?_
    rw [World.mode,at_]
    exact (if_neg same).symm

/-! ### Other pipelines come and go -/

theorem Inv.noTick (inv : Inv pid w k) (free : w.mu = none) : w.tick = .idle := by
  by_contra busy
  have held := inv.locks.tick busy
  rw [free] at held
  cases held

/-- The slots are other ones, with the pipeline at `k'`. -/
theorem Inv.moved (inv : Inv pid w k) (free : w.mu = none) {slots : Nat → Pipeline} {n k' : Nat} (place : k' < n)
    (here : slots k' = w.slots k) (only : ∀ j < n, (slots j).id = pid → j = k')
    (far : ∀ c j d, (w.calls c).pointer = some (j,d) → (j = k' ↔ j = k) ∧ (j ≠ k' → (slots j).id ≠ pid)) :
    Inv pid {w with slots := slots, n := n} k' := by
  have idle := inv.noTick free
  have modes : ({w with slots := slots, n := n} : World).mode pid k' = w.mode pid k := by
    funext e
    cases e with
    | none => rw [World.mode,World.mode,idle]; rfl
    | some c => rfl
  have same : (slots k').id = pid := by rw [here]; exact inv.here
  refine ⟨place,same,only,⟨inv.locks.tick,inv.locks.hook,fun i now is => ?_⟩,fun c => ?_,?_,?_⟩
  · rw [idle] at is
    rcases is with is | is <;> cases is
  · exact {inv.each c with pointer := fun j d is =>
      ⟨((inv.each c).pointer j d is).1.trans (far c j d is).1.symm,(far c j d is).2⟩}
  · rw [modes]
    exact Iff.trans (by dsimp only; rw [here]) inv.flag
  · rw [modes]
    exact inv.alone

theorem Inv.add (inv : Inv pid w k) (free : w.mu = none) (p : Pipeline) (other : p.id ≠ pid) : Inv pid (w.schedulerAdd p) k := by
  rw [World.schedulerAdd]
  split
  · have slot (j : Nat) : (Function.update w.slots w.n p j).id = pid → (w.slots j).id = pid ∧ j ≠ w.n := fun is => by
      by_cases same : j = w.n
      · rw [same,Function.update_self] at is
        exact absurd is other
      · rw [Function.update_of_ne same] at is
        exact ⟨is,same⟩
    refine inv.moved free (Nat.lt_succ_of_lt inv.place) (Function.update_of_ne (Nat.ne_of_lt inv.place) _ _) (fun j less is => ?_)
      fun c j d is => ⟨Iff.rfl,fun away same => ((inv.each c).pointer j d is).2 away (slot j same).1⟩
    obtain ⟨was,inside⟩ := slot j is
    exact inv.only j (by omega) was
  · exact inv

theorem Inv.remove (inv : Inv pid w k) (free : w.mu = none) (id : Bytes) (other : id ≠ pid)
    (clean : ∀ i, w.schedulerFind id = some i → (w.slots (w.n - 1)).id = pid →
      ∀ c j d, (w.calls c).pointer = some (j,d) → j ≠ i ∧ j ≠ w.n - 1) : ∃ k', Inv pid (w.schedulerRemove id) k' := by
  rw [World.schedulerRemove]
  split
  · rename_i i is
    obtain ⟨less,name⟩ := findSome is
    have away : i ≠ k := fun same => other (by rw [← name,same,inv.here])
    have place := inv.place
    by_cases last : (w.slots (w.n - 1)).id = pid
    · have end_ : w.n - 1 = k := inv.only _ (by omega) last
      have none_ := clean i is last
      refine ⟨i,inv.moved free (by omega) (by rw [slotHere,end_]) (fun j below same => ?_) fun c j d at_ => ?_⟩
      · by_contra there
        rw [slotThere w there] at same
        have := inv.only j (by omega) same
        omega
      · obtain ⟨there,before⟩ := none_ c j d at_
        rw [slotThere w there]
        exact ⟨by omega,fun _ => ((inv.each c).pointer j d at_).2 (by omega)⟩
    · refine ⟨k,inv.moved free ?_ (slotThere w away.symm _) (fun j below same => ?_) fun c j d at_ => ⟨Iff.rfl,fun far => ?_⟩⟩
      · have : w.n - 1 ≠ k := fun same => last (by rw [same]; exact inv.here)
        omega
      · by_cases there : j = i
        · rw [there,slotHere] at same
          exact absurd same last
        · rw [slotThere w there] at same
          exact inv.only j (by omega) same
      · by_cases there : j = i
        · rw [there,slotHere]
          exact last
        · rw [slotThere w there]
          exact ((inv.each c).pointer j d at_).2 far
  · exact ⟨k,inv⟩

/-! ### Runs -/

variable {cronNext : Bytes → Int → Int}

theorem stepInv (inv : Inv pid w k) {a : Act} (clean : Clean pid w a) (is : step cronNext w a = some w') : ∃ k', Inv pid w' k' := by
  cases a with
  | find c id =>
    simp only [step] at is
    split at is <;> cases is
    rename_i at_ _
    exact ⟨k,inv.find c id at_⟩
  | test c =>
    simp only [step] at is
    split at is <;> cases is
    rename_i i id at_
    exact ⟨k,inv.test c i id at_⟩
  | mark c =>
    simp only [step] at is
    split at is <;> cases is
    rename_i i id at_
    exact ⟨k,inv.mark c i id at_ (clean i id at_)⟩
  | queue c =>
    simp only [step] at is
    split at is <;> cases is
    rename_i i id at_
    exact ⟨k,inv.queue c i id at_⟩
  | inline c finishes =>
    simp only [step] at is
    split at is <;> cases is
    rename_i i id at_
    exact ⟨k,inv.inline c i id finishes at_⟩
  | inlineEnd c ok =>
    simp only [step] at is
    split at is <;> cases is
    rename_i i id finishes at_
    exact ⟨k,inv.inlineEnd c i id finishes ok at_⟩
  | args c =>
    simp only [step] at is
    split at is <;> cases is
    rename_i i id at_
    exact ⟨k,inv.args c i id at_⟩
  | finish c =>
    simp only [step] at is
    split at is <;> cases is
    rename_i id dest s at_ _
    exact ⟨k,inv.finish c id dest s at_ rfl rfl rfl rfl (fun same => by rw [Call.mode,if_pos same]; nofun) fun other => if_neg other⟩
  | take c =>
    simp only [step] at is
    split at is <;> cases is
    rename_i id p at_
    exact ⟨k,inv.take c id p at_⟩
  | workEnd c ok =>
    simp only [step] at is
    split at is <;> cases is
    rename_i id p at_
    exact ⟨k,inv.workEnd c id p ok at_⟩
  | workFinish c =>
    simp only [step] at is
    split at is <;> cases is
    rename_i id p at_ _
    exact ⟨k,inv.finish c id p.id p.status at_ rfl rfl rfl rfl (fun same => by rw [Call.mode,if_pos same]; nofun)
      fun other => if_neg other⟩
  | hookFind c token =>
    simp only [step] at is
    split at is <;> cases is
    rename_i at_ _
    exact ⟨k,inv.hookFind c token at_⟩
  | hookTest c method =>
    simp only [step] at is
    split at is <;> cases is
    rename_i i id token at_
    exact ⟨k,inv.hookTest c i id token method at_⟩
  | hookRun c =>
    simp only [step] at is
    split at is <;> cases is
    rename_i i id at_ free
    exact ⟨k,inv.hookRun c i id at_ free (clean i id at_)⟩
  | hookRunEnd c ok =>
    simp only [step] at is
    split at is <;> cases is
    rename_i i id at_
    exact ⟨k,inv.hookRunEnd c i id ok at_⟩
  | hookAgain c =>
    simp only [step] at is
    split at is <;> cases is
    rename_i i id at_
    exact ⟨k,inv.hookAgain c i id at_⟩
  | hookAgainEnd c ok =>
    simp only [step] at is
    split at is <;> cases is
    rename_i i id at_
    exact ⟨k,inv.hookAgainEnd c i id ok at_⟩
  | tick now =>
    simp only [step] at is
    split at is <;> cases is
    rename_i at_ free
    refine ⟨k,inv.turn (fun _ => rfl) (.inr free) (fun _ => rfl) (by simp) (.same ?_ rfl)⟩
    rw [World.mode,at_]
    rfl
  | tickTest =>
    simp only [step] at is
    split at is <;> cases is
    rename_i i now at_
    exact ⟨k,inv.tickTest cronNext i now at_⟩
  | tickMark =>
    simp only [step] at is
    split at is <;> cases is
    rename_i i now at_
    exact ⟨k,inv.tickMark cronNext i now at_ (clean i now at_)⟩
  | tickEnd ok =>
    simp only [step] at is
    split at is <;> cases is
    rename_i i now at_
    exact ⟨k,inv.tickEnd i now ok at_⟩
  | add p =>
    simp only [step] at is
    split at is <;> cases is
    rename_i free
    exact ⟨k,inv.add free p clean⟩
  | remove id =>
    simp only [step] at is
    split at is <;> cases is
    rename_i free
    exact inv.remove free id clean.1 clean.2

theorem Inv.progress (inv : Inv pid w k) (e : Runner) : InProgress pid w e ↔ w.mode pid k e ≠ none := by
  cases e with
  | none =>
    rw [InProgress,World.mode]
    cases at_ : w.tick with
    | running i now =>
      dsimp only [Tick.mode]
      rw [(inv.found (inv.locks.span i now (.inr at_))).1]
      split <;> simp_all
    | _ => simp [Tick.mode]
  | some c =>
    have l := inv.each c
    rw [InProgress,World.mode]
    cases at_ : w.calls c <;> rw [at_] at l <;> dsimp only [Call.mode]
    case marked i id | inline i id _ | ran i id =>
      rw [← l.slotName inv.here rfl]
      simp
    case hookRunning i id | hookRan i id | hookAgain i id =>
      rw [← l.slotName inv.here rfl]
      simpa using fun same => l.hooked rfl (congrArg some same)
    case finishing id dest _ =>
      rw [← l.copy id dest rfl]
      simp
    case queued id p | working id p | worked id p =>
      rw [← l.copy id p.id rfl]
      simp
    all_goals simp

theorem Inv.kept (inv : Inv pid w k) : Kept pid w where
  alone e e' run run' := inv.alone e e' ((inv.progress e).mp run) ((inv.progress e').mp run')
  once c accepted := by
    have l := inv.each c
    rw [Accepted] at accepted
    split at accepted
    · rename_i id p at_
      rw [at_] at l
      subst accepted
      exact .inl ⟨⟨p,at_⟩,l.own rfl⟩
    · rename_i at_
      rw [at_,accepted] at l
      exact .inr (l.own rfl)
    · rename_i at_
      rw [at_,accepted] at l
      exact .inr (l.own rfl)
    · rename_i at_
      rw [at_,accepted] at l
      exact .inr (l.own rfl)
    · rename_i at_
      rw [at_,accepted] at l
      exact absurd rfl (l.hooked rfl)
    · exact accepted.elim
  own c mem := by
    by_contra other
    exact (inv.each c).others other mem
  clear none_ j less is busy := by
    rw [inv.only j less is] at busy
    obtain ⟨e,run⟩ := inv.flag.mp busy
    exact none_ e ((inv.progress e).mpr (by rw [run]; nofun))

theorem startInv {slots : Nat → Pipeline} {n : Nat} (place : k < n) (here : (slots k).id = pid)
    (only : ∀ j < n, (slots j).id = pid → j = k) (clear : (slots k).status ≠ .running) : Inv pid (World.start slots n) k where
  place := place
  here := here
  only := only
  locks := ⟨nofun,nofun,by simp [World.start]⟩
  each _ := ⟨nofun,nofun,nofun,nofun,nofun,fun _ => List.not_mem_nil,fun _ => rfl⟩
  flag := ⟨fun busy => absurd busy clear,fun ⟨e,busy⟩ => by cases e <;> cases busy⟩
  alone e _ run := absurd (by cases e <;> rfl) run

theorem triggersKept (cronNext : Bytes → Int → Int) {pid : Bytes} {slots : Nat → Pipeline} {n k : Nat} (place : k < n)
    (here : (slots k).id = pid) (only : ∀ j < n, (slots j).id = pid → j = k) (clear : (slots k).status ≠ .running)
    {acts : List Act} {w : World} (clean : along (step cronNext) (Clean pid) (World.start slots n) acts)
    (reach : run (step cronNext) (World.start slots n) acts = some w) : Kept pid w := by
  obtain ⟨_,inv⟩ := @runInvariant _ _ (step cronNext) (Clean pid) (fun w => ∃ k, Inv pid w k)
    (fun w a w' ⟨_,inv⟩ ok is => stepInv inv ok is) _ _ acts ⟨k,startInv place here only clear⟩ clean reach
  exact inv.kept

/-- A pipeline with one webhook. -/
def hourly : Pipeline := ⟨ascii "p",true,none,[⟨ascii "t",ascii "POST"⟩],0,.pending⟩

def manualRun : List Act :=
  [ .find 0 (ascii "p"),.test 0,.mark 0,.tick 60,.inline 0 true,.tickTest,.inlineEnd 0 true,.tickTest,.args 0,.finish 0]

theorem manualKept : ∃ w, run (step fun _ now => now + 3600) (World.start (fun _ => hourly) 1) manualRun = some w ∧
      w.calls 0 = .ended (ascii "p") true ∧ Kept (ascii "p") w := by
  refine ⟨_,rfl,rfl,@triggersKept (fun _ now => now + 3600) (ascii "p") (fun _ => hourly) 1 0 Nat.zero_lt_one rfl (fun j less _ => Nat.lt_one_iff.mp less)
    (fun is => by cases is) manualRun _ ?_ rfl⟩
  refine And.intro trivial (And.intro trivial (And.intro ?_ ?_))
  · intro i id at_ here
    cases at_
    refine ⟨nofun,fun d is => ?_⟩
    cases d with
    | zero => cases is
    | succ d => cases is
  · exact And.intro trivial (And.intro trivial (And.intro trivial (And.intro trivial (And.intro trivial (And.intro trivial
      (And.intro trivial trivial))))))

/-- Only other pipelines are added and removed. -/
def Others (pid : Bytes) : Act → Prop
  | .add p => p.id ≠ pid
  | .remove id => id ≠ pid
  | _ => True

theorem hookRunsTwice : ¬ ∀ acts w, along (step fun _ now => now + 3600) (fun _ => Others (ascii "p")) (World.start (fun _ => hourly) 1) acts →
    run (step fun _ now => now + 3600) (World.start (fun _ => hourly) 1) acts = some w → Kept (ascii "p") w := by
  intro kept
  have once := (kept [.hookFind 0 (ascii "t"),.hookTest 0 (ascii "POST"),.hookRun 0,.hookRunEnd 0 true,.hookAgain 0,.hookAgainEnd 0 true]
    _ (And.intro trivial (And.intro trivial (And.intro trivial (And.intro trivial (And.intro trivial (And.intro trivial trivial)))))) rfl).once 0 rfl
  rcases once with ⟨⟨p,is⟩,_⟩ | once
  · cases is
  · cases once

end Napastak.Triggers
