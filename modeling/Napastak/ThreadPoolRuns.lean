import Napastak.ThreadPool

/-! Runs of the pool in which no task is handed in behind the last worker. -/
namespace Napastak.ThreadPool
open Replay (run along runInvariant)

/-! ### Waking -/

/-- Some elements are changed by `f`, the others stay. -/
def Stirs {A : Type} (f : A → A) (xs ys : List A) : Prop := ∀ i : Nat, ys[i]? = xs[i]? ∨ ys[i]? = (xs[i]?).map f

section
variable {A : Type} {f : A → A} {xs ys : List A}

theorem stirsSelf : Stirs f xs xs := fun _ => .inl rfl

theorem stirsMap : Stirs f xs (xs.map f) := fun _ => .inr (List.getElem?_map ..)

theorem stirsSet {i : Nat} {x : A} (at_ : xs[i]? = some x) : Stirs f xs (xs.set i (f x)) := fun j => by
  by_cases same : i = j
  · subst same
    refine .inr ?_
    rw [List.getElem?_set_self (List.getElem?_eq_some_iff.mp at_).1,at_]
    rfl
  · exact .inl (List.getElem?_set_ne same)

theorem Stirs.back (stirs : Stirs f xs ys) {y : A} (mem : y ∈ ys) : ∃ x ∈ xs, y = x ∨ y = f x := by
  obtain ⟨i,at_⟩ := List.mem_iff_getElem?.mp mem
  rcases stirs i with same | same
  · exact ⟨y,List.mem_iff_getElem?.mpr ⟨i,same ▸ at_⟩,.inl rfl⟩
  · rw [same] at at_
    obtain ⟨x,is,to_⟩ := Option.map_eq_some_iff.mp at_
    exact ⟨x,List.mem_iff_getElem?.mpr ⟨i,is⟩,.inr to_.symm⟩

theorem Stirs.keeps (stirs : Stirs f xs ys) {i : Nat} {x : A} (at_ : xs[i]? = some x) (fixed : f x = x) : ys[i]? = some x := by
  rcases stirs i with same | same
  · rw [same,at_]
  · rw [same,at_,Option.map_some,fixed]

theorem Stirs.keepsMem (stirs : Stirs f xs ys) {x : A} (mem : x ∈ xs) (fixed : f x = x) : x ∈ ys := by
  obtain ⟨i,at_⟩ := List.mem_iff_getElem?.mp mem
  exact List.mem_iff_getElem?.mpr ⟨i,stirs.keeps at_ fixed⟩

theorem Stirs.map {B : Type} (stirs : Stirs f xs ys) {g : A → B} (blind : ∀ x, g (f x) = g x) : ys.map g = xs.map g := by
  refine List.ext_getElem? fun i => ?_
  rw [List.getElem?_map,List.getElem?_map]
  rcases stirs i with same | same
  · rw [same]
  · rw [same,Option.map_map]
    exact congrArg (fun h => Option.map h xs[i]?) (funext blind)

theorem Stirs.count (stirs : Stirs f xs ys) {g : A → Bool} (blind : ∀ x, g (f x) = g x) : ys.countP g = xs.countP g := by
  have same := congrArg (List.countP id) (stirs.map blind)
  rw [List.countP_map,List.countP_map] at same
  exact same

theorem Stirs.length (stirs : Stirs f xs ys) : ys.length = xs.length := by
  have same := congrArg List.length (stirs.map (g := fun _ => ()) fun _ => rfl)
  rwa [List.length_map,List.length_map] at same

theorem memSet {i : Nat} {x y z : A} (at_ : xs[i]? = some x) (mem : z ∈ xs) (other : z ≠ x) : z ∈ xs.set i y := by
  obtain ⟨j,is⟩ := List.mem_iff_getElem?.mp mem
  refine List.mem_iff_getElem?.mpr ⟨j,?_⟩
  rw [List.getElem?_set_ne,is]
  rintro rfl
  rw [at_] at is
  exact other (Option.some.inj is).symm

theorem memSetSelf {i : Nat} {x y : A} (at_ : xs[i]? = some x) : y ∈ xs.set i y :=
  List.mem_set (List.getElem?_eq_some_iff.mp at_).1 y

theorem countSet {i : Nat} {x y : A} (g : A → Bool) (at_ : xs[i]? = some x) :
    (xs.set i y).countP g + (if g x then 1 else 0) = xs.countP g + if g y then 1 else 0 := by
  obtain ⟨less,is⟩ := List.getElem?_eq_some_iff.mp at_
  have pos : g x = true → 0 < xs.countP g := fun holds => List.countP_pos_iff.mpr ⟨x,is ▸ List.getElem_mem less,holds⟩
  rw [List.countP_set less,is]
  split
  · have := pos ‹_›
    omega
  · omega

end

theorem Worker.wokenActive (k : Worker) : k.woken.active = k.active := by cases k <;> rfl

theorem Worker.wokenAwake (k : Worker) : k.woken ≠ .sleeping := by cases k <;> nofun

theorem Worker.wokenLeft {k : Worker} (left : k.woken = .left) : k = .left := by cases k <;> first | rfl | cases left

theorem Call.wokenFree (x : Call) : x.woken.blocked = false := by cases x <;> rfl

/-! ### The invariant -/

/-- A worker that goes on by itself. -/
def Worker.goes (k : Worker) : Prop := k ≠ .sleeping ∧ k ≠ .left

variable {queueMax : Nat} {p p' : Pool}

/-- What each critical section keeps before it signals. -/
structure Base (queueMax : Nat) (p : Pool) : Prop where
  size : p.queueSize = p.queue.length
  count : p.active = p.workers.countP Worker.active
  order : p.submitted = p.started ++ p.queue
  unique : p.submitted.Nodup
  handed : ∀ t ∈ p.submitted, p.calls[t]? = some .added
  ended : ∀ t ∈ p.started, t ∈ p.ended ∨ .running t ∈ p.workers
  limit : p.shutdown = false → p.queue.length ≤ queueMax
  asleep : p.shutdown = true → .sleeping ∉ p.workers
  gone : .left ∈ p.workers → p.shutdown = true
  owner : p.owner ≠ .idle → p.shutdown = true
  staffed : p.workers ≠ []
  destroyed : p.owner = .destroyed → ∀ k ∈ p.workers, k = .left

structure Inv (queueMax : Nat) (p : Pool) : Prop extends Base queueMax p where
  worked : p.queue ≠ [] → ∃ k ∈ p.workers, k.goes
  waits : ∀ x ∈ p.calls, x.blocked = true → p.active ≠ 0 ∨ p.queue ≠ []

theorem Base.stir (base : Base queueMax p) {ws : List Worker} {xs : List Call} (workers : Stirs Worker.woken p.workers ws)
    (calls : Stirs Call.woken p.calls xs) : Base queueMax {p with workers := ws, calls := xs} where
  size := base.size
  count := base.count.trans (workers.count Worker.wokenActive).symm
  order := base.order
  unique := base.unique
  handed t mem := calls.keeps (base.handed t mem) rfl
  ended t mem := (base.ended t mem).imp_right fun runs => workers.keepsMem runs rfl
  limit := base.limit
  asleep shut mem := by
    obtain ⟨k,was,same | woken⟩ := workers.back mem
    · exact base.asleep shut (same ▸ was)
    · exact k.wokenAwake woken.symm
  gone mem := by
    obtain ⟨k,was,same | woken⟩ := workers.back mem
    · exact base.gone (same ▸ was)
    · exact base.gone (Worker.wokenLeft woken.symm ▸ was)
  owner := base.owner
  staffed none_ := base.staffed (List.length_eq_zero_iff.mp (workers.length.symm.trans (List.length_eq_zero_iff.mpr none_)))
  destroyed end_ k mem := by
    obtain ⟨k',was,same | woken⟩ := workers.back mem
    · exact same.trans (base.destroyed end_ k' was)
    · rw [woken,base.destroyed end_ k' was]
      rfl

theorem Inv.stir (inv : Inv queueMax p) {ws : List Worker} {xs : List Call} (workers : Stirs Worker.woken p.workers ws)
    (calls : Stirs Call.woken p.calls xs) : Inv queueMax {p with workers := ws, calls := xs} where
  toBase := inv.toBase.stir workers calls
  worked queued := by
    obtain ⟨k,mem,awake,here⟩ := inv.worked queued
    exact ⟨k,workers.keepsMem mem (by cases k <;> first | rfl | exact absurd rfl awake),awake,here⟩
  waits x mem blocked := by
    obtain ⟨x',was,same | woken⟩ := calls.back mem
    · exact inv.waits x (same ▸ was) blocked
    · rw [woken,x'.wokenFree] at blocked
      cases blocked

theorem signalIdleStirs {k : Option Nat} (is : p.signalIdle k = some p') :
    ∃ xs, Stirs Call.woken p.calls xs ∧ p' = {p with calls := xs} := by
  cases k with
  | some c =>
    simp only [Pool.signalIdle] at is
    split at is
    · rename_i x at_
      split at is <;> cases is
      exact ⟨_,stirsSet at_,rfl⟩
    · cases is
  | none =>
    simp only [Pool.signalIdle] at is
    split at is <;> cases is
    exact ⟨_,stirsSelf,rfl⟩

/-- A signal wakes a worker, or none sleeps. -/
theorem signalWorkStirs {k : Option Nat} (is : p.signalWork k = some p') :
    ∃ ws, Stirs Worker.woken p.workers ws ∧ p' = {p with workers := ws} ∧ (.ready ∈ ws ∨ ws = p.workers ∧ .sleeping ∉ p.workers) := by
  cases k with
  | some w =>
    simp only [Pool.signalWork] at is
    split at is <;> cases is
    rename_i at_
    exact ⟨_,stirsSet at_,rfl,.inl (memSetSelf at_)⟩
  | none =>
    simp only [Pool.signalWork] at is
    split at is <;> cases is
    rename_i awake
    exact ⟨_,stirsSelf,rfl,.inr ⟨rfl,by simpa using awake⟩⟩

/-- One worker goes from `x` to `y`, neither of them in a task. -/
theorem Base.worker (base : Base queueMax p) {w : Nat} {x y : Worker} (at_ : p.workers[w]? = some x) (there : x ≠ .left)
    (idle : x.active = false) (also : y.active = false) (sleep : y = .sleeping → p.shutdown = false)
    (leave : y = .left → p.shutdown = true) : Base queueMax {p with workers := p.workers.set w y} where
  size := base.size
  count := by
    have sum := @countSet _ _ _ _ y Worker.active at_
    rw [idle,also] at sum
    exact base.count.trans sum.symm
  order := base.order
  unique := base.unique
  handed := base.handed
  ended t mem := (base.ended t mem).imp_right fun runs => memSet at_ runs (by rintro rfl; cases idle)
  limit := base.limit
  asleep shut mem := by
    rcases List.mem_or_eq_of_mem_set mem with was | new
    · exact base.asleep shut was
    · rw [sleep new.symm] at shut
      cases shut
  gone mem := (List.mem_or_eq_of_mem_set mem).elim base.gone fun new => leave new.symm
  owner := base.owner
  staffed := by simpa using base.staffed
  destroyed end_ := absurd (base.destroyed end_ x (List.mem_of_getElem? at_)) there

/-- One call goes from `x` to `y`; its task has not been handed in. -/
theorem Base.call (base : Base queueMax p) {c : Nat} {x y : Call} (at_ : p.calls[c]? = some x) (before : x ≠ .added) :
    Base queueMax {p with calls := p.calls.set c y} :=
  { base with
    handed := fun t mem => by
      have was := base.handed t mem
      refine (List.getElem?_set_ne ?_).trans was
      rintro rfl
      rw [at_] at was
      exact before (Option.some.inj was) }

/-! ### Steps -/

/-- Behind the shutdown a task is handed in only while some worker has not left. -/
def Clean (p : Pool) : Act → Prop
  | .add _ _ => p.shutdown = true → ∃ k ∈ p.workers, k ≠ .left
  | _ => True

theorem Inv.begin_ (inv : Inv queueMax p) (x : Call) (free : x.blocked = false) :
    Inv queueMax {p with calls := p.calls ++ [x]} where
  toBase := { inv.toBase with
    handed := fun t mem => by
      have was := inv.handed t mem
      exact (List.getElem?_append_left (List.getElem?_eq_some_iff.mp was).1).trans was }
  worked := inv.worked
  waits y mem blocked := by
    rcases List.mem_append.mp mem with was | new
    · exact inv.waits y was blocked
    · rw [List.mem_singleton.mp new,free] at blocked
      cases blocked

theorem Inv.destroy (inv : Inv queueMax p) : Inv queueMax {p with shutdown := true, owner := .joining}.broadcastWork := by
  have woken : ∀ k ∈ p.workers.map Worker.woken, k ≠ .sleeping := fun k mem => by
    obtain ⟨k',_,rfl⟩ := List.mem_map.mp mem
    exact k'.wokenAwake
  have stirred := inv.stir (@stirsMap _ Worker.woken p.workers) (@stirsSelf _ Call.woken p.calls)
  exact ⟨{ stirred.toBase with
    limit := nofun
    asleep := fun _ mem => woken _ mem rfl
    gone := fun _ => rfl
    owner := fun _ => rfl
    destroyed := nofun },stirred.worked,stirred.waits⟩

theorem Inv.rest (inv : Inv queueMax p) {w : Nat} (at_ : p.workers[w]? = some .ready) (none_ : p.queue = []) :
    Inv queueMax {p with workers := p.workers.set w (if p.shutdown then .left else .sleeping)} where
  toBase := inv.toBase.worker at_ nofun rfl (by split <;> rfl) (by split <;> simp_all) (by split <;> simp_all)
  worked queued := absurd none_ queued
  waits := inv.waits

theorem Base.take (base : Base queueMax p) {w t : Nat} {rest : List Nat} (at_ : p.workers[w]? = some .ready)
    (head : p.queue = t :: rest) :
    Base queueMax {p with
      workers := p.workers.set w (.running t)
      queue := rest
      queueSize := p.queueSize - 1
      active := p.active + 1
      started := p.started ++ [t]} where
  size := by
    have size := base.size
    rw [head,List.length_cons] at size
    exact Nat.sub_eq_of_eq_add size
  count := by
    have sum := @countSet _ _ _ _ (.running t) Worker.active at_
    have count := base.count
    simp only [Worker.active,Bool.false_eq_true,if_false,if_true] at sum ⊢
    omega
  order := by
    have order := base.order
    rw [head] at order
    simpa using order
  unique := base.unique
  handed := base.handed
  ended s mem := by
    rcases List.mem_append.mp mem with was | new
    · exact (base.ended s was).imp_right fun runs => memSet at_ runs nofun
    · rw [List.mem_singleton.mp new]
      exact .inr (memSetSelf at_)
  limit open_ := by
    have limit := base.limit open_
    rw [head] at limit
    exact Nat.le_of_succ_le limit
  asleep shut mem := (List.mem_or_eq_of_mem_set mem).elim (base.asleep shut) nofun
  gone mem := (List.mem_or_eq_of_mem_set mem).elim base.gone nofun
  owner := base.owner
  staffed := by simpa using base.staffed
  destroyed end_ := absurd (base.destroyed end_ _ (List.mem_of_getElem? at_)) nofun

theorem Inv.take (inv : Inv queueMax p) {w t : Nat} {rest : List Nat} {k : Option Nat} (at_ : p.workers[w]? = some .ready)
    (head : p.queue = t :: rest)
    (is : {p with
      workers := p.workers.set w (.running t)
      queue := rest
      queueSize := p.queueSize - 1
      active := p.active + 1
      started := p.started ++ [t]}.signalIdle k = some p') : Inv queueMax p' := by
  obtain ⟨xs,stirs,rfl⟩ := signalIdleStirs is
  have base := inv.toBase.take at_ head
  exact ⟨base.stir stirsSelf stirs,fun _ => ⟨_,memSetSelf at_,nofun,nofun⟩,fun _ _ _ => .inl (Nat.succ_ne_zero _)⟩

theorem Inv.runTask (inv : Inv queueMax p) {w t : Nat} (at_ : p.workers[w]? = some (.running t)) :
    Inv queueMax {p with workers := p.workers.set w (.returned t), ended := p.ended ++ [t]} where
  toBase := { inv.toBase with
    count := by
      have sum := @countSet _ _ _ _ (.returned t) Worker.active at_
      have count := inv.count
      simp only [Worker.active,if_true] at sum ⊢
      omega
    ended := fun s mem => by
      by_cases same : s = t
      · exact .inl (List.mem_append.mpr (.inr (List.mem_singleton.mpr same)))
      · exact (inv.ended s mem).imp (List.mem_append_left _) fun runs => memSet at_ runs (by simpa using same)
    asleep := fun shut mem => (List.mem_or_eq_of_mem_set mem).elim (inv.asleep shut) nofun
    gone := fun mem => (List.mem_or_eq_of_mem_set mem).elim inv.gone nofun
    staffed := by simpa using inv.staffed
    destroyed := fun end_ => absurd (inv.destroyed end_ _ (List.mem_of_getElem? at_)) nofun }
  worked _ := ⟨_,memSetSelf at_,nofun,nofun⟩
  waits := inv.waits

theorem Base.finish (base : Base queueMax p) {w t : Nat} (at_ : p.workers[w]? = some (.returned t)) :
    Base queueMax {p with workers := p.workers.set w .ready, active := p.active - 1} :=
  { base with
    count := by
      have sum := @countSet _ _ _ _ .ready Worker.active at_
      have count := base.count
      simp only [Worker.active,Bool.false_eq_true,if_false,if_true] at sum ⊢
      omega
    ended := fun s mem => (base.ended s mem).imp_right fun runs => memSet at_ runs nofun
    asleep := fun shut mem => (List.mem_or_eq_of_mem_set mem).elim (base.asleep shut) nofun
    gone := fun mem => (List.mem_or_eq_of_mem_set mem).elim base.gone nofun
    staffed := by simpa using base.staffed
    destroyed := fun end_ => absurd (base.destroyed end_ _ (List.mem_of_getElem? at_)) nofun }

theorem Inv.finish (inv : Inv queueMax p) {w t : Nat} (at_ : p.workers[w]? = some (.returned t)) :
    Inv queueMax (if p.active - 1 = 0 ∧ p.queue = [] then
      {p with workers := p.workers.set w .ready, active := p.active - 1}.broadcastIdle
      else {p with workers := p.workers.set w .ready, active := p.active - 1}) := by
  have base := inv.toBase.finish at_
  have awake : ∃ k ∈ p.workers.set w .ready, k.goes := ⟨_,memSetSelf at_,nofun,nofun⟩
  split
  · refine ⟨base.stir stirsSelf stirsMap,fun _ => awake,fun x mem blocked => ?_⟩
    obtain ⟨x',_,rfl⟩ := List.mem_map.mp mem
    rw [x'.wokenFree] at blocked
    cases blocked
  · rename_i more
    exact ⟨base,fun _ => awake,fun _ _ _ => by
      by_cases none_ : p.active - 1 = 0
      · exact .inr fun empty => more ⟨none_,empty⟩
      · exact .inl none_⟩

theorem Inv.block (inv : Inv queueMax p) (room : 0 < queueMax) {c : Nat} (at_ : p.calls[c]? = some .adding) (full : queueMax ≤ p.queueSize) :
    Inv queueMax {p with calls := p.calls.set c .full} where
  toBase := inv.toBase.call at_ nofun
  worked := inv.worked
  waits x mem blocked := by
    rcases List.mem_or_eq_of_mem_set mem with was | _
    · exact inv.waits x was blocked
    · refine .inr fun empty => ?_
      have size := inv.size
      rw [empty] at size
      exact absurd (Nat.lt_of_lt_of_le room full) (by rw [size]; nofun)

theorem Base.push (base : Base queueMax p) {c : Nat} (at_ : p.calls[c]? = some .adding)
    (free : ¬(queueMax ≤ p.queueSize ∧ p.shutdown = false)) :
    Base queueMax {p with
      calls := p.calls.set c .added
      queue := p.queue ++ [c]
      queueSize := p.queueSize + 1
      submitted := p.submitted ++ [c]} := by
  have here : (p.calls.set c .added)[c]? = some .added := List.getElem?_set_self (List.getElem?_eq_some_iff.mp at_).1
  have new : c ∉ p.submitted := fun mem => by
    have was := base.handed c mem
    rw [at_] at was
    cases was
  refine { base.call (y := .added) at_ nofun with
    size := ?_, order := ?_, unique := ?_, handed := fun t mem => ?_, limit := fun open_ => ?_ }
  · simpa using base.size
  · show p.submitted ++ [c] = p.started ++ (p.queue ++ [c])
    rw [base.order,List.append_assoc]
  · exact List.nodup_append.mpr ⟨base.unique,by simp,fun t mem s is same => new (by
      rw [← List.mem_singleton.mp is,← same]
      exact mem)⟩
  · rcases List.mem_append.mp mem with was | is
    · exact (base.call (y := .added) at_ nofun).handed t was
    · rw [List.mem_singleton.mp is]
      exact here
  · have size := base.size
    have less : ¬queueMax ≤ p.queueSize := fun full => free ⟨full,open_⟩
    show (p.queue ++ [c]).length ≤ queueMax
    rw [List.length_append,List.length_singleton]
    omega

theorem Inv.push (inv : Inv queueMax p) {c : Nat} {k : Option Nat} (at_ : p.calls[c]? = some .adding)
    (free : ¬(queueMax ≤ p.queueSize ∧ p.shutdown = false)) (clean : p.shutdown = true → ∃ k ∈ p.workers, k ≠ .left)
    (is : {p with
      calls := p.calls.set c .added
      queue := p.queue ++ [c]
      queueSize := p.queueSize + 1
      submitted := p.submitted ++ [c]}.signalWork k = some p') : Inv queueMax p' := by
  obtain ⟨ws,stirs,rfl,woken⟩ := signalWorkStirs is
  refine ⟨(inv.toBase.push at_ free).stir stirs stirsSelf,fun _ => ?_,fun _ _ _ => .inr (by simp)⟩
  rcases woken with ready | ⟨same,awake⟩
  · exact ⟨_,ready,nofun,nofun⟩
  · have staying : ∃ k ∈ p.workers, k ≠ .left := by
      cases shut : p.shutdown with
      | true => exact clean shut
      | false =>
        obtain ⟨k,mem⟩ := List.exists_mem_of_ne_nil _ inv.staffed
        refine ⟨k,mem,fun left => ?_⟩
        have := inv.gone (left ▸ mem)
        rw [shut] at this
        cases this
    obtain ⟨k,mem,here⟩ := staying
    refine ⟨k,?_,fun sleeps => awake (sleeps ▸ mem),here⟩
    show k ∈ ws
    rw [same]
    exact mem

theorem Inv.check (inv : Inv queueMax p) {c : Nat} (at_ : p.calls[c]? = some .checking) :
    Inv queueMax {p with calls := p.calls.set c (if p.active ≠ 0 ∨ p.queue ≠ [] then .busy else .waited)} where
  toBase := inv.toBase.call at_ nofun
  worked := inv.worked
  waits x mem blocked := by
    rcases List.mem_or_eq_of_mem_set mem with was | new
    · exact inv.waits x was blocked
    · split at new
      · assumption
      · rw [new] at blocked
        cases blocked

theorem stepInv (room : 0 < queueMax) (inv : Inv queueMax p) {a : Act} (clean : Clean p a) (is : step queueMax p a = some p') :
    Inv queueMax p' := by
  cases a with
  | submit =>
    simp only [step] at is
    split at is <;> cases is
    exact inv.begin_ .adding rfl
  | wait =>
    simp only [step] at is
    split at is <;> cases is
    exact inv.begin_ .checking rfl
  | destroy =>
    simp only [step] at is
    split at is <;> cases is
    exact inv.destroy
  | work w signal =>
    simp only [step] at is
    split at is
    · rename_i at_
      split at is
      · rename_i none_
        split at is <;> cases is
        exact inv.rest at_ none_
      · rename_i t rest head
        exact inv.take at_ head is
    · cases is
  | run w =>
    simp only [step] at is
    split at is <;> cases is
    exact inv.runTask ‹_›
  | finish w =>
    simp only [step] at is
    split at is <;> cases is
    exact inv.finish ‹_›
  | add c signal =>
    simp only [step] at is
    split at is
    · rename_i at_
      split at is
      · rename_i full
        split at is <;> cases is
        exact inv.block room at_ full.1
      · exact inv.push at_ ‹_› clean is
    · cases is
  | check c =>
    simp only [step] at is
    split at is <;> cases is
    exact inv.check ‹_›
  | joined =>
    simp only [step] at is
    split at is <;> cases is
    rename_i all
    exact ⟨{ inv.toBase with owner := fun _ => inv.owner (by rw [all.1]; nofun), destroyed := fun _ => all.2 },inv.worked,inv.waits⟩
  | wakeWorker w =>
    simp only [step] at is
    split at is <;> cases is
    rename_i at_
    exact inv.stir (stirsSet at_) stirsSelf
  | wakeCall c =>
    simp only [step] at is
    split at is
    · rename_i at_
      split at is <;> cases is
      exact inv.stir stirsSelf (stirsSet at_)
    · cases is

/-! ### Every run -/

theorem createInv {n : Nat} (some_ : 0 < n) : Inv queueMax (tpCreate n) where
  size := rfl
  count := (List.countP_eq_zero.mpr fun k mem => by rw [List.eq_of_mem_replicate mem]; nofun).symm
  order := rfl
  unique := List.nodup_nil
  handed := nofun
  ended := nofun
  limit _ := Nat.zero_le _
  asleep := nofun
  gone mem := absurd (List.eq_of_mem_replicate mem) nofun
  owner non := absurd rfl non
  staffed none_ := absurd (congrArg List.length none_) (by simpa [tpCreate] using Nat.ne_of_gt some_)
  destroyed := nofun
  worked non := absurd rfl non
  waits := nofun

theorem someSignal (p : Pool) : ∃ k, (p.signalIdle k).isSome := by
  by_cases none_ : p.calls.any Call.blocked = true
  · obtain ⟨x,mem,blocked⟩ := List.any_eq_true.mp none_
    obtain ⟨c,at_⟩ := List.mem_iff_getElem?.mp mem
    exact ⟨some c,by simp [Pool.signalIdle,at_,blocked]⟩
  · exact ⟨none,by simp [Pool.signalIdle,none_]⟩

theorem workerMoves {k : Worker} (mem : k ∈ p.workers) (goes : k.goes) : ∃ a, a.proceeds = true ∧ (step queueMax p a).isSome := by
  obtain ⟨w,at_⟩ := List.mem_iff_getElem?.mp mem
  cases k with
  | ready =>
    cases head : p.queue with
    | nil => exact ⟨.work w none,rfl,by simp [step,at_,head]⟩
    | cons t rest =>
      obtain ⟨k,signals⟩ := someSignal {p with
        workers := p.workers.set w (.running t)
        queue := rest
        queueSize := p.queueSize - 1
        active := p.active + 1
        started := p.started ++ [t]}
      exact ⟨.work w k,rfl,by simpa [step,at_,head] using signals⟩
  | sleeping => exact absurd rfl goes.1
  | running t => exact ⟨.run w,rfl,by simp [step,at_]⟩
  | returned t => exact ⟨.finish w,rfl,by simp [step,at_]⟩
  | left => exact absurd rfl goes.2

theorem Inv.moves (inv : Inv queueMax p) (open_ : p.queue ≠ [] ∨ (∃ x ∈ p.calls, x.blocked = true) ∨ p.owner = .joining) :
    ∃ a, a.proceeds = true ∧ (step queueMax p a).isSome := by
  have queued : p.queue ≠ [] → ∃ a, a.proceeds = true ∧ (step queueMax p a).isSome := fun some_ => by
    obtain ⟨k,mem,goes⟩ := inv.worked some_
    exact workerMoves mem goes
  rcases open_ with some_ | ⟨x,mem,blocked⟩ | joining
  · exact queued some_
  · rcases inv.waits x mem blocked with busy | some_
    · rw [inv.count] at busy
      obtain ⟨k,is,active⟩ := List.countP_pos_iff.mp (Nat.pos_of_ne_zero busy)
      exact workerMoves is ⟨(by rintro rfl; cases active),(by rintro rfl; cases active)⟩
    · exact queued some_
  · by_cases all : ∀ k ∈ p.workers, k = .left
    · exact ⟨.joined,rfl,by simpa [step,joining] using all⟩
    · have ⟨k,some_⟩ := not_forall.mp all
      obtain ⟨mem,here⟩ := Classical.not_imp.mp some_
      have shut := inv.owner (by rw [joining]; nofun)
      exact workerMoves mem ⟨fun sleeps => inv.asleep shut (sleeps ▸ mem),here⟩

theorem Inv.kept (inv : Inv queueMax p) : Kept queueMax p where
  limit := inv.limit
  order := ⟨⟨p.queue,inv.order.symm⟩,inv.unique⟩
  waits c p' is returns := by
    simp only [step] at is
    split at is <;> cases is
    rename_i at_
    simp only [List.getElem?_set_self (List.getElem?_eq_some_iff.mp at_).1,Option.some.injEq] at returns
    split at returns
    · cases returns
    · rename_i idle
      obtain ⟨none_,empty⟩ := not_or.mp idle
      have count := inv.count
      rw [Classical.not_not.mp none_] at count
      exact ⟨Classical.not_not.mp empty,fun k mem => by simpa using List.countP_eq_zero.mp count.symm k mem⟩
  destroys end_ := by
    have all := inv.destroyed end_
    have empty : p.queue = [] := by
      by_contra some_
      obtain ⟨k,mem,_,here⟩ := inv.worked some_
      exact here (all k mem)
    have order := inv.order
    rw [empty,List.append_nil] at order
    refine ⟨order.symm,fun t mem => (inv.ended t (order ▸ mem)).resolve_right fun runs => ?_⟩
    cases all _ runs
  moves := inv.moves

theorem poolKept {n queueMax : Nat} (some_ : 0 < n) (room : 0 < queueMax) {acts : List Act} {p : Pool}
    (clean : along (step queueMax) Clean (tpCreate n) acts) (reach : run (step queueMax) (tpCreate n) acts = some p) :
    Kept queueMax p :=
  (runInvariant (fun _ _ _ inv ok is => stepInv room inv ok is) (createInv some_) clean reach).kept

/-- One worker, room for one task: a call that waits for room, one that waits for the end, and the last. -/
def oneRoom : List Act :=
  [ .submit,.add 0 none,.submit,.add 1 none,.wait,.check 2,.work 0 (some 1),.add 1 none,.run 0,.finish 0,.work 0 (some 2),.check 2,
    .run 0,.destroy,.finish 0,.check 2,.work 0 none,.joined]

theorem oneRoomKept : ∃ p, run (step 1) (tpCreate 1) oneRoom = some p ∧ p.started = [0,1] ∧ Kept 1 p :=
  ⟨_,rfl,rfl,@poolKept 1 1 Nat.zero_lt_one Nat.zero_lt_one oneRoom _
    (by
      repeat' first | exact trivial | refine And.intro ?_ ?_
      all_goals exact fun _ => ⟨_,List.mem_singleton.mpr rfl,nofun⟩) rfl⟩

/-- The task of a call that waited for room over the shutdown comes when no worker is left. -/
theorem taskStrands : ¬ ∀ acts p, run (step 1) (tpCreate 1) acts = some p → Kept 1 p := by
  intro kept
  have moves := (kept [ .submit,.add 0 none,.submit,.add 1 none,.wait,.check 2,.destroy,.work 0 (some 1),.run 0,.finish 0,.work 0 none,
    .add 1 none,.check 2,.joined] _ rfl).moves (.inl nofun)
  obtain ⟨a,own,enabled⟩ := moves
  cases a with
  | work w _ | run w | finish w => cases w <;> cases enabled
  | add c _ | check c => rcases c with _ | _ | _ | c <;> cases enabled
  | joined => cases enabled
  | _ => cases own

end Napastak.ThreadPool
