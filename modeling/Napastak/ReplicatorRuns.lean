import Napastak.Replicator
import Mathlib.Data.List.Infix
import Mathlib.Data.List.Range

/-! Runs of the replication: what the replicas hold and what the last acknowledged number says. -/
namespace Napastak.Replicator
open Replay

/-! ### What a step does -/

theorem takeStep {w w' : World} (moved : step w .take = some w') : ∃ item rest, w.sending = none ∧ w.queue = item :: rest ∧
    w' = {w with queue := rest, sending := some ⟨item,0,false⟩} := by
  simp only [step] at moved
  split at moved
  · rename_i item rest idle queue
    exact ⟨item,rest,idle,queue,(Option.some.inj moved).symm⟩
  · cases moved

theorem sendStep {w w' : World} {o : SendOutcome} (moved : step w (.send o) = some w') : ∃ s r r' waiting,
    w.sending = some s ∧ w.replicas[s.replica]? = some r ∧ s.waiting = false ∧ r.send s.item o = some (r',waiting) ∧
      w' = w.next s r' waiting := by
  simp only [step,bind,Option.bind_eq_some_iff] at moved
  obtain ⟨s,sending,r,at_,moved⟩ := moved
  split at moved
  · cases moved
  · rename_i ready
    obtain ⟨⟨r',waiting⟩,sent,moved⟩ := Option.bind_eq_some_iff.mp moved
    exact ⟨s,r,r',waiting,sending,at_,Bool.eq_false_iff.mpr ready,sent,(Option.some.inj moved).symm⟩

theorem recvAckStep {w w' : World} (moved : step w .recvAck = some w') : ∃ s r, w.sending = some s ∧
    w.replicas[s.replica]? = some r ∧ s.waiting = true ∧ r.ack.isSome = true ∧ w' = w.next s {r with ack := none} false := by
  simp only [step,bind,Option.bind_eq_some_iff] at moved
  obtain ⟨s,sending,r,at_,moved⟩ := moved
  split at moved
  · rename_i both
    exact ⟨s,r,sending,at_,both.1,both.2,(Option.some.inj moved).symm⟩
  · cases moved

theorem recvFailedStep {w w' : World} (moved : step w .recvFailed = some w') : ∃ s r, w.sending = some s ∧
    w.replicas[s.replica]? = some r ∧ w' = w.next s r.disconnect false := by
  simp only [step,bind,Option.bind_eq_some_iff] at moved
  obtain ⟨s,sending,r,at_,moved⟩ := moved
  split at moved
  · exact ⟨s,r,sending,at_,(Option.some.inj moved).symm⟩
  · cases moved

theorem finishStep {w w' : World} (moved : step w .finish = some w') : ∃ s, w.sending = some s ∧ s.waiting = false ∧
    w.replicas.length ≤ s.replica ∧ w' = {w with sending := none, lastAckedLsn := s.item.lsn} := by
  simp only [step,bind,Option.bind_eq_some_iff] at moved
  obtain ⟨s,sending,moved⟩ := moved
  split at moved
  · rename_i over_
    exact ⟨s,sending,over_.1,over_.2,(Option.some.inj moved).symm⟩
  · cases moved

theorem handleStep {w w' : World} {i message : Nat} {ok : Bool} (moved : step w (.handle i message ok) = some w') :
    ∃ r r', w.replicas[i]? = some r ∧ r.handle message ok = some r' ∧ w' = {w with replicas := w.replicas.set i r'} := by
  simp only [step,bind,Option.bind_eq_some_iff] at moved
  obtain ⟨r,at_,r',handled,moved⟩ := moved
  exact ⟨r,r',at_,handled,(Option.some.inj moved).symm⟩

theorem loseStep {w w' : World} {i message : Nat} (moved : step w (.lose i message) = some w') : ∃ r, w.replicas[i]? = some r ∧
    w' = {w with replicas := w.replicas.set i {r with inbox := r.inbox.eraseIdx message}} := by
  simp only [step,bind,Option.bind_eq_some_iff] at moved
  obtain ⟨r,at_,moved⟩ := moved
  split at moved
  · exact ⟨r,at_,(Option.some.inj moved).symm⟩
  · cases moved

theorem handleIs {r r' : Replica} {message : Nat} {ok : Bool} (handled : r.handle message ok = some r') :
    ∃ item connection, r.inbox[message]? = some (item,connection) ∧ r'.inbox = r.inbox.eraseIdx message ∧
      r'.applied = if ok then r.applied ++ [item] else r.applied := by
  unfold Replica.handle at handled
  split at handled
  · cases handled
  · rename_i item connection at_
    split at handled
    · cases handled
    · cases handled
      exact ⟨item,connection,at_,rfl,rfl⟩

theorem connectKeeps (r : Replica) : r.connect.inbox = r.inbox ∧ r.connect.applied = r.applied ∧
    (r.ack = none → r.connect.ack = none) := by
  unfold Replica.connect
  split
  · exact ⟨rfl,rfl,id⟩
  · exact ⟨rfl,rfl,fun _ => rfl⟩

/-! ### Every run -/

/-- What travels and what is applied was logged. -/
structure Origin (w : World) : Prop where
  queue : ∀ item ∈ w.queue, item ∈ w.logged
  sending : ∀ s, w.sending = some s → s.item ∈ w.logged
  replicas : ∀ r ∈ w.replicas, (∀ m ∈ r.inbox, m.1 ∈ w.logged) ∧ ∀ item ∈ r.applied, item ∈ w.logged

def Numbered (w : World) : Prop := ∀ table, (ofTable table w.logged).map ReplItem.lsn = List.range (w.nextLsn table)

theorem setReplica {rs : List Replica} {i : Nat} {r : Replica} {P : Replica → Prop} (all : ∀ x ∈ rs, P x) (new : P r) :
    ∀ x ∈ rs.set i r, P x := fun x mem => by
  rcases List.mem_or_eq_of_mem_set mem with old | rfl
  · exact all x old
  · exact new

theorem Origin.moved {w : World} {s : Sending} {r r' : Replica} {waiting : Bool} (o : Origin w) (sending : w.sending = some s)
    (at_ : w.replicas[s.replica]? = some r) (inbox : ∀ m ∈ r'.inbox, m ∈ r.inbox ∨ m.1 = s.item)
    (applied : r'.applied = r.applied) : Origin (w.next s r' waiting) where
  queue := o.queue
  sending := fun s' is => by cases is; exact o.sending s sending
  replicas := by
    have old := o.replicas r (List.mem_of_getElem? at_)
    refine setReplica o.replicas ⟨fun m mem => ?_,fun item mem => old.2 item (applied ▸ mem)⟩
    rcases inbox m mem with kept | new
    · exact old.1 m kept
    · exact new ▸ o.sending s sending

theorem originStep (w : World) (a : Act) (w' : World) (o : Origin w) (_ : True) (moved : step w a = some w') : Origin w' := by
  cases a with
  | append table data =>
    cases moved
    refine ⟨fun item mem => ?_,fun s is => List.mem_append_left _ (o.sending s is),fun r mem =>
      ⟨fun m here => List.mem_append_left _ ((o.replicas r mem).1 m here),
        fun item here => List.mem_append_left _ ((o.replicas r mem).2 item here)⟩⟩
    simp only [replicatorEnqueue] at mem
    split at mem
    · exact List.mem_append_left _ (o.queue item mem)
    · rcases List.mem_append.mp mem with old | new
      · exact List.mem_append_left _ (o.queue item old)
      · exact List.mem_append_right _ new
  | addReplica =>
    simp only [step] at moved
    split at moved
    · cases moved; exact o
    · cases moved
      refine ⟨o.queue,o.sending,fun r mem => ?_⟩
      rcases List.mem_append.mp mem with old | new
      · exact o.replicas r old
      · rw [List.mem_singleton.mp new]
        exact ⟨fun m here => (List.not_mem_nil here).elim,fun item here => (List.not_mem_nil here).elim⟩
  | take =>
    obtain ⟨item,rest,_,queue,rfl⟩ := takeStep moved
    exact ⟨fun x mem => o.queue x (queue ▸ List.mem_cons_of_mem _ mem),
      fun s is => by cases is; exact o.queue item (queue ▸ List.mem_cons_self),o.replicas⟩
  | send outcome =>
    obtain ⟨s,r,r',waiting,sending,at_,_,sent,rfl⟩ := sendStep moved
    have kept := connectKeeps r
    cases outcome with
    | connectFailed =>
      simp only [Replica.send] at sent
      split at sent
      · cases sent
      · cases sent
        exact o.moved sending at_ (fun _ mem => Or.inl mem) rfl
    | sendFailed =>
      cases sent
      exact o.moved sending at_ (fun _ mem => Or.inl (kept.1 ▸ mem)) kept.2.1
    | sent =>
      cases sent
      refine o.moved sending at_ (fun m mem => ?_) kept.2.1
      rcases List.mem_append.mp mem with old | new
      · exact Or.inl (kept.1 ▸ old)
      · exact Or.inr (by rw [List.mem_singleton.mp new])
  | recvAck =>
    obtain ⟨s,r,sending,at_,_,_,rfl⟩ := recvAckStep moved
    exact o.moved sending at_ (fun _ mem => Or.inl mem) rfl
  | recvFailed =>
    obtain ⟨s,r,sending,at_,rfl⟩ := recvFailedStep moved
    exact o.moved sending at_ (fun _ mem => Or.inl mem) rfl
  | finish =>
    obtain ⟨s,sending,_,_,rfl⟩ := finishStep moved
    exact ⟨o.queue,fun _ is => (by cases is),o.replicas⟩
  | handle i message ok =>
    obtain ⟨r,r',at_,handled,rfl⟩ := handleStep moved
    obtain ⟨item,connection,here,inbox,applied⟩ := handleIs handled
    have old := o.replicas r (List.mem_of_getElem? at_)
    refine ⟨o.queue,o.sending,setReplica o.replicas ⟨fun m mem => ?_,fun x mem => ?_⟩⟩
    · rw [inbox] at mem
      exact old.1 m (List.mem_of_mem_eraseIdx mem)
    · rw [applied] at mem
      split at mem
      · rcases List.mem_append.mp mem with kept | new
        · exact old.2 x kept
        · rw [List.mem_singleton.mp new]
          exact old.1 _ (List.mem_of_getElem? here)
      · exact old.2 x mem
  | lose i message =>
    obtain ⟨r,at_,rfl⟩ := loseStep moved
    have old := o.replicas r (List.mem_of_getElem? at_)
    exact ⟨o.queue,o.sending,setReplica o.replicas ⟨fun m mem => old.1 m (List.mem_of_mem_eraseIdx mem),old.2⟩⟩

/-- Only an append logs and only a new replica makes the list of replicas longer. -/
theorem quietStep {w w' : World} {a : Act} (moved : step w a = some w') :
    ((∃ table data, a = .append table data) ∨ w'.logged = w.logged ∧ w'.nextLsn = w.nextLsn) ∧
      (a = .addReplica ∨ w'.replicas.length = w.replicas.length) := by
  cases a with
  | append table data => cases moved; exact ⟨Or.inl ⟨table,data,rfl⟩,Or.inr rfl⟩
  | addReplica =>
    simp only [step] at moved
    split at moved <;> cases moved <;> exact ⟨Or.inr ⟨rfl,rfl⟩,Or.inl rfl⟩
  | take => obtain ⟨item,rest,_,_,rfl⟩ := takeStep moved; exact ⟨Or.inr ⟨rfl,rfl⟩,Or.inr rfl⟩
  | send outcome =>
    obtain ⟨s,r,r',waiting,_,_,_,_,rfl⟩ := sendStep moved
    exact ⟨Or.inr ⟨rfl,rfl⟩,Or.inr (List.length_set ..)⟩
  | recvAck => obtain ⟨s,r,_,_,_,_,rfl⟩ := recvAckStep moved; exact ⟨Or.inr ⟨rfl,rfl⟩,Or.inr (List.length_set ..)⟩
  | recvFailed => obtain ⟨s,r,_,_,rfl⟩ := recvFailedStep moved; exact ⟨Or.inr ⟨rfl,rfl⟩,Or.inr (List.length_set ..)⟩
  | finish => obtain ⟨s,_,_,_,rfl⟩ := finishStep moved; exact ⟨Or.inr ⟨rfl,rfl⟩,Or.inr rfl⟩
  | handle i message ok => obtain ⟨r,r',_,_,rfl⟩ := handleStep moved; exact ⟨Or.inr ⟨rfl,rfl⟩,Or.inr (List.length_set ..)⟩
  | lose i message => obtain ⟨r,_,rfl⟩ := loseStep moved; exact ⟨Or.inr ⟨rfl,rfl⟩,Or.inr (List.length_set ..)⟩

theorem ofTableAppend (table : Bytes) (xs ys : List ReplItem) : ofTable table (xs ++ ys) = ofTable table xs ++ ofTable table ys :=
  List.filter_append ..

theorem numberedStep (w : World) (a : Act) (w' : World) (n : Numbered w) (_ : True) (moved : step w a = some w') : Numbered w' := by
  rcases (quietStep moved).1 with ⟨table,data,rfl⟩ | ⟨logged,next⟩
  · cases moved
    intro t
    show (ofTable t (w.logged ++ [⟨table,w.nextLsn table,data⟩])).map ReplItem.lsn =
      List.range (Function.update w.nextLsn table (w.nextLsn table + 1) t)
    rw [ofTableAppend,List.map_append,n t]
    by_cases same : t = table
    · subst same
      rw [Function.update_self,List.range_succ]
      simp [ofTable]
    · rw [Function.update_of_ne same]
      simp [ofTable,Ne.symm same]
  · intro t
    rw [logged,next]
    exact n t

theorem runOrigin {acts : List Act} {w : World} (reach : run step start acts = some w) : Origin w ∧ Numbered w := by
  refine ⟨runInvariant originStep ⟨?_,?_,?_⟩ (alongAlways start acts) reach,
    runInvariant numberedStep (fun _ => rfl) (alongAlways start acts) reach⟩
  · exact fun item mem => (List.not_mem_nil mem).elim
  · exact fun s is => by cases is
  · exact fun r mem => (List.not_mem_nil mem).elim

theorem stepGrows {w w' : World} {a : Act} (moved : step w a = some w') :
    w.logged.length ≤ w'.logged.length ∧ w.replicas.length ≤ w'.replicas.length := by
  obtain ⟨log,reps⟩ := quietStep moved
  constructor
  · rcases log with ⟨table,data,rfl⟩ | ⟨same,_⟩
    · cases moved
      simp
    · rw [same]
  · rcases reps with rfl | same
    · simp only [step] at moved
      split at moved <;> cases moved <;> simp
    · rw [same]

theorem runGrows {w w' : World} {acts : List Act} (reach : run step w acts = some w') :
    w.logged.length ≤ w'.logged.length ∧ w.replicas.length ≤ w'.replicas.length := by
  induction acts generalizing w with
  | nil => cases reach; exact ⟨Nat.le_refl _,Nat.le_refl _⟩
  | cons a acts ih =>
    obtain ⟨mid,first,rest⟩ := Option.bind_eq_some_iff.mp reach
    have one := stepGrows first
    have more := ih rest
    exact ⟨one.1.trans more.1,one.2.trans more.2⟩

/-! ### When every state is replicated -/

/-- Number 0 is both the first record's and the one acknowledged before any. -/
theorem firstUnapplied {w : World} {r : Replica} {table : Bytes} (numbered : Numbered w) (mem : r ∈ w.replicas)
    (blank : r.applied = []) (some_ : ofTable table w.logged ≠ []) : ¬ Replicated w := by
  intro ⟨_,acked⟩
  have first : 0 ∈ (ofTable table w.logged).map ReplItem.lsn := by
    have length := congrArg List.length (numbered table)
    rw [List.length_map,List.length_range] at length
    rw [numbered table,List.mem_range,← length]
    exact List.length_pos_iff.mpr some_
  obtain ⟨item,here,zero⟩ := List.mem_map.mp first
  have applied := acked 0 (Nat.le_refl _) (Nat.zero_le _) item (List.mem_filter.mp here).1 (Nat.le_of_eq zero) r mem
  rw [blank] at applied
  exact List.not_mem_nil applied

theorem ofOwnTable {item : ReplItem} {items : List ReplItem} (mem : item ∈ items) : ofTable item.tableName items ≠ [] :=
  List.ne_nil_of_mem (List.mem_filter.mpr ⟨mem,decide_eq_true rfl⟩)

theorem unreplicatedState {acts : List Act} {w : World} (reach : run step start acts = some w) (logged : w.logged ≠ [])
    (replicas : w.replicas ≠ []) : ∃ before w', before <+: acts ∧ run step start before = some w' ∧ ¬ Replicated w' := by
  induction acts using List.reverseRecOn generalizing w with
  | nil => cases reach; exact absurd rfl logged
  | append_singleton acts a ih =>
    have reached := reach
    rw [runSnoc] at reach
    obtain ⟨w₀,before,last⟩ := Option.bind_eq_some_iff.mp reach
    obtain ⟨origin,_⟩ := runOrigin before
    obtain ⟨_,numbered⟩ := runOrigin reached
    by_cases both : w₀.logged ≠ [] ∧ w₀.replicas ≠ []
    · obtain ⟨early,w',pre,at_,bad⟩ := ih before both.1 both.2
      exact ⟨early,w',pre.trans (List.prefix_append ..),at_,bad⟩
    refine ⟨acts ++ [a],w,List.prefix_rfl,reached,?_⟩
    obtain ⟨log,reps⟩ := quietStep last
    by_cases fresh : w₀.logged = []
    · -- the first record has just been logged
      rcases log with ⟨table,data,rfl⟩ | ⟨same,_⟩
      · cases last
        obtain ⟨r,rest,is⟩ := List.exists_cons_of_ne_nil replicas
        have mem : r ∈ w₀.replicas := is ▸ List.mem_cons_self
        refine @firstUnapplied _ r table numbered mem ?_ ?_
        · exact List.eq_nil_iff_forall_not_mem.mpr fun x here => List.not_mem_nil (fresh ▸ (origin.replicas r mem).2 x here)
        · exact @ofOwnTable ⟨table,w₀.nextLsn table,data⟩ _ (List.mem_append_right _ (List.mem_singleton_self _))
      · exact absurd (same.trans fresh) logged
    · -- the first replica has just come
      have none_ : w₀.replicas = [] := by
        by_contra some_
        exact both ⟨fresh,some_⟩
      rcases reps with rfl | same
      · obtain ⟨item,rest,is⟩ := List.exists_cons_of_ne_nil fresh
        simp only [step,none_] at last
        cases last
        exact @firstUnapplied _ Replica.new item.tableName numbered (List.mem_singleton_self _) rfl
          (ofOwnTable (show item ∈ w₀.logged from is ▸ List.mem_cons_self))
      · rw [none_] at same
        exact absurd (List.length_eq_zero_iff.mp same) replicas

theorem replicatedVacuous {w : World} (origin : Origin w) (idle : w.logged = [] ∨ w.replicas = []) : Replicated w := by
  rcases idle with none_ | none_
  · refine ⟨fun r mem table => ?_,fun n _ _ item here => (List.not_mem_nil (none_ ▸ here)).elim⟩
    have blank : r.applied = [] :=
      List.eq_nil_iff_forall_not_mem.mpr fun x here => List.not_mem_nil (none_ ▸ (origin.replicas r mem).2 x here)
    rw [blank]
    exact ⟨List.nil_prefix,rfl⟩
  · exact ⟨fun r mem => (List.not_mem_nil (none_ ▸ mem)).elim,fun n _ _ item _ _ r mem => (List.not_mem_nil (none_ ▸ mem)).elim⟩

theorem alwaysReplicated {acts : List Act} {w : World} (reach : run step start acts = some w) :
    (∀ before w', before <+: acts → run step start before = some w' → Replicated w') ↔ w.logged = [] ∨ w.replicas = [] := by
  constructor
  · intro always
    by_contra both
    obtain ⟨before,w',pre,at_,bad⟩ := unreplicatedState reach (fun is => both (Or.inl is)) fun is => both (Or.inr is)
    exact bad (always before w' pre at_)
  · rintro idle before w' ⟨rest,rfl⟩ at_
    rw [runAppend,at_] at reach
    have grows := runGrows reach
    refine replicatedVacuous (runOrigin at_).1 (idle.imp (fun is => ?_) fun is => ?_)
    · rw [is] at grows
      exact List.length_eq_zero_iff.mp (Nat.le_zero.mp grows.1)
    · rw [is] at grows
      exact List.length_eq_zero_iff.mp (Nat.le_zero.mp grows.2)

/-! ### Smooth runs -/

/-- The replica has the records, and nothing is under way to it. -/
structure Idle (items : List ReplItem) (r : Replica) : Prop where
  applied : r.applied = items
  inbox : r.inbox = []
  ack : r.ack = none

/-- Where a replica stands while the worker is at the record after `finished`. -/
def Stands (finished : List ReplItem) (sending : Option Sending) (j : Nat) (r : Replica) : Prop :=
  match sending with
  | none => Idle finished r
  | some s =>
    if j < s.replica then Idle (finished ++ [s.item]) r
    else if j = s.replica ∧ s.waiting = true then
      (r.applied = finished ∧ r.ack = none ∧ ∃ connection, r.inbox = [(s.item,connection)]) ∨
        r.applied = finished ++ [s.item] ∧ r.inbox = []
    else Idle finished r

def inHand (sending : Option Sending) : List ReplItem := sending.toList.map Sending.item

def lastLsn (items : List ReplItem) : Nat := (items.getLast?.map ReplItem.lsn).getD 0

structure Progress (finished : List ReplItem) (w : World) : Prop where
  logged : w.logged = finished ++ inHand w.sending ++ w.queue
  acked : w.lastAckedLsn = lastLsn finished
  stands : ∀ j r, w.replicas[j]? = some r → Stands finished w.sending j r

theorem standsElsewhere {finished : List ReplItem} {s : Sending} {j : Nat} {r : Replica} (other : j ≠ s.replica) :
    Stands finished (some s) j r ↔ if j < s.replica then Idle (finished ++ [s.item]) r else Idle finished r := by
  simp only [Stands,other,false_and,if_false]

theorem Progress.next {finished : List ReplItem} {w : World} {s : Sending} {r' : Replica} {waiting : Bool}
    (p : Progress finished w) (sending : w.sending = some s)
    (own : Stands finished (some {s with replica := if waiting then s.replica else s.replica + 1, waiting := waiting}) s.replica r') :
    Progress finished (w.next s r' waiting) where
  logged := by
    have before := p.logged
    rw [sending] at before
    exact before
  acked := p.acked
  stands j r at_ := by
    replace at_ : (w.replicas.set s.replica r')[j]? = some r := at_
    by_cases here : s.replica = j
    · subst here
      have inside : s.replica < w.replicas.length := by
        have := (List.getElem?_eq_some_iff.mp at_).1
        rwa [List.length_set] at this
      rw [List.getElem?_set_self inside] at at_
      cases at_
      exact own
    · rw [List.getElem?_set_ne here] at at_
      have old := p.stands j r at_
      rw [sending,standsElsewhere (Ne.symm here)] at old
      show Stands finished (some _) j r
      cases waiting with
      | true => exact (standsElsewhere (s := ⟨s.item,s.replica,true⟩) (Ne.symm here)).mpr old
      | false =>
        simp only [Bool.false_eq_true,if_false]
        by_cases next : j = s.replica + 1
        · subst next
          rw [if_neg (by omega)] at old
          simpa [Stands] using old
        · rw [standsElsewhere next]
          have less : j < s.replica + 1 ↔ j < s.replica := by omega
          simpa only [less] using old

theorem Progress.replica {finished : List ReplItem} {w : World} {i : Nat} {r' : Replica} (p : Progress finished w)
    (own : Stands finished w.sending i r') : Progress finished {w with replicas := w.replicas.set i r'} where
  logged := p.logged
  acked := p.acked
  stands j r at_ := by
    by_cases here : i = j
    · subst here
      have inside : i < w.replicas.length := by
        have := (List.getElem?_eq_some_iff.mp at_).1
        rwa [List.length_set] at this
      rw [List.getElem?_set_self inside] at at_
      cases at_
      exact own
    · rw [List.getElem?_set_ne here] at at_
      exact p.stands j r at_

/-- A replica that handles a message is the one the worker waits for. -/
theorem handledStands {finished : List ReplItem} {sending : Option Sending} {j message : Nat} {r r' : Replica}
    (stands : Stands finished sending j r) (handled : r.handle message true = some r') : Stands finished sending j r' := by
  obtain ⟨item,connection,at_,inbox,applied⟩ := handleIs handled
  have busy : r.inbox ≠ [] := fun none_ => by rw [none_] at at_; cases at_
  cases sending with
  | none => exact absurd stands.inbox busy
  | some s =>
    simp only [Stands] at stands ⊢
    split
    · rename_i before
      rw [if_pos before] at stands
      exact absurd stands.inbox busy
    · rename_i notBefore
      rw [if_neg notBefore] at stands
      split
      · rename_i here
        rw [if_pos here] at stands
        rcases stands with ⟨old,_,c,one⟩ | ⟨_,none_⟩
        · rw [one] at at_ inbox
          obtain ⟨rfl,is⟩ : message = 0 ∧ (s.item,c) = (item,connection) := by
            cases message with
            | zero => exact ⟨rfl,Option.some.inj at_⟩
            | succ => cases at_
          cases is
          exact Or.inr ⟨by rw [applied,old]; rfl,inbox⟩
        · exact absurd none_ busy
      · rename_i elsewhere
        rw [if_neg elsewhere] at stands
        exact absurd stands.inbox busy

theorem smoothStep (w : World) (a : Act) (w' : World) (inv : ∃ finished, Progress finished w) (smooth : Smooth w a)
    (moved : step w a = some w') : ∃ finished, Progress finished w' := by
  obtain ⟨finished,p⟩ := inv
  cases a with
  | append table data =>
    cases moved
    refine ⟨finished,?_,p.acked,p.stands⟩
    show w.logged ++ _ = finished ++ inHand w.sending ++ replicatorEnqueue w.queue _
    rw [replicatorEnqueue,if_neg (Nat.not_le.mpr smooth),p.logged,List.append_assoc _ w.queue]
  | addReplica =>
    simp only [step] at moved
    split at moved
    · cases moved; exact ⟨finished,p⟩
    · cases moved
      have lengths := congrArg List.length p.logged
      rw [List.length_append,← show w.queue.length = w.logged.length from smooth] at lengths
      have blank : finished ++ inHand w.sending = [] := List.length_eq_zero_iff.mp (by omega)
      obtain ⟨rfl,none_⟩ := List.append_eq_nil_iff.mp blank
      have idle : w.sending = none := by
        cases is : w.sending with
        | none => rfl
        | some s => rw [is] at none_; cases none_
      refine ⟨[],p.logged,p.acked,fun j r at_ => ?_⟩
      rcases List.mem_append.mp (List.mem_of_getElem? at_) with old | new
      · obtain ⟨k,here⟩ := List.getElem?_of_mem old
        have stands := p.stands k r here
        simp only [idle,Stands] at stands ⊢
        exact stands
      · rw [List.mem_singleton.mp new]
        simp only [idle,Stands]
        exact ⟨rfl,rfl,rfl⟩
  | take =>
    obtain ⟨item,rest,idle,queue,rfl⟩ := takeStep moved
    refine ⟨finished,by rw [p.logged,idle,queue]; simp [inHand],p.acked,fun j r at_ => ?_⟩
    have stands := p.stands j r at_
    simp only [idle,Stands] at stands
    simpa [Stands] using stands
  | send outcome =>
    obtain ⟨s,r,r',waiting,sending,at_,ready,sent,rfl⟩ := sendStep moved
    cases (show outcome = .sent from smooth)
    have stands := p.stands _ r at_
    have kept := connectKeeps r
    simp only [sending,Stands,lt_irrefl,if_false,ready,Bool.false_eq_true,and_false] at stands
    cases sent
    refine ⟨finished,p.next sending ?_⟩
    simp only [Stands,if_true,lt_irrefl,if_false,and_self]
    exact Or.inl ⟨kept.2.1.trans stands.applied,kept.2.2 stands.ack,_,by rw [kept.1,stands.inbox]; rfl⟩
  | recvAck =>
    obtain ⟨s,r,sending,at_,waiting,answered,rfl⟩ := recvAckStep moved
    have stands := p.stands _ r at_
    simp only [sending,Stands,lt_irrefl,if_false,waiting,and_self,if_true] at stands
    refine ⟨finished,p.next sending ?_⟩
    simp only [Stands,Bool.false_eq_true,if_false,Nat.lt_succ_self,if_true]
    rcases stands with ⟨_,none_,_⟩ | ⟨applied,inbox⟩
    · rw [none_] at answered; cases answered
    · exact ⟨applied,inbox,rfl⟩
  | recvFailed => exact smooth.elim
  | finish =>
    obtain ⟨s,sending,ready,all,rfl⟩ := finishStep moved
    refine ⟨finished ++ [s.item],?_,?_,fun j r at_ => ?_⟩
    · rw [p.logged,sending]
      simp [inHand]
    · simp [lastLsn]
    · have stands := p.stands j r at_
      have inside : j < w.replicas.length := (List.getElem?_eq_some_iff.mp at_).1
      rw [sending,standsElsewhere (by omega),if_pos (Nat.lt_of_lt_of_le inside all)] at stands
      exact stands
  | handle i message ok =>
    obtain ⟨r,r',at_,handled,rfl⟩ := handleStep moved
    cases (show ok = true from smooth)
    exact ⟨finished,p.replica (handledStands (p.stands i r at_) handled)⟩
  | lose i message => exact smooth.elim

/-- Between the finished records and those logged. -/
theorem standsBetween {finished : List ReplItem} {w : World} {j : Nat} {r : Replica} (p : Progress finished w)
    (at_ : w.replicas[j]? = some r) : finished <+: r.applied ∧ r.applied <+: w.logged := by
  have stands := p.stands j r at_
  have idle : ∀ items, Idle items r → r.applied = items := fun items is => is.applied
  rw [p.logged]
  cases is : w.sending with
  | none =>
    rw [is] at stands
    rw [idle _ stands]
    exact ⟨List.prefix_rfl,⟨_,List.append_assoc .. |>.symm⟩⟩
  | some s =>
    have both : r.applied = finished ∨ r.applied = finished ++ [s.item] := by
      simp only [is,Stands] at stands
      split at stands
      · exact Or.inr stands.applied
      split at stands
      · exact stands.imp (fun x => x.1) fun x => x.1
      · exact Or.inl stands.applied
    rcases both with same | same
    · rw [same]
      exact ⟨List.prefix_rfl,⟨_,List.append_assoc .. |>.symm⟩⟩
    · rw [same]
      exact ⟨List.prefix_append ..,List.prefix_append ..⟩

theorem prefixNumbered {xs : List ReplItem} {ys : List ReplItem} {n : Nat} (pre : xs <+: ys)
    (numbered : ys.map ReplItem.lsn = List.range n) : xs.map ReplItem.lsn = List.range xs.length := by
  have taken := List.prefix_iff_eq_take.mp (pre.map ReplItem.lsn)
  have short : xs.length ≤ n := by
    have := pre.length_le
    have := congrArg List.length numbered
    rw [List.length_map,List.length_range] at this
    omega
  rw [numbered,List.length_map,List.take_range,Nat.min_eq_left short] at taken
  exact taken

/-- With the records of one table only, the last finished record has the highest number so far. -/
theorem finishedHas {finished : List ReplItem} {w : World} {table : Bytes} (p : Progress finished w) (numbered : Numbered w)
    (own : ∀ item ∈ w.logged, item.tableName = table) {n : Nat} (pos : 1 ≤ n) (acked : n ≤ w.lastAckedLsn) {item : ReplItem}
    (mem : item ∈ w.logged) (low : item.lsn ≤ n) : item ∈ finished := by
  have all : ofTable table w.logged = w.logged := List.filter_eq_self.mpr fun x here => decide_eq_true (own x here)
  have lsns := numbered table
  rw [all] at lsns
  have lsnAt : ∀ (k : Nat) (x : ReplItem), w.logged[k]? = some x → x.lsn = k := fun k x at_ => by
    have mapped : (w.logged.map ReplItem.lsn)[k]? = some x.lsn := by rw [List.getElem?_map,at_]; rfl
    rw [lsns] at mapped
    obtain ⟨inside,is⟩ := List.getElem?_eq_some_iff.mp mapped
    rw [List.getElem_range] at is
    exact is.symm
  obtain ⟨k,at_⟩ := List.getElem?_of_mem mem
  have place := lsnAt k item at_
  cases last : finished.getLast? with
  | none =>
    rw [p.acked,lastLsn,last] at acked
    exact absurd (pos.trans acked) (by decide)
  | some x =>
    rw [p.acked,lastLsn,last] at acked
    replace acked : n ≤ x.lsn := acked
    rw [List.getLast?_eq_getElem?] at last
    have inside := (List.getElem?_eq_some_iff.mp last).1
    have whole : w.logged[finished.length - 1]? = some x := by
      rw [p.logged,List.append_assoc,List.getElem?_append_left inside,last]
    have end_ := lsnAt _ x whole
    have here : finished[k]? = some item := by
      rw [p.logged,List.append_assoc,List.getElem?_append_left (by omega)] at at_
      exact at_
    exact List.mem_of_getElem? here

theorem startProgress : Progress [] start := ⟨rfl,rfl,fun j r at_ => by cases at_⟩

theorem smoothInOrder {acts : List Act} {w : World} (smooth : along step Smooth start acts) (reach : run step start acts = some w) :
    InOrder w ∧ ∀ table, (∀ item ∈ w.logged, item.tableName = table) → Acked w 1 := by
  obtain ⟨finished,p⟩ := runInvariant smoothStep ⟨[],startProgress⟩ smooth reach
  obtain ⟨_,numbered⟩ := runOrigin reach
  constructor
  · intro r mem table
    obtain ⟨j,at_⟩ := List.getElem?_of_mem mem
    have pre : ofTable table r.applied <+: ofTable table w.logged := (standsBetween p at_).2.filter _
    exact ⟨pre,prefixNumbered pre (numbered table)⟩
  · intro table own n pos acked item mem low r rmem
    obtain ⟨j,at_⟩ := List.getElem?_of_mem rmem
    exact (standsBetween p at_).1.subset (finishedHas p numbered own pos acked mem low)

/-- The claim for a whole run holds only when nothing is logged or there is no replica; in a smooth run the replicas are
in order, and with one table the acknowledged numbers from 1 on hold. -/
theorem replicationHolds {acts : List Act} {w : World} (reach : run step start acts = some w) :
    ((∀ before w', before <+: acts → run step start before = some w' → Replicated w') ↔ w.logged = [] ∨ w.replicas = []) ∧
      (along step Smooth start acts → InOrder w ∧ ∀ table, (∀ item ∈ w.logged, item.tableName = table) → Acked w 1) :=
  ⟨alwaysReplicated reach,fun smooth => smoothInOrder smooth reach⟩

def events : Bytes := ascii "events"

/-- Two records, sent, applied and answered. -/
def appliedRecords : List Act :=
  [ .addReplica, .append events (ascii "a"), .append events (ascii "b"), .take, .send .sent, .handle 0 0 true, .recvAck, .finish,
    .take, .send .sent, .handle 0 0 true, .recvAck, .finish]

theorem replicationHoldsEvents : ∃ w, run step start appliedRecords = some w ∧ InOrder w ∧
    ((∀ item ∈ w.logged, item.tableName = events) → Acked w 1) := by
  have finishes : (run step start appliedRecords).isSome = true := by decide
  obtain ⟨w,reach⟩ := Option.isSome_iff_exists.mp finishes
  have holds := (replicationHolds reach).2 (by decide)
  exact ⟨w,reach,holds.1,holds.2 events⟩

/-- Two records, of which the replica refuses the first. -/
def refusedRecord : List Act :=
  [ .addReplica, .append events (ascii "a"), .append events (ascii "b"), .take, .send .sent, .handle 0 0 false, .recvAck, .finish,
    .take, .send .sent, .handle 0 0 true, .recvAck, .finish]

theorem refusedRecordSkipped : ∃ w, run step start refusedRecord = some w ∧ ¬ InOrder w ∧ ¬ Acked w 1 := by
  have skipped : (run step start refusedRecord).any (fun w => decide (w.lastAckedLsn = 1 ∧
      w.replicas.map Replica.applied = [[⟨events,1,ascii "b"⟩]] ∧ ⟨events,0,ascii "a"⟩ ∈ w.logged)) = true := by decide
  obtain ⟨w,reach,bad⟩ := (Option.any_eq_true _ _).mp skipped
  obtain ⟨acked,applied,logged⟩ := of_decide_eq_true bad
  obtain ⟨r,mem,holds⟩ := List.mem_map.mp (applied ▸ List.mem_singleton_self _ : [⟨events,1,ascii "b"⟩] ∈ w.replicas.map Replica.applied)
  refine ⟨w,reach,fun inOrder => ?_,fun vouches => ?_⟩
  · have numbers := (inOrder r mem events).2
    rw [holds] at numbers
    exact absurd numbers (by decide)
  · have has := vouches 1 (Nat.le_refl _) (Nat.le_of_eq acked.symm) _ logged (Nat.zero_le _) r mem
    rw [holds] at has
    exact absurd has (by decide)

end Napastak.Replicator
