import Napastak.PgWireBounds

/-! Batches of extended-protocol messages: after an error the rest of the batch is passed over until Sync,
unless the error came from the query callback. -/
namespace Napastak.PgWire

/-- Parse, Bind, Describe, Execute and Close. -/
def batchTypes : List UInt8 := [80,66,68,69,67]

/-- Those, Sync and Flush. -/
def extendedTypes : List UInt8 := 83 :: 72 :: batchTypes

def Event.isError : Event → Bool
  | .sent (.error _ _) => true
  | _ => false

def Event.isReady : Event → Bool
  | .ready _ => true
  | _ => false

def Event.isCall : Event → Bool
  | .call _ => true
  | _ => false

/-- One message taken, and what it did. -/
structure Step where
  type : UInt8
  body : Bytes
  before : Conn
  events : List Event
  after : Conn

/-- The query callback was called and sent an error. -/
def Step.callbackFailed (s : Step) : Bool := s.events.any Event.isCall && s.events.any Event.isError

/-- Extended-protocol messages taken one after the other. -/
inductive Runs (env : Env) : Conn → List Step → Conn → Prop
  | nil (c : Conn) : Runs env c [] c
  | cons (s : Step) {ss : List Step} {c : Conn} (extended : s.type ∈ extendedTypes)
      (did : dispatch env s.type s.body s.body.length s.before = .ok (s.events,s.after)) (later : Runs env s.after ss c) :
      Runs env s.before (s :: ss) c

/-- While an error is pending, messages of the batch do nothing. -/
def Skipped : Bool → List Step → Prop
  | _, [] => True
  | failed, s :: ss =>
    (failed → s.type ∈ batchTypes → s.events = [] ∧ s.after = s.before) ∧
      Skipped (!decide (s.type = 83) && (failed || s.events.any Event.isError)) ss

/-- Each Sync gets one ReadyForQuery, and nothing else gets any. -/
def Answered (ss : List Step) : Prop := ∀ s ∈ ss, s.events.countP Event.isReady = if s.type = 83 then 1 else 0

/-- No message of the batch comes after an error of the callback and before the next Sync. -/
def Quiet : Bool → List Step → Prop
  | _, [] => True
  | pending, s :: ss =>
    (pending → s.type ∉ batchTypes) ∧ Quiet (!decide (s.type = 83) && (pending || s.callbackFailed)) ss

/-! ### One message -/

/-- What a message of the batch does when none before it failed: no ReadyForQuery, something unless there is no
callback, and an error either stops the batch or came out of the callback. -/
structure Worked (env : Env) (events : List Event) (after : Conn) : Prop where
  noReady : events.countP Event.isReady = 0
  some_ : env.query.isSome → events ≠ []
  error : events.any Event.isError = (after.batchError || events.any Event.isCall && events.any Event.isError)
  one : events.any Event.isCall → after.batchError = false
  called : events.any Event.isCall → env.query.isSome

variable {env : Env} {c c' : Conn} {events : List Event} {body : Bytes} {len : Nat}

theorem workedRefuse (c : Conn) (f : Fail) : Worked env (c.refuse f).1 (c.refuse f).2 :=
  ⟨rfl,fun _ => nofun,rfl,nofun,nofun⟩

theorem workedTag (t : UInt8) (ok : c.batchError = false) : Worked env [.tag t] c :=
  ⟨rfl,fun _ => nofun,by rw [ok]; rfl,nofun,nofun⟩

theorem workedRun (sql : Bytes) (ok : c.batchError = false) : Worked env (env.run sql c).1 (env.run sql c).2 := by
  rw [Env.run]
  split
  · rename_i none_
    exact ⟨rfl,fun h => by rw [none_] at h; contradiction,by rw [ok]; rfl,nofun,nofun⟩
  · rename_i query is
    have noReady : (List.map Event.sent (query c.queries sql)).countP Event.isReady = 0 := by
      rw [List.countP_map]
      exact List.countP_eq_zero.mpr fun _ _ => by simp [Event.isReady]
    refine ⟨?_,fun _ => nofun,?_,fun _ => ok,fun _ => by rw [is]; rfl⟩
    · rw [List.countP_cons,noReady]
      rfl
    · simp [ok,Event.isCall]

theorem workedParse (ok : c.batchError = false) (did : handleParse body len c = .ok (events,c')) : Worked env events c' := by
  rw [handleParse] at did
  obtain ⟨d,decoded,did⟩ := bindGives did
  split at did
  · cases did
    exact workedRefuse c _
  · split at did <;> cases did
    · exact workedRefuse c _
    · exact workedTag 49 ok

theorem workedBind (ok : c.batchError = false) (did : handleBind body len c = .ok (events,c')) : Worked env events c' := by
  rw [handleBind] at did
  obtain ⟨d,decoded,did⟩ := bindGives did
  split at did
  · cases did
    exact workedRefuse c _
  split at did
  · cases did
    exact workedRefuse c _
  split at did <;> cases did
  · exact workedRefuse c _
  · exact workedTag 50 ok

theorem workedDescribe (ok : c.batchError = false) (did : handleDescribe len c = .ok (events,c')) :
    Worked env events c' := by
  rw [handleDescribe] at did
  split at did <;> cases did
  · exact workedRefuse c _
  · exact workedTag 110 ok

theorem workedExecute (ok : c.batchError = false) (did : handleExecute env body len c = .ok (events,c')) :
    Worked env events c' := by
  rw [handleExecute] at did
  obtain ⟨d,decoded,did⟩ := bindGives did
  split at did
  · cases did
    exact workedRefuse c _
  split at did
  · cases did
    exact workedRefuse c _
  split at did
  · cases did
    exact workedRefuse c _
  · have is := Except.ok.inj did
    rename_i po _ _ prep _
    have worked := @workedRun env c (finalSql prep.2 po.values) ok
    rw [is] at worked
    exact worked

theorem workedClose (ok : c.batchError = false) (did : handleClose body len c = .ok (events,c')) : Worked env events c' := by
  rw [handleClose] at did
  split at did
  · cases did
    exact workedTag 51 ok
  · cases decoded : decodeClose body len with
    | error e => rw [decoded] at did; cases did
    | ok d =>
      rw [decoded,bindOk] at did
      simp only at did
      split at did
      · cases did
        exact workedTag 51 (by split <;> exact ok)
      split at did <;> cases did
      · exact workedTag 51 (by split <;> exact ok)
      · exact workedTag 51 ok

/-- What one extended message does. -/
theorem stepCases (s : Step) (extended : s.type ∈ extendedTypes)
    (did : dispatch env s.type s.body s.body.length s.before = .ok (s.events,s.after)) :
    (s.type = 83 ∧ (∃ status, s.events = [.ready status]) ∧ s.after.batchError = false) ∨
    (s.type ≠ 83 ∧ s.type ∉ batchTypes ∧ s.events = [] ∧ s.after = s.before) ∨
    (s.type ∈ batchTypes ∧ s.before.batchError = true ∧ s.events = [] ∧ s.after = s.before) ∨
    (s.type ∈ batchTypes ∧ s.before.batchError = false ∧ Worked env s.events s.after) := by
  obtain ⟨type,body,before,events,after⟩ := s
  simp only at extended did ⊢
  have guarded : ∀ {handle : Except Fault Handled}, type ∈ batchTypes → unlessFailed before handle = .ok (events,after) →
      (before.batchError = false → handle = .ok (events,after) → Worked env events after) →
      (type ∈ batchTypes ∧ before.batchError = true ∧ events = [] ∧ after = before) ∨
        (type ∈ batchTypes ∧ before.batchError = false ∧ Worked env events after) := fun mem did worked => by
    rw [unlessFailed] at did
    cases failed : before.batchError with
    | true =>
      rw [failed,if_pos rfl] at did
      cases did
      exact .inl ⟨mem,rfl,rfl,rfl⟩
    | false =>
      rw [failed,if_neg Bool.false_ne_true] at did
      exact .inr ⟨mem,rfl,worked failed did⟩
  simp only [extendedTypes,batchTypes,List.mem_cons,List.not_mem_nil,or_false] at extended
  rcases extended with rfl | rfl | rfl | rfl | rfl | rfl | rfl
  · cases did
    exact .inl ⟨rfl,⟨_,rfl⟩,rfl⟩
  · cases did
    exact .inr (.inl ⟨by decide,by decide,rfl,rfl⟩)
  · exact .inr (.inr (guarded (by decide) did workedParse))
  · exact .inr (.inr (guarded (by decide) did workedBind))
  · exact .inr (.inr (guarded (by decide) did workedDescribe))
  · exact .inr (.inr (guarded (by decide) did workedExecute))
  · exact .inr (.inr (guarded (by decide) did workedClose))

/-! ### A whole run -/

theorem runAnswered {ss : List Step} (run : Runs env c ss c') : Answered ss := by
  induction run with
  | nil => nofun
  | @cons s ss _ extended did _ ih =>
    refine List.forall_mem_cons.mpr ⟨?_,ih⟩
    rcases stepCases s extended did with ⟨sync,⟨status,is⟩,_⟩ | ⟨other,_,is,_⟩ | ⟨mem,_,is,_⟩ | ⟨mem,_,worked⟩
    · rw [is,if_pos sync]
      rfl
    · rw [is,if_neg other]
      rfl
    · rw [is,if_neg fun e => absurd mem (by rw [e]; decide)]
      rfl
    · rw [worked.noReady,if_neg fun e => absurd mem (by rw [e]; decide)]

/-- An error is pending either in the connection or, unknown to it, in the callback. -/
theorem skippedQuiet {ss : List Step} (run : Runs env c ss c') {pending : Bool}
    (called : pending → env.query.isSome) (apart : pending → c.batchError = false) :
    Skipped (c.batchError || pending) ss ↔ Quiet pending ss := by
  induction run generalizing pending with
  | nil => exact Iff.rfl
  | @cons s ss _ extended did _ ih =>
    rw [Skipped,Quiet]
    rcases stepCases s extended did with ⟨sync,⟨status,is⟩,clear⟩ | ⟨other,out,is,same⟩ | ⟨mem,failed,is,same⟩ |
      ⟨mem,ok,worked⟩
    · have out : s.type ∉ batchTypes := by rw [sync]; decide
      have rest := @ih false nofun nofun
      rw [clear,Bool.or_false] at rest
      rw [sync,decide_eq_true rfl,Bool.not_true,Bool.false_and,Bool.false_and,rest,← sync]
      exact and_congr (iff_of_true (fun _ mem => absurd mem out) fun _ => out) Iff.rfl
    · have rest := @ih pending called (by rw [same]; exact apart)
      have none_ : s.callbackFailed = false := by rw [Step.callbackFailed,is]; rfl
      rw [same] at rest
      rw [none_,is,List.any_nil,decide_eq_false other,Bool.not_false,Bool.true_and,Bool.true_and,Bool.or_false,
        Bool.or_false,rest]
      exact and_congr (iff_of_true (fun _ mem => absurd mem out) fun _ => out) Iff.rfl
    · have other : s.type ≠ 83 := fun e => absurd mem (by rw [e]; decide)
      have free : pending = false := by
        cases pending with
        | false => rfl
        | true => exact absurd (apart rfl) (by rw [failed]; decide)
      have rest := @ih false nofun nofun
      have none_ : s.callbackFailed = false := by rw [Step.callbackFailed,is]; rfl
      rw [same] at rest
      rw [Bool.or_false] at rest
      simp only [free,none_,is,List.any_nil,decide_eq_false other,Bool.not_false,Bool.true_and,Bool.or_false]
      rw [rest]
      exact and_congr (iff_of_true (fun _ _ => ⟨trivial,same⟩) nofun) Iff.rfl
    · have other : s.type ≠ 83 := fun e => absurd mem (by rw [e]; decide)
      cases pending with
      | true =>
        refine iff_of_false (fun h => ?_) fun h => h.1 rfl mem
        exact worked.some_ (called rfl) (h.1 (Bool.or_true _) mem).1
      | false =>
        have failed : (s.events.any Event.isCall && s.events.any Event.isError) = s.callbackFailed := rfl
        have rest := @ih s.callbackFailed ?_ ?_
        · rw [ok,decide_eq_false other,Bool.not_false,Bool.true_and,Bool.true_and,Bool.false_or,Bool.false_or,worked.error,
            failed,rest]
          exact and_congr (iff_of_true nofun nofun) Iff.rfl
        · exact fun h => worked.called (Bool.and_eq_true_iff.mp h).1
        · exact fun h => worked.one (Bool.and_eq_true_iff.mp h).1

/-- Every run of extended messages answers each Sync with one ReadyForQuery and nothing else with any; and it
passes over the rest of a failed batch exactly when no message of the batch follows an error of the callback. -/
theorem batchSkipped {ss : List Step} (run : Runs env c ss c') (fresh : c.batchError = false) :
    (Skipped false ss ∧ Answered ss) ↔ Quiet false ss := by
  have skipped := @skippedQuiet _ _ _ _ run false nofun nofun
  rw [fresh,Bool.or_false] at skipped
  rw [and_iff_left (runAnswered run),skipped]

/-- Any extended messages can be taken, from any state. -/
theorem runTotal (env : Env) (c : Conn) (ms : List (UInt8 × Bytes)) (extended : ∀ m ∈ ms, m.1 ∈ extendedTypes) :
    ∃ ss c', Runs env c ss c' ∧ ss.map (fun s => (s.type,s.body)) = ms := by
  induction ms generalizing c with
  | nil => exact ⟨[],c,.nil c,rfl⟩
  | cons m ms ih =>
    obtain ⟨here,later⟩ := List.forall_mem_cons.mp extended
    have noQuery : Terminated m := fun is => absurd here (by rw [is]; decide)
    obtain ⟨⟨events,after⟩,did⟩ := (dispatchFine env c m.1).mpr noQuery
    obtain ⟨ss,c',run,same⟩ := ih after later
    exact ⟨⟨m.1,m.2,c,events,after⟩ :: ss,c',.cons ⟨m.1,m.2,c,events,after⟩ here did run,by rw [List.map_cons,same]⟩

/-- A callback that sends an error each time. -/
def failing : Env := ⟨fun _ _ _ => true,some fun _ _ => [.error [] []],true,true,true,fun _ => true⟩

def parseBody : Bytes := [0,120,0,0,0]
def bindBody : Bytes := [0,0,0,0,0,0,0,0]
def executeBody : Bytes := [0,0,0,0,0]

def firstSlot : Fin 32 := 0

def bound : Conn := { Conn.init with
  prepared := Conn.init.prepared.put 0 [] [120]
  portals := Conn.init.portals.put 0 [] ⟨0,[]⟩ }

def parsed : Conn := { Conn.init with prepared := Conn.init.prepared.put 0 [] [120] }
def called : Conn := { bound with queries := 1 }
def parsedAgain : Conn := { called with prepared := called.prepared.put 0 [] [120] }

/-- Parse, Bind, an Execute that fails in the callback, and a Parse after it. -/
def failedBatch : List Step :=
  [⟨80,parseBody,Conn.init,[.tag 49],parsed⟩,⟨66,bindBody,parsed,[.tag 50],bound⟩,
    ⟨69,executeBody,bound,[.call [120],.sent (.error [] [])],called⟩,⟨80,parseBody,called,[.tag 49],parsedAgain⟩]

theorem failedBatchRuns : Runs failing Conn.init failedBatch parsedAgain := by
  refine .cons ⟨80,parseBody,Conn.init,[.tag 49],parsed⟩ (by decide) rfl ?_
  refine .cons ⟨66,bindBody,parsed,[.tag 50],bound⟩ (by decide) rfl ?_
  refine .cons ⟨69,executeBody,bound,[.call [120],.sent (.error [] [])],called⟩ (by decide) rfl ?_
  exact .cons ⟨80,parseBody,called,[.tag 49],parsedAgain⟩ (by decide) rfl (.nil _)

theorem batchSkippedFailed : (Skipped false failedBatch ∧ Answered failedBatch) ↔ Quiet false failedBatch :=
  batchSkipped failedBatchRuns rfl

/-- The Parse after the callback's error is answered with ParseComplete. -/
theorem batchGoesOn : ¬ ∀ env ss c', Runs env Conn.init ss c' → Skipped false ss ∧ Answered ss := fun all => by
  obtain ⟨skipped,_⟩ := all _ _ _ failedBatchRuns
  have last := skipped.2.2.2.1 rfl (by decide)
  exact absurd last.1 (by decide)

end Napastak.PgWire
