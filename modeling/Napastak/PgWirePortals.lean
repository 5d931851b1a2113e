import Napastak.PgWireSync

/-! What Execute runs: the text its portal's statement had at Bind, with the values of that Bind, as long as no
message touches a statement that a live portal came from and no name is cut to fit its slot. -/
namespace Napastak.PgWire

/-! ### The text with its values -/

/-- A value as SQL. -/
def sqlValue : Option Bytes → Bytes
  | none => ascii "NULL"
  | some v => if isRaw v then v else 39 :: (v.flatMap fun c => if c = 39 then [39,39] else [c]) ++ [39]

/-- The text with every placeholder replaced, however long it gets. -/
def withValues (values : List (Option Bytes)) : Bytes → Bytes
  | [] => []
  | c :: s =>
    if c = 36 ∧ s.head?.any isdigit then
      sqlValue (paramValue values (paramIndex 0 s).1) ++ withValues values (paramIndex 0 s).2
    else c :: withValues values s
termination_by s => s.length
decreasing_by
  · exact Nat.lt_succ_of_le (paramIndexShort 0 s)
  · exact Nat.lt_succ_self _

/-- What a portal bound to the text is to run. -/
def boundText (sql : Bytes) (values : List (Option Bytes)) : Bytes := if values = [] then sql else withValues values sql

/-- The text goes into the buffer measured for it. -/
def Fits (sql : Bytes) (values : List (Option Bytes)) : Prop :=
  values = [] ∨ (withValues values sql).length < substituteCap sql values

theorem putTextFits {cap : Nat} (out v : Bytes)
    (h : out.length + (v.flatMap fun c => if c = 39 then [39,39] else [c]).length + 1 < cap) :
    putText cap out v = out ++ v.flatMap fun c => if c = 39 then [39,39] else [c] := by
  induction v generalizing out with
  | nil => rw [putText,List.flatMap_nil,List.append_nil]
  | cons c v ih =>
    have one : 1 ≤ (if c = 39 then [39,39] else [c] : Bytes).length := by split <;> simp
    rw [List.flatMap_cons,List.length_append] at h
    rw [putText,if_pos (by omega),ih _ (by rw [List.length_append]; omega),List.flatMap_cons,List.append_assoc]

theorem putByteFits {cap : Nat} {out : Bytes} (c : UInt8) (h : out.length + 1 < cap) : putByte cap out c = out ++ [c] :=
  if_pos h

theorem appendValueFits {cap : Nat} (out : Bytes) (v : Option Bytes) (h : out.length + (sqlValue v).length < cap) :
    appendValue cap out v = out ++ sqlValue v := by
  cases v with
  | none => exact if_pos h
  | some v =>
    rw [sqlValue] at h
    rw [appendValue,sqlValue]
    split
    · rename_i raw
      rw [if_pos raw] at h
      exact if_pos h
    · rename_i raw
      rw [if_neg raw] at h
      simp only [List.length_append,List.length_cons,List.length_nil] at h
      have opened := @putByteFits cap out 39 (by omega)
      have inside := @putTextFits cap (out ++ [39]) v (by rw [List.length_append,List.length_singleton]; omega)
      rw [opened,inside,putByteFits 39 (by simp only [List.length_append,List.length_singleton]; omega)]
      simp only [List.append_assoc,List.cons_append,List.nil_append]

theorem substituteFits {cap : Nat} {values : List (Option Bytes)} (out s : Bytes)
    (h : out.length + (withValues values s).length < cap) :
    substituteFrom cap values out s = out ++ withValues values s := by
  induction out, s using substituteFrom.induct cap values with
  | case1 out => rw [substituteFrom,withValues,List.append_nil]
  | case2 out c s placeholder ih =>
    rw [withValues,if_pos placeholder,List.length_append] at h
    have value := appendValueFits out (paramValue values (paramIndex 0 s).1) (by omega : _ < cap)
    rw [value,List.length_append] at ih
    rw [substituteFrom,if_pos placeholder,withValues,if_pos placeholder,value,ih (by omega),List.append_assoc]
  | case3 out c s literal ih =>
    rw [withValues,if_neg literal,List.length_cons] at h
    have byte := @putByteFits cap out c (by omega)
    rw [byte,List.length_append,List.length_singleton] at ih
    rw [substituteFrom,if_neg literal,withValues,if_neg literal,byte,ih (by omega),List.append_assoc]
    rfl

theorem finalSqlFits {sql : Bytes} {values : List (Option Bytes)} (h : Fits sql values) :
    finalSql sql values = boundText sql values := by
  rw [finalSql,boundText]
  split
  · rfl
  · rename_i some_
    have := substituteFits [] sql (by simpa using h.resolve_left some_)
    rwa [List.nil_append] at this

/-! ### What the messages say -/

/-- Statements and portals by name, as the answered messages leave them. -/
structure Said where
  stmts : Bytes → Option Bytes
  portals : Bytes → Option (Bytes × List (Option Bytes))

def Said.init : Said := ⟨fun _ => none,fun _ => none⟩

/-- A completed Parse names a text, a completed Bind takes the text its statement has then, and Close forgets. -/
def Said.after (g : Said) (s : Step) : Said :=
  if s.type = 80 ∧ s.events = [.tag 49] then
    match decodeParse s.body s.body.length with
    | .ok (.ok (name,sql)) => { g with stmts := Function.update g.stmts name (some sql) }
    | _ => g
  else if s.type = 66 ∧ s.events = [.tag 50] then
    match decodeBind s.body s.body.length with
    | .ok (.ok b) => { g with portals := Function.update g.portals b.portal ((g.stmts b.stmt).map (·,b.values)) }
    | _ => g
  else if s.type = 67 ∧ s.events = [.tag 51] ∧ s.body ≠ [] then
    match decodeClose s.body s.body.length with
    | .ok (kind,name) =>
      if kind = 83 then { g with stmts := Function.update g.stmts name none }
      else if kind = 80 then { g with portals := Function.update g.portals name none }
      else g
    | _ => g
  else g

def callsOf (events : List Event) : List Bytes := events.filterMap fun
  | .call sql => some sql
  | _ => none

/-- A Bind completes for a statement that was named, and Execute runs what its portal was bound to, or nothing. -/
structure Right (env : Env) (g : Said) (s : Step) : Prop where
  bind : ∀ b, s.type = 66 → s.events = [.tag 50] → decodeBind s.body s.body.length = .ok (.ok b) →
    (g.stmts b.stmt).isSome
  execute : ∀ name, s.type = 69 → s.before.batchError = false → decodeExecute s.body s.body.length = .ok (some name) →
    callsOf s.events = if env.query.isSome then ((g.portals name).map fun p => boundText p.1 p.2).toList else []

def AllRight (env : Env) : Said → List Step → Prop
  | _, [] => True
  | g, s :: ss => Right env g s ∧ AllRight env (g.after s) ss

/-- Some portal was bound to the statement in this slot. -/
def InUse (c : Conn) (p : Fin 32) : Prop := ∃ q name po, c.portals q = some (name,po) ∧ po.prep = p

/-- A message that leaves what live portals run alone: names of at most 63 bytes, no other text and no Close for a
statement in use, and an Execute whose text fits its buffer. -/
structure Safe (s : Step) : Prop where
  parse : ∀ name sql, s.type = 80 → decodeParse s.body s.body.length = .ok (.ok (name,sql)) → name.length ≤ nameMax ∧
    ∀ p, s.before.prepared.findOrAlloc name = some p → InUse s.before p → ∃ n, s.before.prepared p = some (n,sql)
  bind : ∀ b, s.type = 66 → decodeBind s.body s.body.length = .ok (.ok b) → b.portal.length ≤ nameMax
  close : ∀ name p, s.type = 67 → decodeClose s.body s.body.length = .ok (83,name) →
    s.before.prepared.find name = some p → ¬ InUse s.before p
  execute : ∀ name po e, s.type = 69 → decodeExecute s.body s.body.length = .ok (some name) →
    s.before.portals.lookup name = some po → s.before.prepared po.prep = some e → Fits e.2 po.values

/-- The text in a slot. -/
def Conn.textAt (c : Conn) (p : Fin 32) : Option Bytes := (c.prepared p).map (·.2)

/-- The tables hold what the messages said. -/
structure Holds (g : Said) (c : Conn) : Prop where
  stmtNames : c.prepared.Distinct
  portalNames : c.portals.Distinct
  stmts : ∀ name, g.stmts name = c.prepared.lookup name
  portals : ∀ name, g.portals name = (c.portals.lookup name).bind fun po => (c.textAt po.prep).map (·,po.values)
  used : ∀ p, InUse c p → (c.textAt p).isSome

/-! ### One message -/

variable {env : Env} {g : Said} {c c' : Conn} {s : Step} {events : List Event} {body : Bytes} {len : Nat}

theorem callsRefuse (f : Fail) : callsOf (c.refuse f).1 = [] := rfl

theorem callsRun (sql : Bytes) (c : Conn) : callsOf (env.run sql c).1 = if env.query.isSome then [sql] else [] := by
  rw [Env.run]
  split
  · rename_i none_
    rw [none_]
    rfl
  · rename_i query is
    have sent : (List.map Event.sent (query c.queries sql)).filterMap (fun
        | .call sql => some sql
        | _ => none) = [] := by
      rw [List.filterMap_map]
      exact List.filterMap_eq_nil_iff.mpr fun _ _ => rfl
    rw [is,callsOf,List.filterMap_cons,sent]
    rfl

theorem Holds.sameTables (holds : Holds g c) (prepared : c'.prepared = c.prepared) (portals : c'.portals = c.portals) :
    Holds g c' := by
  obtain ⟨p,q,b,n⟩ := c
  obtain ⟨p',q',b',n'⟩ := c'
  cases prepared
  cases portals
  exact ⟨holds.stmtNames,holds.portalNames,holds.stmts,holds.portals,holds.used⟩

theorem lookupUsed {name : Bytes} {po : Portal} (found : c.portals.lookup name = some po) : InUse c po.prep := by
  obtain ⟨q,_,at_⟩ := Slots.lookupAt found
  exact ⟨q,name,po,at_,rfl⟩

/-- Other statements with the same names for the texts in use show the same portals. -/
theorem Holds.statements (holds : Holds g c) {prepared : Slots 32 Bytes Bytes} (distinct : prepared.Distinct)
    {stmts : Bytes → Option Bytes} (names : ∀ n, stmts n = prepared.lookup n)
    (kept : ∀ p, InUse c p → (prepared p).map (·.2) = c.textAt p) :
    Holds { g with stmts := stmts } { c with prepared := prepared } := by
  refine ⟨distinct,holds.portalNames,names,fun n => ?_,fun p used => ?_⟩
  · have before := holds.portals n
    cases found : c.portals.lookup n with
    | none =>
      rw [found] at before
      exact before
    | some po =>
      simp only [found,Option.bind_some] at before ⊢
      rw [before,← kept po.prep (lookupUsed found)]
      rfl
  · have before := holds.used p used
    rw [← kept p used] at before
    exact before

theorem Holds.parse (holds : Holds g c) {name sql : Bytes} {p : Fin 32} (alloc : c.prepared.findOrAlloc name = some p)
    (same : InUse c p → ∃ n, c.prepared p = some (n,sql)) :
    Holds { g with stmts := Function.update g.stmts name (some sql) }
      { c with prepared := c.prepared.put p name sql } := by
  refine holds.statements (holds.stmtNames.put alloc sql) (fun n => ?_) fun q used => ?_
  · rw [Slots.lookupPut holds.stmtNames alloc,Function.update_apply,holds.stmts]
  · by_cases at_ : q = p
    · obtain ⟨n,is⟩ := same (at_ ▸ used)
      rw [at_,Slots.putSame,Conn.textAt,is]
      rfl
    · rw [Slots.putOther at_]
      rfl

theorem Holds.closeStatement (holds : Holds g c) {name : Bytes} {p : Fin 32} (found : c.prepared.find name = some p)
    (free : ¬ InUse c p) :
    Holds { g with stmts := Function.update g.stmts name none } { c with prepared := c.prepared.release p } := by
  refine holds.statements (holds.stmtNames.release p) (fun n => ?_) fun q used => ?_
  · rw [Slots.lookupRelease holds.stmtNames found,Function.update_apply,holds.stmts]
  · have other : q ≠ p := fun e => by
      rw [e] at used
      exact free used
    rw [Slots.releaseOther other]
    rfl

/-- Forgetting what is not there changes nothing. -/
theorem updateNone {α : Type} {f : Bytes → Option α} {name : Bytes} (none_ : f name = none) :
    Function.update f name none = f := by
  rw [← none_,Function.update_eq_self]

theorem Holds.portalTable (holds : Holds g c) {portals : Slots 32 Bytes Portal} (distinct : portals.Distinct)
    {said : Bytes → Option (Bytes × List (Option Bytes))}
    (names : ∀ n, said n = (portals.lookup n).bind fun po => (c.textAt po.prep).map (·,po.values))
    (used : ∀ q n po, portals q = some (n,po) → (c.textAt po.prep).isSome) :
    Holds { g with portals := said } { c with portals := portals } := by
  refine ⟨holds.stmtNames,distinct,holds.stmts,names,fun p ⟨q,n,po,is,same⟩ => ?_⟩
  rw [← same]
  exact used q n po is

theorem Holds.bind (holds : Holds g c) {b : BindBody} {prep po : Fin 32} (found : c.prepared.find b.stmt = some prep)
    (alloc : c.portals.findOrAlloc b.portal = some po) :
    Holds { g with portals := Function.update g.portals b.portal ((g.stmts b.stmt).map (·,b.values)) }
      { c with portals := c.portals.put po b.portal ⟨prep,b.values⟩ } := by
  obtain ⟨sql,at_⟩ := Slots.findAt found
  have text : c.textAt prep = some sql := by rw [Conn.textAt,at_]; rfl
  refine holds.portalTable (holds.portalNames.put alloc _) (fun n => ?_) fun q n portal is => ?_
  · rw [Slots.lookupPut holds.portalNames alloc,Function.update_apply]
    split
    · rw [holds.stmts,Slots.lookupIs holds.stmtNames at_]
      exact congrArg (Option.map (·,b.values)) text.symm
    · exact holds.portals n
  · by_cases here : q = po
    · rw [here,Slots.putSame] at is
      cases is
      exact Option.isSome_iff_exists.mpr ⟨sql,text⟩
    · rw [Slots.putOther here] at is
      exact holds.used _ ⟨q,n,portal,is,rfl⟩

theorem Holds.closePortal (holds : Holds g c) {name : Bytes} {p : Fin 32} (found : c.portals.find name = some p) :
    Holds { g with portals := Function.update g.portals name none } { c with portals := c.portals.release p } := by
  refine holds.portalTable (holds.portalNames.release p) (fun n => ?_) fun q n portal is => ?_
  · rw [Slots.lookupRelease holds.portalNames found,Function.update_apply]
    split
    · rfl
    · exact holds.portals n
  · by_cases here : q = p
    · rw [here,Slots.releaseSame] at is
      cases is
    · rw [Slots.releaseOther here] at is
      exact holds.used _ ⟨q,n,portal,is,rfl⟩

/-- A refused message says nothing. -/
theorem saysRefused (type : UInt8) (body : Bytes) (before after : Conn) (e : Sent) :
    g.after ⟨type,body,before,[.sent e],after⟩ = g := by simp [Said.after]

/-- Nor does one that is not a Parse, Bind or Close. -/
theorem saysOther {type : UInt8} (parse : type ≠ 80) (bind : type ≠ 66) (close : type ≠ 67) (body : Bytes)
    (before : Conn) (events : List Event) (after : Conn) : g.after ⟨type,body,before,events,after⟩ = g := by
  rw [Said.after,if_neg fun h => parse h.1,if_neg fun h => bind h.1,if_neg fun h => close h.1]

/-- What a step is to keep: the tables hold what was said, and the step did right. -/
def Kept (env : Env) (g : Said) (s : Step) : Prop := Holds (g.after s) s.after ∧ Right env g s

variable {before after : Conn}

/-- Only a Bind and an Execute can do wrong. -/
theorem rightOther {type : UInt8} (bind : type ≠ 66) (execute : type ≠ 69) {events : List Event} :
    Right env g ⟨type,body,before,events,after⟩ :=
  ⟨fun _ is => absurd is bind,fun _ is => absurd is execute⟩

theorem refusedKept (holds : Holds g before) (f : Fail) (type : UInt8)
    (execute : ∀ name, type = 69 → before.batchError = false → decodeExecute body body.length = .ok (some name) →
      g.portals name = none) :
    Kept env g ⟨type,body,before,(before.refuse f).1,(before.refuse f).2⟩ := by
  refine ⟨?_,fun b _ is => ?_,fun name t ok decoded => ?_⟩
  · rw [Conn.refuse,saysRefused]
    exact holds.sameTables rfl rfl
  · cases is
  · rw [execute name t ok decoded]
    exact (ite_self []).symm

theorem parseKept (holds : Holds g before) (safe : Safe ⟨80,body,before,events,after⟩)
    (did : handleParse body body.length before = .ok (events,after)) : Kept env g ⟨80,body,before,events,after⟩ := by
  rw [handleParse] at did
  obtain ⟨d,decoded,did⟩ := bindGives did
  split at did
  · cases did
    exact refusedKept holds _ 80 fun _ is => absurd is (by decide)
  · rename_i name sql
    split at did <;> cases did
    · exact refusedKept holds _ 80 fun _ is => absurd is (by decide)
    · rename_i p alloc
      obtain ⟨short,same⟩ := safe.parse name sql rfl decoded
      rw [List.take_of_length_le short]
      refine ⟨?_,rightOther (by decide) (by decide)⟩
      simp only [Said.after,decoded,and_self,if_true]
      exact holds.parse alloc (same p alloc)

theorem bindKept (holds : Holds g before) (safe : Safe ⟨66,body,before,events,after⟩)
    (did : handleBind body body.length before = .ok (events,after)) : Kept env g ⟨66,body,before,events,after⟩ := by
  rw [handleBind] at did
  obtain ⟨d,decoded,did⟩ := bindGives did
  split at did
  · cases did
    exact refusedKept holds _ 66 fun _ is => absurd is (by decide)
  rename_i b
  split at did
  · cases did
    exact refusedKept holds _ 66 fun _ is => absurd is (by decide)
  rename_i prep found
  split at did <;> cases did
  · exact refusedKept holds _ 66 fun _ is => absurd is (by decide)
  · rename_i po alloc
    rw [List.take_of_length_le (safe.bind b rfl decoded)]
    refine ⟨?_,fun b' _ _ is => ?_,fun _ is => absurd (show (66 : UInt8) = 69 from is) (by decide)⟩
    · have kept := holds.bind found alloc
      simp only [Said.after,decoded,and_self,if_true]
      exact kept
    · simp only [decoded] at is
      cases is
      obtain ⟨sql,at_⟩ := Slots.findAt found
      rw [holds.stmts,Slots.lookupIs holds.stmtNames at_]
      rfl

theorem executeKept (holds : Holds g before) (safe : Safe ⟨69,body,before,events,after⟩)
    (did : handleExecute env body body.length before = .ok (events,after)) :
    Kept env g ⟨69,body,before,events,after⟩ := by
  rw [handleExecute] at did
  obtain ⟨d,decoded,did⟩ := bindGives did
  split at did
  · cases did
    refine refusedKept holds _ 69 fun name _ _ is => ?_
    rw [decoded] at is
    cases is
  rename_i name
  split at did
  · cases did
    rename_i missing
    refine refusedKept holds _ 69 fun name' _ _ is => ?_
    rw [decoded] at is
    cases is
    rw [holds.portals,missing]
    rfl
  rename_i po found
  have text := holds.used _ (lookupUsed found)
  split at did
  · rename_i none_
    rw [Conn.textAt,none_] at text
    contradiction
  rename_i e at_
  have ran := Except.ok.inj did
  have events_ : events = (env.run (finalSql e.2 po.values) before).1 := congrArg Prod.fst ran.symm
  have after_ : after = (env.run (finalSql e.2 po.values) before).2 := congrArg Prod.snd ran.symm
  refine ⟨?_,fun _ is => absurd (show (69 : UInt8) = 66 from is) (by decide),fun name' _ _ is => ?_⟩
  · rw [saysOther (by decide) (by decide) (by decide),after_,Env.run]
    split
    · exact holds
    · exact holds.sameTables rfl rfl
  · simp only [decoded] at is
    cases is
    have portal : g.portals name = some (e.2,po.values) := by
      rw [holds.portals,found,Option.bind_some,Conn.textAt,at_]
      rfl
    rw [events_,callsRun,finalSqlFits (safe.execute name po e rfl decoded found at_),portal]
    rfl

theorem closeKept (holds : Holds g before) (safe : Safe ⟨67,body,before,events,after⟩)
    (did : handleClose body body.length before = .ok (events,after)) : Kept env g ⟨67,body,before,events,after⟩ := by
  have closes : g.after ⟨67,body,before,[.tag 51],after⟩ = if body ≠ [] then
      match decodeClose body body.length with
      | .ok (kind,name) =>
        if kind = 83 then { g with stmts := Function.update g.stmts name none }
        else if kind = 80 then { g with portals := Function.update g.portals name none }
        else g
      | _ => g
    else g := by
    rw [Said.after,if_neg (by simp),if_neg (by simp)]
    simp
  rw [handleClose] at did
  split at did
  · rename_i empty
    cases did
    have none_ : body = [] := List.length_eq_zero_iff.mp (by omega)
    refine ⟨?_,rightOther (by decide) (by decide)⟩
    rw [closes,if_neg (not_not_intro none_)]
    exact holds
  · rename_i some_
    have some_ : body ≠ [] := fun e => some_ (by rw [e]; exact Nat.zero_lt_one)
    cases decoded : decodeClose body body.length with
    | error e => rw [decoded] at did; cases did
    | ok d =>
      obtain ⟨kind,name⟩ := d
      rw [decoded,bindOk] at did
      rw [if_pos some_,decoded] at closes
      simp only at did closes
      split at did
      · rename_i statement
        subst statement
        cases did
        refine ⟨?_,rightOther (by decide) (by decide)⟩
        rw [closes,if_pos rfl]
        cases found : before.prepared.find name with
        | none =>
          rw [updateNone (by rw [holds.stmts,Slots.lookupMissing found])]
          exact holds
        | some p => exact holds.closeStatement found (safe.close name p rfl decoded found)
      · rename_i statement
        rw [if_neg statement] at closes
        split at did
        · rename_i portal
          cases did
          refine ⟨?_,rightOther (by decide) (by decide)⟩
          rw [closes,if_pos portal]
          cases found : before.portals.find name with
          | none =>
            rw [updateNone (by rw [holds.portals,Slots.lookupMissing found]; rfl)]
            exact holds
          | some p => exact holds.closePortal found
        · rename_i portal
          cases did
          refine ⟨?_,rightOther (by decide) (by decide)⟩
          rw [closes,if_neg portal]
          exact holds

/-! ### A whole run -/

/-- Each extended message keeps the tables and does right. -/
theorem stepKept (extended : s.type ∈ extendedTypes) (holds : Holds g s.before) (safe : Safe s)
    (did : dispatch env s.type s.body s.body.length s.before = .ok (s.events,s.after)) : Kept env g s := by
  obtain ⟨type,body,before,events,after⟩ := s
  simp only at extended holds did
  have skipped : ∀ {t : UInt8} {handle : Except Fault Handled}, unlessFailed before handle = .ok (events,after) →
      (handle = .ok (events,after) → Kept env g ⟨t,body,before,events,after⟩) → Kept env g ⟨t,body,before,events,after⟩ :=
    fun did kept => by
      rw [unlessFailed] at did
      split at did
      · rename_i failed
        cases did
        refine ⟨?_,fun _ _ is => (by cases is),fun name _ ok => ?_⟩
        · rw [Said.after,if_neg (by simp),if_neg (by simp),if_neg (by simp)]
          exact holds
        · rw [failed] at ok
          contradiction
      · exact kept did
  simp only [extendedTypes,batchTypes,List.mem_cons,List.not_mem_nil,or_false] at extended
  rcases extended with rfl | rfl | rfl | rfl | rfl | rfl | rfl
  · cases did
    refine ⟨?_,rightOther (by decide) (by decide)⟩
    rw [saysOther (by decide) (by decide) (by decide)]
    exact holds.sameTables rfl rfl
  · cases did
    refine ⟨?_,rightOther (by decide) (by decide)⟩
    rw [saysOther (by decide) (by decide) (by decide)]
    exact holds
  · exact skipped did (parseKept holds safe)
  · exact skipped did (bindKept holds safe)
  · refine skipped did fun did => ?_
    rw [handleDescribe] at did
    split at did <;> cases did
    · exact refusedKept holds _ 68 fun _ is => absurd is (by decide)
    · refine ⟨?_,rightOther (by decide) (by decide)⟩
      rw [saysOther (by decide) (by decide) (by decide)]
      exact holds
  · exact skipped did (executeKept holds safe)
  · exact skipped did (closeKept holds safe)

theorem runRight {ss : List Step} (run : Runs env c ss c') (holds : Holds g c) (safe : ∀ s ∈ ss, Safe s) :
    AllRight env g ss := by
  induction run generalizing g with
  | nil => trivial
  | cons s extended did _ ih =>
    obtain ⟨here,later⟩ := List.forall_mem_cons.mp safe
    obtain ⟨kept,right⟩ := stepKept extended holds here did
    exact ⟨right,ih kept later⟩

theorem initHolds : Holds Said.init Conn.init := by
  have none_ : ∀ {α : Type} (name : Bytes), Slots.lookup (fun _ : Fin 32 => (none : Option (Bytes × α))) name = none :=
    fun name => Slots.lookupMissing (List.find?_eq_none.mpr fun _ _ => Bool.false_ne_true)
  refine ⟨nofun,nofun,fun name => (none_ name).symm,fun name => ?_,fun p ⟨q,name,po,is,_⟩ => by cases is⟩
  rw [Conn.init,none_ name]
  rfl

/-- In every run of extended messages from the start of a connection, each of them safe, every Execute runs exactly
the text its portal's statement had at Bind with the values of that Bind, or nothing for a name no Bind gave. -/
theorem executesBound (env : Env) {ss : List Step} (run : Runs env Conn.init ss c) (safe : ∀ s ∈ ss, Safe s) :
    AllRight env Said.init ss := runRight run initHolds safe

theorem failedBatchSafe : ∀ s ∈ failedBatch, Safe s := by
  have parseIs : decodeParse parseBody 5 = .ok (.ok ([],[120])) := rfl
  have bindIs : decodeBind bindBody 8 = .ok (.ok ⟨[],[],[]⟩) := by
    have portal : xqCstr bindBody 8 0 = .ok (some ([],1)) := rfl
    have stmt : xqCstr bindBody 8 1 = .ok (some ([],2)) := rfl
    have zeros : ∀ off, off ≤ 6 → 2 ≤ off → xqInt16 bindBody 8 off = .ok (some (0,off + 2)) := by
      intro off le ge
      have byte : ∀ i, i < 8 → rd bindBody i = .ok 0 := by decide
      rw [xqInt16,if_neg (by omega),byte off (by omega),byte (off + 1) (by omega)]
      simp [bindOk]
    have nFmt := zeros 2 (by decide) (by decide)
    have nParams := zeros 4 (by decide) (by decide)
    have nResults := zeros 6 (by decide) (by decide)
    have formats : decodeFormats bindBody 8 0 (2 + 2) = .ok (some (fun i => ([] : List Int).getD i 0,4)) := by
      rw [decodeFormats,if_neg (by decide)]
      rfl
    simp only [decodeBind,portal,stmt,nFmt,formats,nParams,bindOk,readValues,Int.toNat_zero,nResults]
  have executeIs : decodeExecute executeBody 5 = .ok (some []) := rfl
  have again : called.prepared.findOrAlloc [] = some 0 := rfl
  intro s mem
  simp only [failedBatch,List.mem_cons,List.not_mem_nil,or_false] at mem
  rcases mem with rfl | rfl | rfl | rfl
  · refine ⟨fun name sql _ is => ?_,fun _ is => absurd is (by decide),fun _ _ is => absurd is (by decide),fun _ _ _ is => absurd is (by decide)⟩
    cases parseIs.symm.trans is
    exact ⟨by decide,fun p alloc => by rintro ⟨q,n,po,at_,_⟩; cases at_⟩
  · refine ⟨fun _ _ is => absurd is (by decide),fun b _ is => ?_,fun _ _ is => absurd is (by decide),fun _ _ _ is => absurd is (by decide)⟩
    cases bindIs.symm.trans is
    decide
  · refine ⟨fun _ _ is => absurd is (by decide),fun _ is => absurd is (by decide),fun _ _ is => absurd is (by decide),fun name po e _ is found at_ => ?_⟩
    cases executeIs.symm.trans is
    cases (rfl : bound.portals.lookup [] = some ⟨0,[]⟩).symm.trans found
    exact .inl rfl
  · refine ⟨fun name sql _ is => ?_,fun _ is => absurd is (by decide),fun _ _ is => absurd is (by decide),fun _ _ _ is => absurd is (by decide)⟩
    cases parseIs.symm.trans is
    exact ⟨by decide,fun p alloc _ => by cases again.symm.trans alloc; exact ⟨[],rfl⟩⟩

theorem executesBoundBatch : AllRight failing Said.init failedBatch :=
  executesBound failing failedBatchRuns failedBatchSafe

/-- A callback that answers every query. -/
def answering : Env := ⟨fun _ _ _ => true,some fun _ _ => [.commandComplete []],true,true,true,fun _ => true⟩

def otherBody : Bytes := [0,121,0,0,0]

def replaced : Conn := { bound with prepared := bound.prepared.put firstSlot [] [121] }

/-- Parse, Bind, a Parse of another text under the same name, and Execute. -/
def reparsed : List Step :=
  [⟨80,parseBody,Conn.init,[.tag 49],parsed⟩,⟨66,bindBody,parsed,[.tag 50],bound⟩,
    ⟨80,otherBody,bound,[.tag 49],replaced⟩,
    ⟨69,executeBody,replaced,[.call [121],.sent (.commandComplete [])],{ replaced with queries := 1 }⟩]

/-- The portal runs the text of the second Parse. -/
theorem portalFollows : ¬ ∀ env ss c, Runs env Conn.init ss c → AllRight env Said.init ss := fun all => by
  have run : Runs answering Conn.init reparsed { replaced with queries := 1 } := by
    refine .cons ⟨80,parseBody,Conn.init,[.tag 49],parsed⟩ (by decide) rfl ?_
    refine .cons ⟨66,bindBody,parsed,[.tag 50],bound⟩ (by decide) rfl ?_
    refine .cons ⟨80,otherBody,bound,[.tag 49],replaced⟩ (by decide) rfl ?_
    exact .cons ⟨69,executeBody,replaced,[.call [121],.sent (.commandComplete [])],{ replaced with queries := 1 }⟩
      (by decide) rfl (.nil _)
  obtain ⟨_,_,_,last,_⟩ := all _ _ _ run
  have first : Said.init.after ⟨80,parseBody,Conn.init,[.tag 49],parsed⟩ =
      ⟨Function.update (fun _ => none) [] (some [120]),fun _ => none⟩ := rfl
  have second : ∀ stmts, Said.after ⟨stmts,fun _ => none⟩ ⟨66,bindBody,parsed,[.tag 50],bound⟩ =
      ⟨stmts,Function.update (fun _ => none) [] ((stmts []).map (·,[]))⟩ := fun _ => rfl
  have third : ∀ g : Said, (g.after ⟨80,otherBody,bound,[.tag 49],replaced⟩).portals = g.portals := fun _ => rfl
  have ran := last.execute [] rfl rfl rfl
  rw [third,first,second] at ran
  simp [callsOf,answering,boundText] at ran

end Napastak.PgWire
