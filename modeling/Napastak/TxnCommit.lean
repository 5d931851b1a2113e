import Napastak.Txn
import Napastak.WalRuns

/-! `txn_commit` with the gateway's apply callback: the entries go to the logs of their tables one after the
other, and stop at the first that fails. -/
namespace Napastak.Txns
open Store Framing

/-- `g_app.tables`. -/
abbrev Tables := Bytes → Option OpenTable

/-- What the writes of one entry did, and the sync after them. -/
structure ApplyIo where
  io : Nat → Io
  synced : Bool

/-- `(uint64_t)orig_offset`. -/
def offsetOf (e : TxnEntry ColBatch) : Nat := (e.origOffset % 2 ^ 64).toNat

def csvOf (e : TxnEntry ColBatch) : Bytes := e.newCsv.take e.csvLen

section
variable [Floats]

/-- `table_append` under writes that may fail. -/
def tableAppendIo (build : Build) (t : OpenTable) (b : ColBatch) (a : ApplyIo) : Option (OpenTable × Int) := do
  let (records,fit) ← appendRecords build b
  some ((t.appendAll (withIo records a.io)).1,if b.nrows = 0 then 0 else if fit && a.synced then 0 else -1)

/-- `apply_txn_entry`. -/
def applyTxnEntry (build : Build) (tables : Tables) (e : TxnEntry ColBatch) (a : ApplyIo) : Option (Tables × Int) :=
  match tables e.table with
  | none => some (tables,-1)
  | some t =>
    let call := match e.op with
      | .insert => match e.batch with
        | none => some (t,0)
        | some b => tableAppendIo build t b a
      | .delete => some (t.append (deleteRecord (offsetOf e)) (a.io 0))
      | .update => some (t.append (updateRecord (offsetOf e) (csvOf e)) (a.io 0))
    call.map fun r => (Function.update tables e.table (some r.1),r.2)

/-- The loop of `txn_commit`. -/
def applyAll (build : Build) : Tables → List (TxnEntry ColBatch × ApplyIo) → Option (Tables × Int)
  | tables, [] => some (tables,0)
  | tables, (e,a) :: rest => do
    let (tables,rc) ← applyTxnEntry build tables e a
    if rc ≠ 0 then some (tables,rc) else applyAll build tables rest

/-- The entries of a transaction, each with what its writes do. -/
def entriesOf (tm : TxnManager ColBatch) (ios : Nat → ApplyIo) (c : Commit) : List (TxnEntry ColBatch × ApplyIo) :=
  (List.range c.nentries).map fun k => (commitEntry tm {c with i := k},ios k)

/-- `txn_commit` with no other call between its steps; outside, an insertion whose run is not defined. -/
def txnCommit (build : Build) (tm : TxnManager ColBatch) (tables : Tables) (id : Nat) (ios : Nat → ApplyIo) :
    Option (TxnManager ColBatch × Tables × Int) :=
  match commitMark tm id with
  | (tm,none) => some (tm,tables,-1)
  | (tm,some c) => (applyAll build tables (entriesOf tm ios c)).map fun r => (commitClean tm c,r.1,r.2)

/-! ### What it is to be atomic -/

/-- The records an entry is to write, and whether all its rows fit the row buffer. -/
def entryRecords (build : Build) (e : TxnEntry ColBatch) : Option (List Bytes × Bool) :=
  match e.op with
  | .insert => match e.batch with
    | none => some ([],true)
    | some b => appendRecords build b
  | .delete => some ([deleteRecord (offsetOf e)],true)
  | .update => some ([updateRecord (offsetOf e) (csvOf e)],true)

/-- The records of the entries on one table. -/
def recordsOn (build : Build) (name : Bytes) (es : List (TxnEntry ColBatch)) : List Bytes :=
  es.flatMap fun e => if e.table = name then ((entryRecords build e).map (·.1)).getD [] else []

/-- Every entry has its table and all its records are in the log. -/
def Applied (build : Build) (tables tables' : Tables) (es : List (TxnEntry ColBatch)) : Prop :=
  (∀ e ∈ es, (tables e.table).isSome ∧ ∃ records, entryRecords build e = some (records,true)) ∧
    ∀ name t, tables name = some t → ∃ t', tables' name = some t' ∧
      records t'.wal.file = records t.wal.file ++ recordsOn build name es

/-- Every table shows the same rows. -/
def ShowsSame (tables tables' : Tables) : Prop :=
  ∀ name ncols, (tables' name).map (fun t => loadTbl ncols t.wal.file) = (tables name).map fun t => loadTbl ncols t.wal.file

structure Atomic (build : Build) (tables tables' : Tables) (es : List (TxnEntry ColBatch)) (rc : Int) : Prop where
  applied : rc = 0 → Applied build tables tables' es
  kept : rc ≠ 0 → ShowsSame tables tables'

/-! ### The condition -/

/-- The first write of a record took nothing. -/
def Silent (io : Io) : Prop := io.header = none ∨ io.header = some 0

/-- All of the entry reaches the log. -/
def Goes (build : Build) (e : TxnEntry ColBatch) (a : ApplyIo) : Prop :=
  ∃ records, entryRecords build e = some (records,true) ∧
    (∀ p ∈ withIo records a.io, p.2.whole p.1 = true ∧ p.1.length < 2 ^ 32) ∧ (e.op = .insert → a.synced = true)

/-- Nothing of the entry reaches the log. -/
def Idle (build : Build) (e : TxnEntry ColBatch) (a : ApplyIo) : Prop :=
  ∃ records fit, entryRecords build e = some (records,fit) ∧ ∀ p ∈ withIo records a.io, Silent p.2

/-- A row does not fit the row buffer, or the sync or the write of a tombstone failed. -/
def Fails (build : Build) (e : TxnEntry ColBatch) (a : ApplyIo) : Prop :=
  match e.op with
  | .insert => ∃ b, e.batch = some b ∧ b.nrows ≠ 0 ∧
      (a.synced = false ∨ ∃ records, appendRecords build b = some (records,false))
  | .delete => (a.io 0).whole (deleteRecord (offsetOf e)) = false
  | .update => (a.io 0).whole (updateRecord (offsetOf e) (csvOf e)) = false

/-- Every entry goes to a log of whole records; or one fails, and neither it nor any before it reaches a log. -/
def CommitFits (build : Build) (tables : Tables) (es : List (TxnEntry ColBatch × ApplyIo)) : Prop :=
  ((∀ p ∈ es, (tables p.1.table).isSome ∧ Goes build p.1 p.2) ∧
    ∀ name t, tables name = some t → ∃ ps, Framable ps ∧ t.wal.file = frame ps) ∨
  ∃ front e a rest, es = front ++ (e,a) :: rest ∧
    (∀ p ∈ front ++ [(e,a)], tables p.1.table = none ∨ Idle build p.1 p.2) ∧ (tables e.table = none ∨ Fails build e a)

end

/-! ### One record -/

theorem appendWhole {t : OpenTable} {data : Bytes} {io : Io} (whole : io.whole data = true) :
    (t.append data io).2 = 0 ∧ (t.append data io).1.wal.file = t.wal.file ++ framed data := by
  obtain ⟨header,payload⟩ := Bool.and_eq_true_iff.mp whole
  simp only [OpenTable.append,WAL.append,header,payload,writeAll header,writeAll payload,Bool.true_eq_false,if_false]
  cases t.wal.replCb <;> exact ⟨rfl,by simp [framed]⟩

theorem appendSilent {t : OpenTable} {data : Bytes} {io : Io} (silent : Silent io) :
    (t.append data io).2 ≠ 0 ∧ (t.append data io).1.wal.file = t.wal.file := by
  have none_ : writeCall (Codec.leBytes 4 (data.length % 2 ^ 32)) io.header = ([],false) := by
    rcases silent with is | is
    · rw [is]; rfl
    · rw [is]; simp [writeCall,Codec.leBytesLength]
  simp only [OpenTable.append,WAL.append,none_,if_true,List.append_nil]
  exact ⟨by decide,trivial⟩

theorem appendFailed {t : OpenTable} {data : Bytes} {io : Io} (short : io.whole data = false) : (t.append data io).2 ≠ 0 := by
  simp only [OpenTable.append,WAL.append]
  cases header : (writeCall (Codec.leBytes 4 (data.length % 2 ^ 32)) io.header).2 with
  | false => simp
  | true =>
    rw [Io.whole,header,Bool.true_and] at short
    simp [short]

theorem appendAllWhole {t : OpenTable} {rs : List (Bytes × Io)} (whole : ∀ p ∈ rs, p.2.whole p.1 = true) :
    (t.appendAll rs).1.wal.file = t.wal.file ++ frame (rs.map Prod.fst) := by
  induction rs generalizing t with
  | nil => simp [OpenTable.appendAll,frame]
  | cons r rs ih =>
    obtain ⟨here,later⟩ := List.forall_mem_cons.mp whole
    simp only [OpenTable.appendAll]
    rw [ih later,(appendWhole here).2,List.append_assoc]
    rfl

theorem appendAllSilent {t : OpenTable} {rs : List (Bytes × Io)} (silent : ∀ p ∈ rs, Silent p.2) :
    (t.appendAll rs).1.wal.file = t.wal.file := by
  induction rs generalizing t with
  | nil => rfl
  | cons r rs ih =>
    obtain ⟨here,later⟩ := List.forall_mem_cons.mp silent
    simp only [OpenTable.appendAll]
    rw [ih later,(appendSilent here).2]

theorem withIoRecords (records : List Bytes) (io : Nat → Io) : (withIo records io).map Prod.fst = records :=
  List.ext_getElem (by simp [withIo]) (by simp [withIo])

/-! ### One entry -/

/-- The logs of two states of the tables are the same. -/
def SameLogs (tables tables' : Tables) : Prop :=
  ∀ name, (tables' name).map (fun t => t.wal.file) = (tables name).map fun t => t.wal.file

theorem sameShows {tables tables' : Tables} (same : SameLogs tables tables') : ShowsSame tables tables' := by
  intro name ncols
  have files := congrArg (Option.map (loadTbl ncols)) (same name)
  rwa [Option.map_map,Option.map_map] at files

theorem sameUpdate {tables : Tables} {name : Bytes} {t t' : OpenTable} (own : tables name = some t)
    (file : t'.wal.file = t.wal.file) : SameLogs tables (Function.update tables name (some t')) := by
  intro other
  by_cases is : other = name
  · rw [is,Function.update_self,own,Option.map_some,Option.map_some,file]
  · rw [Function.update_of_ne is]

section
variable [Floats]

theorem entryGoes {build : Build} {tables : Tables} {e : TxnEntry ColBatch} {a : ApplyIo} {t : OpenTable}
    (own : tables e.table = some t) (goes : Goes build e a) :
    ∃ t' records, applyTxnEntry build tables e a = some (Function.update tables e.table (some t'),0) ∧
      entryRecords build e = some (records,true) ∧ t'.wal.file = t.wal.file ++ frame records := by
  obtain ⟨records,is,whole,synced⟩ := goes
  have all := @appendAllWhole t _ fun p hp => (whole p hp).1
  rw [withIoRecords] at all
  have one : ∀ data, records = [data] → (t.append data (a.io 0)).2 = 0 ∧
      (t.append data (a.io 0)).1.wal.file = t.wal.file ++ frame records := fun data only => by
    have here := appendWhole (t := t) (whole (data,a.io 0) (by rw [only]; exact List.mem_singleton_self _)).1
    rw [only]
    exact ⟨here.1,by rw [here.2]; simp [frame]⟩
  rw [applyTxnEntry,own]
  rw [entryRecords] at is ⊢
  cases op : e.op with
  | delete =>
    rw [op] at is
    dsimp only at is ⊢
    obtain ⟨rc,file⟩ := one _ (congrArg Prod.fst (Option.some.inj is)).symm
    exact ⟨_,records,by rw [Option.map_some,rc],is,file⟩
  | update =>
    rw [op] at is
    dsimp only at is ⊢
    obtain ⟨rc,file⟩ := one _ (congrArg Prod.fst (Option.some.inj is)).symm
    exact ⟨_,records,by rw [Option.map_some,rc],is,file⟩
  | insert =>
    rw [op] at is
    dsimp only at is ⊢
    cases batch : e.batch with
    | none =>
      rw [batch] at is
      cases is
      exact ⟨t,[],rfl,rfl,by simp [frame]⟩
    | some b =>
      rw [batch] at is
      dsimp only at is ⊢
      refine ⟨_,records,?_,is,all⟩
      rw [tableAppendIo,is]
      simp [synced op]

theorem entryIdle {build : Build} {tables : Tables} {e : TxnEntry ColBatch} {a : ApplyIo}
    (idle : tables e.table = none ∨ Idle build e a) :
    ∃ tables' rc, applyTxnEntry build tables e a = some (tables',rc) ∧ SameLogs tables tables' ∧
      (tables e.table = none ∨ Fails build e a → rc ≠ 0) := by
  rw [applyTxnEntry]
  cases own : tables e.table with
  | none => exact ⟨tables,-1,rfl,fun _ => rfl,fun _ => by decide⟩
  | some t =>
    obtain ⟨records,fit,is,silent⟩ := idle.resolve_left (by rw [own]; exact nofun)
    have all := @appendAllSilent t _ silent
    have one : ∀ data, records = [data] → (t.append data (a.io 0)).2 ≠ 0 ∧
        (t.append data (a.io 0)).1.wal.file = t.wal.file := fun data only =>
      appendSilent (silent (data,a.io 0) (by rw [only]; exact List.mem_singleton_self _))
    rw [entryRecords] at is
    rw [Fails]
    cases op : e.op with
    | delete =>
      rw [op] at is
      dsimp only at is ⊢
      obtain ⟨rc,file⟩ := one _ (congrArg Prod.fst (Option.some.inj is)).symm
      exact ⟨_,_,rfl,sameUpdate own file,fun _ => rc⟩
    | update =>
      rw [op] at is
      dsimp only at is ⊢
      obtain ⟨rc,file⟩ := one _ (congrArg Prod.fst (Option.some.inj is)).symm
      exact ⟨_,_,rfl,sameUpdate own file,fun _ => rc⟩
    | insert =>
      rw [op] at is
      dsimp only at is ⊢
      cases batch : e.batch with
      | none =>
        refine ⟨_,_,rfl,sameUpdate own rfl,fun fails => ?_⟩
        obtain ⟨b,some_,_⟩ := fails.resolve_left nofun
        cases some_
      | some b =>
        rw [batch] at is
        dsimp only at is ⊢
        refine ⟨_,_,by rw [tableAppendIo,is]; rfl,sameUpdate own all,fun fails => ?_⟩
        obtain ⟨b',same,rows,why⟩ := fails.resolve_left nofun
        cases same
        rw [if_neg rows]
        rcases why with unsynced | ⟨_,unfit⟩
        · simp [unsynced]
        · rw [is] at unfit
          cases unfit
          simp

/-! ### The loop -/

theorem applyGoes {build : Build} {tables : Tables} {es : List (TxnEntry ColBatch × ApplyIo)}
    (goes : ∀ p ∈ es, (tables p.1.table).isSome ∧ Goes build p.1 p.2) :
    ∃ tables', applyAll build tables es = some (tables',0) ∧ ∀ name t, tables name = some t →
      ∃ t', tables' name = some t' ∧ t'.wal.file = t.wal.file ++ frame (recordsOn build name (es.map Prod.fst)) := by
  induction es generalizing tables with
  | nil => exact ⟨tables,rfl,fun name t own => ⟨t,own,by simp [recordsOn,frame]⟩⟩
  | cons p es ih =>
    obtain ⟨here,later⟩ := List.forall_mem_cons.mp goes
    obtain ⟨e,a⟩ := p
    obtain ⟨t,own⟩ := Option.isSome_iff_exists.mp here.1
    obtain ⟨t1,records,ran,wrote,file⟩ := entryGoes own here.2
    have still : ∀ q ∈ es, (Function.update tables e.table (some t1) q.1.table).isSome ∧ Goes build q.1 q.2 := fun q hq => by
      refine ⟨?_,(later q hq).2⟩
      by_cases same : q.1.table = e.table
      · rw [same,Function.update_self]; rfl
      · rw [Function.update_of_ne same]; exact (later q hq).1
    obtain ⟨tables',rest,files⟩ := ih still
    refine ⟨tables',by simp [applyAll,ran,rest],fun name u is => ?_⟩
    rw [List.map_cons,recordsOn,List.flatMap_cons]
    by_cases same : e.table = name
    · subst same
      obtain ⟨t',is',file'⟩ := files e.table t1 (by rw [Function.update_self])
      cases own.symm.trans is
      refine ⟨t',is',?_⟩
      rw [file',file,if_pos rfl,wrote,frameAppend,List.append_assoc]
      rfl
    · obtain ⟨t',is',file'⟩ := files name u (by rw [Function.update_of_ne (Ne.symm same),is])
      exact ⟨t',is',by rw [file',if_neg same]; rfl⟩

theorem applyStops {build : Build} {tables : Tables} {front rest : List (TxnEntry ColBatch × ApplyIo)} {e : TxnEntry ColBatch}
    {a : ApplyIo} (idle : ∀ p ∈ front ++ [(e,a)], tables p.1.table = none ∨ Idle build p.1 p.2)
    (fails : tables e.table = none ∨ Fails build e a) :
    ∃ tables' rc, applyAll build tables (front ++ (e,a) :: rest) = some (tables',rc) ∧ rc ≠ 0 ∧ SameLogs tables tables' := by
  induction front generalizing tables with
  | nil =>
    obtain ⟨tables',rc,ran,same,code⟩ := entryIdle (idle (e,a) (by simp))
    exact ⟨tables',rc,by simp [applyAll,ran,code fails],code fails,same⟩
  | cons p front ih =>
    obtain ⟨here,later⟩ := List.forall_mem_cons.mp idle
    obtain ⟨tables1,rc,ran,same,_⟩ := entryIdle here
    have absent : ∀ {name}, tables name = none → tables1 name = none := fun {name} none_ => by
      have := same name
      rw [none_] at this
      simpa using this
    by_cases code : rc = 0
    · obtain ⟨tables',rc',ran',bad,same'⟩ := ih (fun q hq => (later q hq).imp_left absent) (fails.imp_left absent)
      exact ⟨tables',rc',by simp [applyAll,ran,code,ran'],bad,fun name => (same' name).trans (same name)⟩
    · exact ⟨tables1,rc,by simp [applyAll,ran,code],code,same⟩

theorem applyAtomic {build : Build} {tables : Tables} {es : List (TxnEntry ColBatch × ApplyIo)}
    (fits : CommitFits build tables es) :
    ∃ tables' rc, applyAll build tables es = some (tables',rc) ∧ Atomic build tables tables' (es.map Prod.fst) rc := by
  rcases fits with ⟨goes,logs⟩ | ⟨front,e,a,rest,rfl,idle,fails⟩
  · obtain ⟨tables',ran,files⟩ := applyGoes goes
    refine ⟨tables',0,ran,⟨fun _ => ⟨fun e he => ?_,fun name t own => ?_⟩,fun bad => absurd rfl bad⟩⟩
    · obtain ⟨p,hp,rfl⟩ := List.mem_map.mp he
      obtain ⟨own,records,is,_⟩ := goes p hp
      exact ⟨own,records,is⟩
    · obtain ⟨t',is,file⟩ := files name t own
      obtain ⟨ps,small,whole⟩ := logs name t own
      have new : Framable (recordsOn build name (es.map Prod.fst)) := fun data hd => by
        obtain ⟨e,he,hd⟩ := List.mem_flatMap.mp hd
        obtain ⟨p,hp,rfl⟩ := List.mem_map.mp he
        obtain ⟨_,records,wrote,io,_⟩ := goes p hp
        rw [wrote] at hd
        split at hd
        · have mem : data ∈ records := hd
          rw [← withIoRecords records p.2.io] at mem
          obtain ⟨q,hq,rfl⟩ := List.mem_map.mp mem
          exact (io q hq).2
        · cases hd
      refine ⟨t',is,?_⟩
      rw [file,whole,← frameAppend,recordsFrame small,
        recordsFrame fun q hq => (List.mem_append.mp hq).elim (small q) (new q)]
  · obtain ⟨tables',rc,ran,bad,same⟩ := @applyStops _ build tables front rest e a idle fails
    exact ⟨tables',rc,ran,⟨fun zero => absurd zero bad,fun _ => sameShows same⟩⟩

end

/-- One table with an empty log. -/
def oneTable : Tables := fun name => if name = ascii "t" then some (tableOpen (ascii "t") []) else none

/-- Writes that take all they are given. -/
def wholeIo : ApplyIo := ⟨fun _ => ⟨some 4096,some 4096⟩,true⟩

/-- A transaction with these calls. -/
def bufferAll (ws : List (Write ColBatch)) : TxnManager ColBatch :=
  ws.foldl (fun tm w => (txnBuffer tm 1 w).1) (txnBegin txnManagerCreate 0).1

theorem oneInsertFits : @CommitFits wholeFloats .rows oneTable
    [(⟨ascii "t",.insert,some sevenEight,0,[],0⟩,wholeIo)] := by
  refine .inl ⟨List.forall_mem_singleton.mpr ⟨by decide,[ascii "7\n",ascii "8\n"],by decide,by decide,fun _ => rfl⟩,
    fun name t own => ⟨[],by simp [Framable],?_⟩⟩
  simp only [oneTable] at own
  split at own
  · cases own; rfl
  · cases own

end Napastak.Txns
