import Napastak.MatView
import Mathlib.Data.List.Infix

/-! Runs of the materialised views: what a view that is not stale holds, and which views wait for a refresh. -/
namespace Napastak.Mvs
open Auth (strstr)
open Replay

/-- The table of the view is the result of its definition over states of its sources that have the writes up to the
given ones. -/
def HoldsResult (w : World) (upTo : Bytes → Nat) (v : MatView) : Prop :=
  ∃ sources, w.content v.name = some (v.definitionSql,sources) ∧ ∀ t ∈ v.sourceTables, upTo t ≤ sources t

def Current (w : World) : Prop := ∀ v ∈ w.views.rows, v.isStale = false → HoldsResult w w.completed v

/-- The view whose refresh the thread is in. -/
def Thread.refreshing : Thread → Option Bytes
  | .done => none
  | .read name _ | .store name _ _ | .record name _ => some name
  | .mark _ _ refresh | .enqueue _ _ _ refresh => refresh

/-- The view whose sources the thread has read, without having recorded the refresh. -/
def Thread.hasRead : Thread → Option Bytes
  | .done | .read _ _ | .record _ false => none
  | .store name _ _ | .record name true => some name
  | .mark _ _ refresh | .enqueue _ _ _ refresh => refresh

/-- No write is marked between the read of a view over it and the record of that refresh, and no write concerns more
views than there is room for; views are not redefined during a refresh, and only a refresh writes to the table of a
view, without failing. -/
def Undisturbed (w : World) : Act → Prop
  | .createView mv => ∀ th ∈ w.threads, th.refreshing ≠ some mv.name
  | .write table => ∀ v ∈ w.views.rows, v.name ≠ table
  | .advance i ok _ => match w.threads[i]? with
    | some (.store ..) => ok = true
    | some (.mark table _ _) =>
      (w.views.rows.filter fun v => !v.isStale && v.uses table).length ≤ maxNames ∧
        ∀ th ∈ w.threads, ∀ v ∈ w.views.rows, th.hasRead = some v.name → table ∉ v.sourceTables
    | _ => True
  | _ => True

/-- What sqlite gives for a name without a quote whose text fits the buffer. -/
def plainSelect : Select := fun rows sql => rows.find? fun v => decide (getText v.name = sql)

def orders : Bytes := ascii "orders"
def totals : Bytes := ascii "totals"

def totalsView (mode : MvRefreshMode) : MatView := ⟨totals,ascii "SELECT sum(n) FROM orders",[orders],mode,ascii "60",0,true⟩

/-! ### The ticker's steps -/

theorem tickPendingStep {select : Select} {w w' : World} (moved : step select w .tickPending = some w') :
    w.names = [] ∧ w' = {w with tick := .onWrite, names := w.pending, pending := []} := by
  simp only [step] at moved
  split at moved
  · rename_i none _
    exact ⟨none,(Option.some.inj moved).symm⟩
  · cases moved

theorem tickNextStep {select : Select} {w w' : World} (moved : step select w .tickNext = some w') :
    ∃ name names rest, w.names = name :: names ∧ w.threads = .done :: rest ∧
      w' = {w with names := names, threads := mvsRefresh w.views name :: rest} := by
  simp only [step] at moved
  split at moved
  · rename_i name names rest listed threads
    exact ⟨name,names,rest,listed,threads,(Option.some.inj moved).symm⟩
  · cases moved

theorem tickScheduleStep {select : Select} {w w' : World} {now : Int} (moved : step select w (.tickSchedule now) = some w') :
    w.names = [] ∧ w' = {w with
      tick := .schedule
      names := schedNames w.views now
      missed := w.missed ++
        ((w.views.rows.filter fun v => v.due now).map MatView.name).filter fun n => decide (n ∉ schedNames w.views now)} := by
  simp only [step] at moved
  split at moved
  · rename_i none _
    exact ⟨none,(Option.some.inj moved).symm⟩
  · cases moved

/-! ### Rows -/

theorem findRow {m : Matviews} {name : Bytes} {v : MatView} (found : m.find name = some v) : v ∈ m.rows ∧ v.name = name :=
  ⟨List.mem_of_find?_eq_some found,of_decide_eq_true (List.find?_some (p := fun v : MatView => decide (v.name = name)) found)⟩

theorem updatedRow {m : Matviews} {name : Bytes} {u : Update} {v' : MatView} (mem : v' ∈ (m.update name u).rows) :
    ∃ v ∈ m.rows, v.name = v'.name ∧ v' = if v.name = name then u.apply v else v := by
  obtain ⟨v,own,is⟩ := List.mem_map.mp mem
  refine ⟨v,own,?_,is.symm⟩
  rw [← is]
  split
  · exact (u.sameName v).symm
  · rfl

theorem invalidateRows (select : Select) (m : Matviews) (names : List Bytes) :
    (invalidate select m names).1.rows = m.rows.map fun v => if v.name ∈ names then setStale.apply v else v := by
  induction names generalizing m with
  | nil => simp [invalidate]
  | cons name names ih =>
    rw [invalidate,ih,Matviews.update,List.map_map]
    apply List.map_congr_left
    intro v mem
    by_cases here : v.name = name
    · by_cases later : name ∈ names <;> simp [here,later,setStale]
    · simp [here]

theorem memIntercalate {sep x : Bytes} {xs : List Bytes} (mem : x ∈ xs) : x <:+: sep.intercalate xs := by
  induction xs with
  | nil => cases mem
  | cons y ys ih =>
    cases ys with
    | nil =>
      rw [List.mem_singleton.mp mem,List.intercalate_singleton]
    | cons z zs =>
      rw [List.intercalate_cons_cons]
      rcases List.mem_cons.mp mem with is | later
      · rw [is]
        exact ⟨[],sep ++ sep.intercalate (z :: zs),by simp⟩
      · exact (ih later).trans ⟨y ++ sep,[],by simp⟩

theorem strstrInfix {hay needle : Bytes} (inside : needle <:+: hay) : (strstr hay needle).isSome = true := by
  obtain ⟨before,rest,is⟩ := inside
  rw [strstr,List.find?_isSome]
  refine ⟨needle ++ rest,?_,by simp⟩
  rw [List.mem_tails]
  exact ⟨before,by rw [← List.append_assoc,is]⟩

/-- The test for a substring finds every source. -/
theorem usesSource {v : MatView} {t : Bytes} (source : t ∈ v.sourceTables) : v.uses t = true := by
  apply strstrInfix
  have quoted : t <:+: ascii "\"" ++ t ++ ascii "\"" := ⟨_,_,rfl⟩
  have listed := @memIntercalate (ascii ",") _ _ (List.mem_map_of_mem (f := fun t => ascii "\"" ++ t ++ ascii "\"") source)
  exact quoted.trans (listed.trans ⟨_,_,rfl⟩)

/-- While they fit the list, the flags of all the views over a table are set. -/
theorem unmarkedRow {select : Select} {m : Matviews} {table : Bytes} {v' : MatView}
    (fits : (m.rows.filter fun v => !v.isStale && v.uses table).length ≤ maxNames)
    (mem : v' ∈ (invalidate select m (toInvalidate m table)).1.rows) :
    ∃ v ∈ m.rows, v.name = v'.name ∧ v'.definitionSql = v.definitionSql ∧ v'.sourceTables = v.sourceTables ∧
      (v'.isStale = false → v' = v ∧ v.uses table = false) := by
  rw [invalidateRows] at mem
  obtain ⟨v,own,is⟩ := List.mem_map.mp mem
  refine ⟨v,own,?_⟩
  by_cases listed : v.name ∈ toInvalidate m table
  · rw [if_pos listed] at is
    subst is
    exact ⟨rfl,rfl,rfl,fun fresh => by cases fresh⟩
  · rw [if_neg listed] at is
    subst is
    refine ⟨rfl,rfl,rfl,fun fresh => ⟨rfl,Bool.eq_false_iff.mpr fun uses => listed ?_⟩⟩
    rw [toInvalidate,List.take_of_length_le fits]
    exact List.mem_map_of_mem (List.mem_filter.mpr ⟨own,by rw [fresh,uses]; rfl⟩)

/-! ### What a view holds -/

def Defined (w : World) (n sql : Bytes) : Prop := ∀ v ∈ w.views.rows, v.name = n → v.definitionSql = sql

def Covers (w : World) (n : Bytes) (sources : Bytes → Nat) : Prop :=
  ∀ v ∈ w.views.rows, v.name = n → ∀ t ∈ v.sourceTables, w.marked t ≤ sources t

def Stored (w : World) (n : Bytes) : Prop := ∀ v ∈ w.views.rows, v.name = n → HoldsResult w w.marked v

/-- A thread will record a view as refreshed only when its table has all the writes marked so far. -/
def ThreadOk (w : World) : Thread → Prop
  | .done | .record _ false => True
  | .read name sql => Defined w name sql
  | .store name sql sources => Defined w name sql ∧ Covers w name sources
  | .mark table write refresh => write ≤ w.version table ∧ ∀ n, refresh = some n → Stored w n
  | .enqueue table write _ refresh => write ≤ w.marked table ∧ ∀ n, refresh = some n → Stored w n
  | .record name true => Stored w name

structure Inv (w : World) : Prop where
  settled : ∀ v ∈ w.views.rows, v.isStale = false → HoldsResult w w.marked v
  threads : ∀ th ∈ w.threads, ThreadOk w th
  order : ∀ t, w.completed t ≤ w.marked t ∧ w.marked t ≤ w.version t

/-- The rows of a name come from rows of that name with the same definition. -/
def SameRows (w w' : World) (n : Bytes) : Prop := ∀ v' ∈ w'.views.rows, v'.name = n →
  ∃ v ∈ w.views.rows, v.name = n ∧ v'.definitionSql = v.definitionSql ∧ v'.sourceTables = v.sourceTables

theorem HoldsResult.carry {w w' : World} {v v' : MatView} (holds : HoldsResult w w.marked v) (name : v.name = v'.name)
    (sql : v'.definitionSql = v.definitionSql) (sources : v'.sourceTables = v.sourceTables)
    (content : w'.content v'.name = w.content v'.name) (marks : ∀ t ∈ v.sourceTables, w'.marked t = w.marked t) :
    HoldsResult w' w'.marked v' := by
  obtain ⟨snap,is,covers⟩ := holds
  refine ⟨snap,by rw [content,← name,is,sql],fun t mem => ?_⟩
  rw [sources] at mem
  rw [marks t mem]
  exact covers t mem

theorem Defined.carry {w w' : World} {n sql : Bytes} (d : Defined w n sql) (same : SameRows w w' n) : Defined w' n sql := by
  intro v' mem name
  obtain ⟨v,own,named,is,_⟩ := same v' mem name
  rw [is,d v own named]

theorem Covers.carry {w w' : World} {n : Bytes} {snap : Bytes → Nat} (c : Covers w n snap) (same : SameRows w w' n)
    (marks : ∀ v ∈ w.views.rows, v.name = n → ∀ t ∈ v.sourceTables, w'.marked t = w.marked t) : Covers w' n snap := by
  intro v' mem name t source
  obtain ⟨v,own,named,_,sources⟩ := same v' mem name
  rw [sources] at source
  rw [marks v own named t source]
  exact c v own named t source

theorem Stored.carry {w w' : World} {n : Bytes} (s : Stored w n) (same : SameRows w w' n) (content : w'.content n = w.content n)
    (marks : ∀ v ∈ w.views.rows, v.name = n → ∀ t ∈ v.sourceTables, w'.marked t = w.marked t) : Stored w' n := by
  intro v' mem name
  obtain ⟨v,own,named,sql,sources⟩ := same v' mem name
  exact (s v own named).carry (named.trans name.symm) sql sources (by rw [name,content]) (marks v own named)

theorem ThreadOk.carry {w w' : World} {th : Thread} (ok : ThreadOk w th)
    (rows : ∀ n, th.refreshing = some n → SameRows w w' n)
    (marks : ∀ n, th.hasRead = some n → ∀ v ∈ w.views.rows, v.name = n → ∀ t ∈ v.sourceTables, w'.marked t = w.marked t)
    (stored : ∀ n, th.hasRead = some n → Stored w n → Stored w' n)
    (version : ∀ t, w.version t ≤ w'.version t) (marked : ∀ t, w.marked t ≤ w'.marked t) : ThreadOk w' th := by
  cases th with
  | done => trivial
  | read name sql => exact Defined.carry ok (rows name rfl)
  | store name sql snap => exact ⟨ok.1.carry (rows name rfl),ok.2.carry (rows name rfl) (marks name rfl)⟩
  | mark table write refresh => exact ⟨ok.1.trans (version table),fun n is => stored n is (ok.2 n is)⟩
  | enqueue table write names refresh => exact ⟨ok.1.trans (marked table),fun n is => stored n is (ok.2 n is)⟩
  | record name done =>
    cases done with
    | false => trivial
    | true => exact stored name rfl ok

theorem sameRowsOf {w w' : World} {n : Bytes} (same : w'.views = w.views) : SameRows w w' n :=
  fun v mem name => ⟨v,same ▸ mem,name,rfl,rfl⟩

/-- A step that leaves rows, contents and marks alone. -/
theorem ThreadOk.idle {w w' : World} {th : Thread} (ok : ThreadOk w th) (views : w'.views = w.views)
    (content : w'.content = w.content) (marked : w'.marked = w.marked) (version : ∀ t, w.version t ≤ w'.version t) :
    ThreadOk w' th :=
  ok.carry (fun _ _ => sameRowsOf views) (fun _ _ _ _ _ _ _ => by rw [marked])
    (fun _ _ s => s.carry (sameRowsOf views) (by rw [content]) fun _ _ _ _ _ => by rw [marked]) version
    (fun _ => by rw [marked])

theorem refreshOk (w : World) (name : Bytes) : ThreadOk w (mvsRefresh w.views name) := by
  unfold mvsRefresh
  split
  · trivial
  · rename_i v found
    obtain ⟨mem,named⟩ := findRow found
    intro v' mem' same
    rw [List.inj_on_of_nodup_map w.views.keyed mem' mem (same.trans named.symm)]

/-- What a step of a thread leaves behind, when it keeps what every other thread relies on. -/
theorem Inv.advanced {w w' : World} {i : Nat} {th th' : Thread} (inv : Inv w) (at_ : w.threads[i]? = some th)
    (settled : ∀ v ∈ w'.views.rows, v.isStale = false → HoldsResult w' w'.marked v)
    (others : ∀ th ∈ w.threads, ThreadOk w th → ThreadOk w' th) (own : ThreadOk w th → ThreadOk w' th')
    (order : ∀ t, w'.completed t ≤ w'.marked t ∧ w'.marked t ≤ w'.version t) :
    Inv {w' with threads := w.threads.set i th'} where
  settled := settled
  threads := by
    intro x mem
    have keeps : ∀ x, ThreadOk w' x → ThreadOk {w' with threads := w.threads.set i th'} x := fun x ok =>
      ok.idle rfl rfl rfl fun _ => Nat.le_refl _
    rcases List.mem_or_eq_of_mem_set mem with old | rfl
    · exact keeps x (others x old (inv.threads x old))
    · exact keeps x (own (inv.threads th (List.mem_of_getElem? at_)))
  order := order

theorem storeKeeps {select : Select} {w : World} {i : Nat} {now : Int} {name sql : Bytes} {sources : Bytes → Nat} (inv : Inv w)
    (at_ : w.threads[i]? = some (.store name sql sources)) :
    Inv {(advance select w true now (.store name sql sources)).1 with
      threads := w.threads.set i (advance select w true now (.store name sql sources)).2} := by
  obtain ⟨defined,covers⟩ := inv.threads _ (List.mem_of_getElem? at_)
  have newer : ∀ t, w.version t ≤ Function.update w.version name (w.version name + 1) t := fun t => by
    by_cases is : t = name
    · subst is; rw [Function.update_self]; omega
    · rw [Function.update_of_ne is]
  have written : ∀ v ∈ w.views.rows, v.name = name →
      HoldsResult (advance select w true now (.store name sql sources)).1 w.marked v := fun v mem named =>
    ⟨sources,by rw [named,defined v mem named]; exact Function.update_self ..,covers v mem named⟩
  have kept : ∀ v, v.name ≠ name → HoldsResult w w.marked v →
      HoldsResult (advance select w true now (.store name sql sources)).1 w.marked v := fun v other holds =>
    holds.carry rfl rfl rfl (Function.update_of_ne other ..) fun _ _ => rfl
  have stored : ∀ n, Stored w n → Stored (advance select w true now (.store name sql sources)).1 n := fun n s v mem named => by
    by_cases is : v.name = name
    · exact written v mem is
    · exact kept v is (s v mem named)
  refine inv.advanced at_ ?_ ?_ ?_ ?_
  · intro v mem fresh
    by_cases is : v.name = name
    · exact written v mem is
    · exact kept v is (inv.settled v mem fresh)
  · intro th _ ok
    exact ok.carry (fun _ _ => sameRowsOf rfl) (fun _ _ _ _ _ _ _ => rfl) (fun n _ => stored n) newer fun _ => Nat.le_refl _
  · intro _
    refine ⟨?_,fun n is v mem named => written v mem (by cases is; exact named)⟩
    show w.version name + 1 ≤ Function.update w.version name (w.version name + 1) name
    rw [Function.update_self]
  · exact fun t => ⟨(inv.order t).1,(inv.order t).2.trans (newer t)⟩

theorem markKeeps {select : Select} {w : World} {i : Nat} {ok : Bool} {now : Int} {table : Bytes} {write : Nat}
    {refresh : Option Bytes} (inv : Inv w) (at_ : w.threads[i]? = some (.mark table write refresh))
    (fits : (w.views.rows.filter fun v => !v.isStale && v.uses table).length ≤ maxNames)
    (apart : ∀ th ∈ w.threads, ∀ v ∈ w.views.rows, th.hasRead = some v.name → table ∉ v.sourceTables) :
    Inv {(advance select w ok now (.mark table write refresh)).1 with
      threads := w.threads.set i (advance select w ok now (.mark table write refresh)).2} := by
  obtain ⟨seen,own⟩ := inv.threads _ (List.mem_of_getElem? at_)
  let w' := (advance select w ok now (.mark table write refresh)).1
  have rows : ∀ n, SameRows w w' n := fun n v' mem named => by
    obtain ⟨v,old,name,sql,sources,_⟩ := unmarkedRow fits mem
    exact ⟨v,old,name.trans named,sql,sources⟩
  have elsewhere : ∀ v : MatView, table ∉ v.sourceTables → ∀ t ∈ v.sourceTables, w'.marked t = w.marked t :=
    fun v other t mem => Function.update_of_ne (fun is : t = table => other (is ▸ mem)) ..
  have marks : ∀ th ∈ w.threads, ∀ n, th.hasRead = some n → ∀ v ∈ w.views.rows, v.name = n →
      ∀ t ∈ v.sourceTables, w'.marked t = w.marked t :=
    fun th mem n read v old named => elsewhere v (apart th mem v old (named ▸ read))
  have stored : ∀ th ∈ w.threads, ∀ n, th.hasRead = some n → Stored w n → Stored w' n :=
    fun th mem n read s => s.carry (rows n) rfl (marks th mem n read)
  have grown : ∀ t, w.marked t ≤ w'.marked t := fun t => by
    show w.marked t ≤ Function.update w.marked table (max (w.marked table) write) t
    by_cases is : t = table
    · subst is; rw [Function.update_self]; omega
    · rw [Function.update_of_ne is]
  refine inv.advanced at_ ?_ ?_ ?_ ?_
  · intro v' mem fresh
    obtain ⟨v,old,name,sql,sources,clean⟩ := unmarkedRow fits mem
    obtain ⟨rfl,unused⟩ := clean fresh
    exact (inv.settled v' old fresh).carry rfl rfl rfl rfl
      (elsewhere v' fun source => by rw [usesSource source] at unused; cases unused)
  · exact fun th mem ok => ok.carry (fun n _ => rows n) (marks th mem) (stored th mem) (fun _ => Nat.le_refl _) grown
  · intro _
    refine ⟨?_,fun n is => stored _ (List.mem_of_getElem? at_) n is (own n is)⟩
    show write ≤ Function.update w.marked table (max (w.marked table) write) table
    rw [Function.update_self]
    omega
  · intro t
    refine ⟨(inv.order t).1.trans (grown t),?_⟩
    show Function.update w.marked table (max (w.marked table) write) t ≤ w.version t
    by_cases is : t = table
    · subst is
      rw [Function.update_self]
      exact Nat.max_le.mpr ⟨(inv.order t).2,seen⟩
    · rw [Function.update_of_ne is]
      exact (inv.order t).2

theorem recordKeeps {select : Select} {w : World} {i : Nat} {ok done : Bool} {now : Int} {name : Bytes} (inv : Inv w)
    (at_ : w.threads[i]? = some (.record name done)) :
    Inv {(advance select w ok now (.record name done)).1 with
      threads := w.threads.set i (advance select w ok now (.record name done)).2} := by
  have own := inv.threads _ (List.mem_of_getElem? at_)
  let w' := (advance select w ok now (.record name done)).1
  have from_ : ∀ v' ∈ w'.views.rows, ∃ v ∈ w.views.rows, v.name = v'.name ∧ v'.definitionSql = v.definitionSql ∧
      v'.sourceTables = v.sourceTables ∧ (v.name = name ∧ v'.isStale = !done ∨ v'.isStale = v.isStale) := fun v' mem => by
    obtain ⟨v,old,named,is⟩ := updatedRow mem
    refine ⟨v,old,named,?_⟩
    by_cases here : v.name = name
    · rw [if_pos here] at is
      subst is
      exact ⟨rfl,rfl,Or.inl ⟨here,rfl⟩⟩
    · rw [if_neg here] at is
      subst is
      exact ⟨rfl,rfl,Or.inr rfl⟩
  have rows : ∀ n, SameRows w w' n := fun n v' mem named => by
    obtain ⟨v,old,name,sql,sources,_⟩ := from_ v' mem
    exact ⟨v,old,name.trans named,sql,sources⟩
  refine inv.advanced at_ ?_ ?_ (fun _ => trivial) inv.order
  · intro v' mem fresh
    obtain ⟨v,old,named,sql,sources,flag⟩ := from_ v' mem
    refine HoldsResult.carry ?_ named sql sources rfl fun _ _ => rfl
    rcases flag with ⟨here,flag⟩ | flag
    · cases done with
      | false => rw [fresh] at flag; cases flag
      | true => exact own v old here
    · exact inv.settled v old (flag ▸ fresh)
  · exact fun th _ ok => ok.carry (fun n _ => rows n) (fun _ _ _ _ _ _ _ => rfl)
      (fun n _ s => s.carry (rows n) rfl fun _ _ _ _ _ => rfl) (fun _ => Nat.le_refl _) fun _ => Nat.le_refl _

theorem createdRow {m m' : Matviews} {mv v' : MatView} (made : mvsCreateView m mv = some m') (mem : v' ∈ m'.rows) :
    v' ∈ m.rows ∨ v'.name = mv.name ∧ v'.isStale = true := by
  unfold mvsCreateView at made
  split at made
  · cases made; exact Or.inl mem
  split at made
  · cases made
  split at made
  · cases made
    obtain ⟨v,old,named,is⟩ := updatedRow mem
    by_cases here : v.name = mv.name
    · rw [if_pos here] at is
      exact Or.inr ⟨named.symm.trans here,by rw [is]; rfl⟩
    · rw [if_neg here] at is
      exact Or.inl (is ▸ old)
  · cases made
    rcases List.mem_append.mp mem with old | new
    · exact Or.inl old
    · rw [List.mem_singleton.mp new]
      exact Or.inr ⟨rfl,rfl⟩

/-- The ticker's own steps and the start of a refresh change threads and names only. -/
theorem Inv.started {w w' : World} (inv : Inv w) (views : w'.views = w.views) (content : w'.content = w.content)
    (marked : w'.marked = w.marked) (completed : w'.completed = w.completed) (version : w'.version = w.version)
    (threads : ∀ th ∈ w'.threads, th ∈ w.threads ∨ ∃ name, th = mvsRefresh w.views name) : Inv w' where
  settled v mem fresh := by
    have holds := inv.settled v (views ▸ mem) fresh
    exact holds.carry rfl rfl rfl (by rw [content]) fun _ _ => by rw [marked]
  threads th mem := by
    have idle : ThreadOk w th → ThreadOk w' th := fun ok => ok.idle views content marked fun _ => by rw [version]
    rcases threads th mem with old | ⟨name,rfl⟩
    · exact idle (inv.threads th old)
    · exact idle (refreshOk w name)
  order t := by
    rw [completed,marked,version]
    exact inv.order t

theorem createKeeps {w : World} {mv : MatView} {m : Matviews} (inv : Inv w) (made : mvsCreateView w.views mv = some m)
    (idle : ∀ th ∈ w.threads, th.refreshing ≠ some mv.name) : Inv {w with views := m} where
  settled v mem fresh := by
    rcases createdRow made mem with old | ⟨_,stale⟩
    · exact inv.settled v old fresh
    · rw [stale] at fresh; cases fresh
  threads th mem := by
    have reads : ∀ n, th.hasRead = some n → th.refreshing = some n := fun n read => by
      cases th with
      | record name done => cases done with
        | false => cases read
        | true => exact read
      | done => cases read
      | read => cases read
      | store => exact read
      | mark => exact read
      | enqueue => exact read
    have rows : ∀ n, th.refreshing = some n → SameRows w {w with views := m} n := fun n is v mem' named => by
      rcases createdRow made mem' with old | ⟨other,_⟩
      · exact ⟨v,old,named,rfl,rfl⟩
      · exact absurd (by rw [is,← named,other]) (idle th mem)
    exact (inv.threads th mem).carry rows (fun _ _ _ _ _ _ _ => rfl)
      (fun n read s => s.carry (rows n (reads n read)) rfl fun _ _ _ _ _ => rfl) (fun _ => Nat.le_refl _) fun _ => Nat.le_refl _
  order := inv.order

theorem dropKeeps {w : World} {name : Bytes} {names : List Bytes} (inv : Inv w) :
    Inv {w with views := w.views.delete name, outdated := names} where
  settled v mem fresh := inv.settled v (List.mem_filter.mp mem).1 fresh
  threads th mem := by
    have rows : ∀ n, SameRows w {w with views := w.views.delete name, outdated := names} n :=
      fun n v mem' named => ⟨v,(List.mem_filter.mp mem').1,named,rfl,rfl⟩
    exact (inv.threads th mem).carry (fun n _ => rows n) (fun _ _ _ _ _ _ _ => rfl)
      (fun n _ s => s.carry (rows n) rfl fun _ _ _ _ _ => rfl) (fun _ => Nat.le_refl _) fun _ => Nat.le_refl _
  order := inv.order

theorem writeKeeps {w : World} {table : Bytes} (inv : Inv w) (apart : ∀ v ∈ w.views.rows, v.name ≠ table) : Inv {w with
    version := Function.update w.version table (w.version table + 1)
    content := Function.update w.content table none
    threads := w.threads ++ [.mark table (w.version table + 1) none]} := by
  have newer : ∀ t, w.version t ≤ Function.update w.version table (w.version table + 1) t := fun t => by
    by_cases is : t = table
    · subst is; rw [Function.update_self]; omega
    · rw [Function.update_of_ne is]
  have kept : ∀ v ∈ w.views.rows, HoldsResult w w.marked v → HoldsResult {w with
      version := Function.update w.version table (w.version table + 1)
      content := Function.update w.content table none
      threads := w.threads ++ [.mark table (w.version table + 1) none]} w.marked v := fun v mem holds =>
    holds.carry rfl rfl rfl (Function.update_of_ne (apart v mem) ..) fun _ _ => rfl
  refine ⟨fun v mem fresh => kept v mem (inv.settled v mem fresh),?_,fun t => ⟨(inv.order t).1,(inv.order t).2.trans (newer t)⟩⟩
  intro th mem
  rcases List.mem_append.mp mem with old | new
  · exact (inv.threads th old).carry (fun _ _ => sameRowsOf rfl) (fun _ _ _ _ _ _ _ => rfl)
      (fun n _ s v mem named => kept v mem (s v mem named)) newer fun _ => Nat.le_refl _
  · rw [List.mem_singleton.mp new]
    refine ⟨?_,fun n is => by cases is⟩
    show w.version table + 1 ≤ Function.update w.version table (w.version table + 1) table
    rw [Function.update_self]

theorem advanceKeeps {select : Select} {w : World} {i : Nat} {th : Thread} {ok : Bool} {now : Int} (inv : Inv w)
    (at_ : w.threads[i]? = some th) (calm : Undisturbed w (.advance i ok now)) :
    Inv {(advance select w ok now th).1 with threads := w.threads.set i (advance select w ok now th).2} := by
  rw [Undisturbed,at_] at calm
  have same : ∀ x ∈ w.threads, ThreadOk w x → ThreadOk w x := fun _ _ ok => ok
  cases th with
  | done => exact inv.advanced at_ inv.settled same (fun ok => ok) inv.order
  | read name sql =>
    cases ok with
    | false => exact inv.advanced at_ inv.settled same (fun _ => trivial) inv.order
    | true => exact inv.advanced at_ inv.settled same (fun ok => ⟨ok,fun _ _ _ t _ => (inv.order t).2⟩) inv.order
  | store name sql sources =>
    cases (show ok = true from calm)
    exact storeKeeps inv at_
  | mark table write refresh => exact markKeeps inv at_ calm.1 calm.2
  | enqueue table write toRefresh refresh =>
    have own := inv.threads _ (List.mem_of_getElem? at_)
    refine inv.advanced at_ inv.settled (fun x _ ok => ok.idle rfl rfl rfl fun _ => Nat.le_refl _) (fun _ => ?_) fun t => ⟨?_,(inv.order t).2⟩
    · cases refresh with
      | none => trivial
      | some name => exact own.2 name rfl
    · show Function.update w.completed table (max (w.completed table) write) t ≤ w.marked t
      by_cases is : t = table
      · subst is
        rw [Function.update_self]
        exact Nat.max_le.mpr ⟨(inv.order t).1,own.1⟩
      · rw [Function.update_of_ne is]
        exact (inv.order t).1
  | record name done => exact recordKeeps inv at_

theorem stepKeeps {select : Select} (w : World) (a : Act) (w' : World) (inv : Inv w) (calm : Undisturbed w a)
    (moved : step select w a = some w') : Inv w' := by
  cases a with
  | createView mv =>
    obtain ⟨m,made,rfl⟩ := Option.map_eq_some_iff.mp moved
    exact createKeeps inv made calm
  | dropView name => cases moved; exact dropKeeps inv
  | write table => cases moved; exact writeKeeps inv calm
  | refresh name =>
    cases moved
    refine inv.started rfl rfl rfl rfl rfl fun th mem => ?_
    rcases List.mem_append.mp mem with old | new
    · exact Or.inl old
    · exact Or.inr ⟨name,List.mem_singleton.mp new⟩
  | advance i ok now =>
    obtain ⟨th,at_,rfl⟩ := Option.map_eq_some_iff.mp moved
    exact advanceKeeps inv at_ calm
  | tickPending =>
    rw [(tickPendingStep moved).2]
    exact inv.started rfl rfl rfl rfl rfl fun th mem => Or.inl mem
  | tickNext =>
    obtain ⟨name,names,rest,_,is,rfl⟩ := tickNextStep moved
    refine inv.started rfl rfl rfl rfl rfl fun th mem => ?_
    rcases List.mem_cons.mp mem with new | old
    · exact Or.inr ⟨name,new⟩
    · exact Or.inl (is ▸ List.mem_cons_of_mem _ old)
  | tickSchedule now =>
    rw [(tickScheduleStep moved).2]
    exact inv.started rfl rfl rfl rfl rfl fun th mem => Or.inl mem

theorem startInv : Inv start where
  settled v mem := by cases mem
  threads th mem := by rw [List.mem_singleton.mp mem]; trivial
  order t := ⟨Nat.le_refl _,Nat.le_refl _⟩

/-- In a run without a mark between the read and the record of a refresh, a view that is not stale has the writes of
every finished `mvs_invalidate`. -/
theorem settledCurrent (select : Select) (acts : List Act) {w : World} (calm : along (step select) Undisturbed start acts)
    (reach : run (step select) start acts = some w) : Current w := by
  have inv : Inv w := runInvariant stepKeeps startInv calm reach
  intro v mem fresh
  obtain ⟨sources,is,covers⟩ := inv.settled v mem fresh
  exact ⟨sources,is,fun t source => (inv.order t).1.trans (covers t source)⟩

instance decUndisturbed : ∀ (w : World) (a : Act), Decidable (Undisturbed w a)
  | w,.createView mv => inferInstanceAs (Decidable (∀ th ∈ w.threads, th.refreshing ≠ some mv.name))
  | w,.write table => inferInstanceAs (Decidable (∀ v ∈ w.views.rows, v.name ≠ table))
  | w,.advance i ok now => match is : w.threads[i]? with
    | some (.store ..) => decidable_of_iff (ok = true) (by simp only [Undisturbed,is])
    | some (.mark table _ _) => decidable_of_iff
        ((w.views.rows.filter fun v => !v.isStale && v.uses table).length ≤ maxNames ∧
          ∀ th ∈ w.threads, ∀ v ∈ w.views.rows, th.hasRead = some v.name → table ∉ v.sourceTables)
        (by simp only [Undisturbed,is])
    | none | some .done | some (.read ..) | some (.enqueue ..) | some (.record ..) => isTrue (by simp only [Undisturbed,is])
  | _,.dropView _ | _,.refresh _ | _,.tickPending | _,.tickNext | _,.tickSchedule _ => isTrue trivial

/-- A view is made and refreshed, then a write comes and the ticker refreshes once more. -/
def writeThenTick : List Act :=
  [ .createView (totalsView .onWrite), .refresh totals] ++ List.replicate 5 (.advance 1 true 3) ++
    [ .write orders, .advance 2 true 4, .advance 2 true 4, .tickPending, .tickNext] ++ List.replicate 5 (.advance 0 true 5)

theorem settledCurrentTick : ∃ w, run (step plainSelect) start writeThenTick = some w ∧ Current w := by
  have finishes : (run (step plainSelect) start writeThenTick).isSome = true := by decide +kernel
  obtain ⟨w,reach⟩ := Option.isSome_iff_exists.mp finishes
  exact ⟨w,reach,settledCurrent plainSelect writeThenTick (by decide +kernel) reach⟩

/-- The refresh reads, the write comes and marks nothing as the view is stale, the refresh stores and records. -/
def lostWrite : List Act :=
  [ .createView (totalsView .onWrite), .refresh totals, .advance 1 true 0, .write orders, .advance 2 true 0, .advance 2 true 0] ++
    List.replicate 4 (.advance 1 true 9)

def lacksWrite (w : World) : Bool := w.views.rows.any fun v => !v.isStale && match w.content v.name with
  | none => true
  | some (_,sources) => v.sourceTables.any fun t => decide (sources t < w.completed t)

theorem lacksWriteNotCurrent {w : World} (lacks : lacksWrite w = true) : ¬ Current w := by
  intro current
  obtain ⟨v,mem,old⟩ := List.any_eq_true.mp lacks
  rw [Bool.and_eq_true,Bool.not_eq_true'] at old
  obtain ⟨sources,is,covers⟩ := current v mem old.1
  obtain ⟨t,source,less⟩ := List.any_eq_true.mp (by rw [is] at old; exact old.2)
  exact absurd (covers t source) (Nat.not_le.mpr (of_decide_eq_true less))

theorem refreshClearsWrite : ¬ ∀ (select : Select) (acts : List Act) (w : World), run (step select) start acts = some w → Current w := by
  intro always
  have lost : (run (step plainSelect) start lostWrite).any lacksWrite = true := by decide
  obtain ⟨w,reach,lacks⟩ := (Option.any_eq_true _ _).mp lost
  exact lacksWriteNotCurrent lacks (always _ _ w reach)

end Napastak.Mvs
