import Napastak.Decimal
import Napastak.Lib.Keyset

/-! `pg_connector.c`: the incremental reading of a PostgreSQL table behind a bookmark. libpq and the server are parameters:
quoting of identifiers, the number of a column, and the result of a statement, which may order equal rows anew each time. -/
namespace Napastak.PgRead
open Keyset

/-- The fields of the context that reading uses. -/
structure PgCtx where
  batchSize : Nat
  positive : 0 < batchSize
  cursorColumn : Bytes
  readMode : Bytes

structure DfoReadReq where
  cursor : Bytes
  limit : Int
  filter : Bytes
  deriving DecidableEq, Repr

/-- A row by the texts of its values, without the NULL ones. -/
abbrev Row := List (Option Bytes)

structure PgResult where
  names : List Bytes
  rows : List Row
  deriving DecidableEq, Repr

/-- `PG_MAX_SQL`. -/
def pgMaxSql : Nat := 4096

/-- `BATCH_SIZE`. -/
def batchSizeMax : Nat := 8192

/-- The context's part of `pg_create`. -/
def pgCreate (batchSize : Int) (cursorColumn readMode : Bytes) : PgCtx where
  batchSize := if batchSize ≤ 0 ∨ batchSizeMax < batchSize then batchSizeMax else batchSize.toNat
  positive := by
    split
    · exact Nat.zero_lt_succ _
    · omega
  cursorColumn := cursorColumn.take 127
  readMode := readMode.take 15

def PgCtx.incremental (ctx : PgCtx) : Bool := strcasecmp ctx.readMode (ascii "cdc") ≠ 0 ∧ ctx.cursorColumn ≠ []

def readLimit (ctx : PgCtx) (req : DfoReadReq) : Nat :=
  let limit := if 0 < req.limit then req.limit else ctx.batchSize
  if batchSizeMax < limit then batchSizeMax else limit.toNat

def isSelect (src : Bytes) : Bool := strcasecmp (src.take 6) (ascii "SELECT") = 0

section
variable (escapeIdentifier : Bytes → Option Bytes)

/-- `pg_qualify_dup`. -/
def pgQualify (ent : Bytes) : Option Bytes :=
  if ent = [] then none
  else if 34 ∈ ent then some ent
  else if 46 ∈ ent then do
    let table := (ent.reverse.takeWhile (· ≠ 46)).reverse
    let qs ← escapeIdentifier (ent.take (ent.length - table.length - 1))
    let qt ← escapeIdentifier table
    some (qs ++ 46 :: qt)
  else escapeIdentifier ent

/-- What stands behind FROM. -/
def source (src : Bytes) : Option Bytes :=
  if isSelect src then some (40 :: src ++ ascii ") _dfo_q") else pgQualify escapeIdentifier src

end

def firstSql (base cc : Bytes) (limit : Nat) : Bytes :=
  ascii "SELECT * FROM " ++ base ++ ascii " ORDER BY \"" ++ cc ++ ascii "\" ASC LIMIT " ++ decimal limit

def nextSql (base cc : Bytes) (limit : Nat) : Bytes :=
  ascii "SELECT * FROM " ++ base ++ ascii " WHERE \"" ++ cc ++ ascii "\" > $1 ORDER BY \"" ++ cc ++ ascii "\" ASC LIMIT " ++ decimal limit

/-- `PQgetvalue`: a NULL is the empty text. -/
def getvalue (r : Row) (c : Nat) : Bytes := ((r[c]?).getD none).getD []

section
variable (escapeIdentifier : Bytes → Option Bytes) (fnumber : List Bytes → Bytes → Option Nat)
  (exec : Nat → Bytes → List Bytes → Option PgResult)

/-- `pg_read_batch` in incremental mode: the rows and the request's cursor afterwards. -/
def pgReadBatch (ctx : PgCtx) (call : Nat) (req : DfoReadReq) (entity : Bytes) : Option (List Row × Bytes) := do
  let src := if req.filter = [] then entity else req.filter
  let base ← source escapeIdentifier src
  let base := base.take (pgMaxSql - 1)
  let limit := readLimit ctx req
  let res ← if req.cursor = [] then exec call ((firstSql base ctx.cursorColumn limit).take (pgMaxSql - 1)) []
    else exec call ((nextSql base ctx.cursorColumn limit).take (pgMaxSql - 1)) [req.cursor]
  let cursor := match res.rows.getLast?, fnumber res.names ctx.cursorColumn with
    | some last,some ci => getvalue last ci
    | _,_ => req.cursor
  some (res.rows,cursor)

variable (ctx : PgCtx) (req : DfoReadReq) (entity : Bytes)

/-- The cursor of each call, when every call is given the one the call before has left. -/
def cursorAt : Nat → Bytes
  | 0 => []
  | i + 1 => ((pgReadBatch escapeIdentifier fnumber exec ctx i {req with cursor := cursorAt i} entity).map (·.2)).getD (cursorAt i)

def readAt (i : Nat) : Option (List Row × Bytes) :=
  pgReadBatch escapeIdentifier fnumber exec ctx i {req with cursor := cursorAt escapeIdentifier fnumber exec ctx req entity i} entity

def rowsAt (i : Nat) : List Row := ((readAt escapeIdentifier fnumber exec ctx req entity i).map (·.1)).getD []

/-- Calls from the empty cursor on come to an empty batch, and have given every row of the table once. -/
def ReadsAll (rows : List Row) : Prop :=
  ∃ n, (∀ i ≤ n, (readAt escapeIdentifier fnumber exec ctx req entity i).isSome = true) ∧
    rowsAt escapeIdentifier fnumber exec ctx req entity n = [] ∧
    (∀ i < n, rowsAt escapeIdentifier fnumber exec ctx req entity i ≠ []) ∧
    ((List.range n).flatMap (rowsAt escapeIdentifier fnumber exec ctx req entity)).Perm rows

end

/-- The table as its cursor column orders it; `cast` is the value of a text of the column's type. -/
def tableOf {V : Type} (cast : Bytes → V) (names : List Bytes) (rows : List Row) (cc : Bytes) (limit : Nat) : Table Row V where
  key r := ((r[names.idxOf cc]?).getD none).map cast
  mark r := if getvalue r (names.idxOf cc) = [] then none else some (cast (getvalue r (names.idxOf cc)))
  rows := rows
  size := limit

/-- `PQfnumber` folds the case of a name without quotes. -/
def Folds (fnumber : List Bytes → Bytes → Option Nat) : Prop :=
  ∀ names name, 34 ∉ name → fnumber names name = names.findIdx? fun n => decide (n = name.map tolower)

/-- The server runs both statements as PostgreSQL does: in the order of the column, its NULLs last, and only the values
greater than the parameter. -/
structure Executes {V : Type} [LinearOrder V] (cast : Bytes → V) (names : List Bytes) (rows : List Row) (base cc : Bytes) (limit : Nat)
    (exec : Nat → Bytes → List Bytes → Option PgResult) : Prop where
  first : 34 ∉ cc → ∀ i, ∃ l, l.Perm rows ∧ (tableOf cast names rows cc limit).Sorted l ∧
    exec i (firstSql base cc limit) [] = some ⟨names,l.take limit⟩
  next : 34 ∉ cc → ∀ i c, ∃ l, l.Perm (rows.filter ((tableOf cast names rows cc limit).beyond (cast c))) ∧
    (tableOf cast names rows cc limit).Sorted l ∧ exec i (nextSql base cc limit) [c] = some ⟨names,l.take limit⟩

/-- The column's name stands in quotes and is found without them, the statements fit their buffer, and in every order
of the rows by the column no batch ends inside a group of equal values, with a NULL or with an empty text. -/
structure Readable {V : Type} [LinearOrder V] (cast : Bytes → V) (names : List Bytes) (rows : List Row) (base cc : Bytes) (limit : Nat) :
    Prop where
  plain : 34 ∉ cc
  fits : (firstSql base cc limit).length < pgMaxSql
  rest : rows = [] ∨ (nextSql base cc limit).length < pgMaxSql ∧ cc.map tolower = cc ∧
    ∀ l, l.Perm rows → (tableOf cast names rows cc limit).Sorted l → (tableOf cast names rows cc limit).Splits l

/-! ### One call -/

theorem limitPositive (ctx : PgCtx) (req : DfoReadReq) : 0 < readLimit ctx req := by
  have positive := ctx.positive
  unfold readLimit batchSizeMax
  dsimp only
  split <;> split <;> omega

section
variable {V : Type} [LinearOrder V] {cast : Bytes → V} {names : List Bytes} {rows : List Row} {base : Bytes}
  {escapeIdentifier : Bytes → Option Bytes} {fnumber : List Bytes → Bytes → Option Nat}
  {exec : Nat → Bytes → List Bytes → Option PgResult} {ctx : PgCtx} {req : DfoReadReq} {entity : Bytes}

theorem firstLonger (base cc : Bytes) (limit : Nat) : base.length < (firstSql base cc limit).length := by
  simp only [firstSql,List.length_append]
  have head : (ascii "SELECT * FROM ").length = 14 := by rfl
  omega

theorem nextLonger (base cc : Bytes) (limit : Nat) : (firstSql base cc limit).length < (nextSql base cc limit).length := by
  simp only [firstSql,nextSql,List.length_append]
  have where_ : (ascii " WHERE \"").length = 8 := by rfl
  have order : (ascii "\" > $1 ORDER BY \"").length = 17 := by rfl
  have order' : (ascii " ORDER BY \"").length = 11 := by rfl
  omega

/-- A statement that fits goes out whole. -/
theorem readIs (from_ : source escapeIdentifier (if req.filter = [] then entity else req.filter) = some base) (i : Nat) (c : Bytes)
    (fits : (firstSql base ctx.cursorColumn (readLimit ctx req)).length < pgMaxSql) :
    pgReadBatch escapeIdentifier fnumber exec ctx i {req with cursor := c} entity =
      (if c = [] then exec i (firstSql base ctx.cursorColumn (readLimit ctx req)) []
      else exec i ((nextSql base ctx.cursorColumn (readLimit ctx req)).take (pgMaxSql - 1)) [c]).map fun res =>
        (res.rows,match res.rows.getLast?, fnumber res.names ctx.cursorColumn with
          | some last,some ci => getvalue last ci
          | _,_ => c) := by
  have short := firstLonger base ctx.cursorColumn (readLimit ctx req)
  have baseWhole : base.take (pgMaxSql - 1) = base := List.take_of_length_le (by omega)
  have whole : (firstSql base ctx.cursorColumn (readLimit ctx req)).take (pgMaxSql - 1) =
      firstSql base ctx.cursorColumn (readLimit ctx req) := List.take_of_length_le (by omega)
  have same : readLimit ctx {req with cursor := c} = readLimit ctx req := rfl
  simp only [pgReadBatch,from_,bind,Option.bind_some,baseWhole,whole,same]
  split <;> cases exec i _ _ <;> rfl

theorem rowsIs {i : Nat} {page : List Row} {c : Bytes}
    (read : readAt escapeIdentifier fnumber exec ctx req entity i = some (page,c)) :
    rowsAt escapeIdentifier fnumber exec ctx req entity i = page ∧ cursorAt escapeIdentifier fnumber exec ctx req entity (i + 1) = c :=
  ⟨by rw [rowsAt,read]; rfl,by
    rw [cursorAt]
    rw [readAt] at read
    rw [read]
    rfl⟩

/-- The bookmark of a cursor. -/
def bookmark (cast : Bytes → V) (c : Bytes) : Option V := if c = [] then none else some (cast c)

/-- Each call reads the first rows behind its bookmark. -/
theorem callReads (cast : Bytes → V) (fnumber : List Bytes → Bytes → Option Nat)
    (from_ : source escapeIdentifier (if req.filter = [] then entity else req.filter) = some base)
    (plain : 34 ∉ ctx.cursorColumn) (executes : Executes cast names rows base ctx.cursorColumn (readLimit ctx req) exec)
    (fits : (firstSql base ctx.cursorColumn (readLimit ctx req)).length < pgMaxSql) (i : Nat) {c : Bytes}
    (nextFits : c = [] ∨ (nextSql base ctx.cursorColumn (readLimit ctx req)).length < pgMaxSql) :
    ∃ l, l.Perm ((tableOf cast names rows ctx.cursorColumn (readLimit ctx req)).selected rows (bookmark cast c)) ∧
      (tableOf cast names rows ctx.cursorColumn (readLimit ctx req)).Sorted l ∧
      pgReadBatch escapeIdentifier fnumber exec ctx i {req with cursor := c} entity = some (l.take (readLimit ctx req),
        match (l.take (readLimit ctx req)).getLast?, fnumber names ctx.cursorColumn with
        | some last,some ci => getvalue last ci
        | _,_ => c) := by
  rw [readIs from_ i c fits,bookmark]
  split
  · obtain ⟨l,perm,sorted,ran⟩ := executes.first plain i
    exact ⟨l,perm,sorted,by rw [ran]; rfl⟩
  · rename_i some_
    have whole : (nextSql base ctx.cursorColumn (readLimit ctx req)).take (pgMaxSql - 1) =
        nextSql base ctx.cursorColumn (readLimit ctx req) := List.take_of_length_le (by
      have := nextFits.resolve_left some_
      omega)
    obtain ⟨l,perm,sorted,ran⟩ := executes.next plain i c
    exact ⟨l,perm,sorted,by rw [whole,ran]; rfl⟩

theorem columnFound (folds : Folds fnumber) {cc : Bytes} (plain : 34 ∉ cc) (lower : cc.map tolower = cc) (mem : cc ∈ names) :
    fnumber names cc = some (names.idxOf cc) := by
  rw [folds names cc plain,lower,List.findIdx?_eq_some_iff_findIdx_eq]
  have same : (fun n => decide (n = cc)) = fun n => n == cc := funext fun n => (beq_eq_decide ..).symm
  rw [same]
  exact ⟨List.findIdx_lt_length_of_exists ⟨cc,mem,beq_self_eq_true cc⟩,rfl⟩

omit [LinearOrder V] in
theorem marksKey {cc : Bytes} {limit : Nat} (r : Row) (v : V) (mark : (tableOf cast names rows cc limit).mark r = some v) :
    (tableOf cast names rows cc limit).key r = some v := by
  simp only [tableOf] at mark ⊢
  split at mark
  · cases mark
  · rename_i some_
    cases mark
    cases cell : (r[names.idxOf cc]?).getD none with
    | none => exact absurd (by rw [getvalue,cell]; rfl) some_
    | some text =>
      rw [getvalue,cell]
      rfl

/-- The calls are a run of the table. -/
theorem callsRun (cast : Bytes → V) (fnumber : List Bytes → Bytes → Option Nat)
    (from_ : source escapeIdentifier (if req.filter = [] then entity else req.filter) = some base) (folds : Folds fnumber)
    (mem : ctx.cursorColumn ∈ names) (plain : 34 ∉ ctx.cursorColumn) (lower : ctx.cursorColumn.map tolower = ctx.cursorColumn)
    (executes : Executes cast names rows base ctx.cursorColumn (readLimit ctx req) exec)
    (nextFits : (nextSql base ctx.cursorColumn (readLimit ctx req)).length < pgMaxSql) (i : Nat) :
    (readAt escapeIdentifier fnumber exec ctx req entity i).isSome = true ∧
    bookmark cast (cursorAt escapeIdentifier fnumber exec ctx req entity (i + 1)) =
      (tableOf cast names rows ctx.cursorColumn (readLimit ctx req)).advance
        (bookmark cast (cursorAt escapeIdentifier fnumber exec ctx req entity i)) (rowsAt escapeIdentifier fnumber exec ctx req entity i) ∧
    ∃ l, l.Perm ((tableOf cast names rows ctx.cursorColumn (readLimit ctx req)).selected rows
        (bookmark cast (cursorAt escapeIdentifier fnumber exec ctx req entity i))) ∧
      (tableOf cast names rows ctx.cursorColumn (readLimit ctx req)).Sorted l ∧
      rowsAt escapeIdentifier fnumber exec ctx req entity i = l.take (readLimit ctx req) := by
  have fits := Nat.lt_trans (nextLonger base ctx.cursorColumn (readLimit ctx req)) nextFits
  obtain ⟨l,perm,sorted,read⟩ := callReads cast fnumber from_ plain executes fits i
    (c := cursorAt escapeIdentifier fnumber exec ctx req entity i) (.inr nextFits)
  obtain ⟨page,cursor⟩ := rowsIs read
  refine ⟨by rw [readAt,read]; rfl,?_,l,perm,sorted,page⟩
  rw [cursor,page,columnFound folds plain lower mem,Table.advance]
  cases (l.take (readLimit ctx req)).getLast? <;> rfl

/-- Reading a table in the fixed order of its rows. -/
def steadyExec (cast : Bytes → V) (names : List Bytes) (l : List Row) (base cc : Bytes) (limit : Nat) :
    Nat → Bytes → List Bytes → Option PgResult
  | _, sql, [] => if sql = firstSql base cc limit then some ⟨names,l.take limit⟩ else none
  | _, sql, [c] =>
    if sql = nextSql base cc limit then some ⟨names,(l.filter ((tableOf cast names l cc limit).beyond (cast c))).take limit⟩ else none
  | _, _, _ => none

theorem steadyExecutes {cc : Bytes} {limit : Nat} {l : List Row} (perm : l.Perm rows) (sorted : (tableOf cast names rows cc limit).Sorted l) :
    Executes cast names rows base cc limit (steadyExec cast names l base cc limit) where
  first := fun _ _ => ⟨l,perm,sorted,by rw [steadyExec,if_pos rfl]⟩
  next := fun _ _ c => ⟨_,perm.filter _,sorted.sublist List.filter_sublist,by rw [steadyExec,if_pos rfl]; rfl⟩

theorem steadyRows {l : List Row} (from_ : source escapeIdentifier (if req.filter = [] then entity else req.filter) = some base)
    (fits : (firstSql base ctx.cursorColumn (readLimit ctx req)).length < pgMaxSql)
    (nextFits : (nextSql base ctx.cursorColumn (readLimit ctx req)).length < pgMaxSql) (i : Nat) (c : Bytes) :
    ((pgReadBatch escapeIdentifier fnumber (steadyExec cast names l base ctx.cursorColumn (readLimit ctx req)) ctx i
      {req with cursor := c} entity).map (·.1)).getD [] =
    ((tableOf cast names rows ctx.cursorColumn (readLimit ctx req)).selected l (bookmark cast c)).take (readLimit ctx req) := by
  rw [readIs from_ i c fits,bookmark]
  split
  · rw [steadyExec,if_pos rfl]
    rfl
  · have whole : (nextSql base ctx.cursorColumn (readLimit ctx req)).take (pgMaxSql - 1) =
        nextSql base ctx.cursorColumn (readLimit ctx req) := List.take_of_length_le (by omega)
    rw [whole,steadyExec,if_pos rfl]
    rfl

/-- Calls that never get a cursor read the first rows for ever. -/
theorem neverEnds {cc : Bytes} {limit : Nat} {l : List Row} (some_ : rows ≠ []) {n : Nat}
    (stuck : ∀ i ≤ n, cursorAt escapeIdentifier fnumber (steadyExec cast names l base cc limit) ctx req entity i = [])
    (end_ : rowsAt escapeIdentifier fnumber (steadyExec cast names l base cc limit) ctx req entity n = [])
    (before : ∀ i < n, rowsAt escapeIdentifier fnumber (steadyExec cast names l base cc limit) ctx req entity i ≠ [])
    (all : ((List.range n).flatMap (rowsAt escapeIdentifier fnumber (steadyExec cast names l base cc limit) ctx req entity)).Perm rows) :
    False := by
  cases n with
  | zero => exact some_ all.symm.eq_nil
  | succ n =>
    have same : rowsAt escapeIdentifier fnumber (steadyExec cast names l base cc limit) ctx req entity (n + 1) =
        rowsAt escapeIdentifier fnumber (steadyExec cast names l base cc limit) ctx req entity 0 := by
      rw [rowsAt,rowsAt,readAt,readAt,stuck (n + 1) (Nat.le_refl _),stuck 0 (Nat.zero_le _)]
      rfl
    exact before 0 (Nat.succ_pos n) (same.symm.trans end_)

/-- Every way of running the statements gives every row once if the table is readable; and only then, unless the
cursor column's name in lower case is the name of another column. -/
theorem readsAllIff (from_ : source escapeIdentifier (if req.filter = [] then entity else req.filter) = some base) (folds : Folds fnumber)
    (mem : ctx.cursorColumn ∈ names) :
    (Readable cast names rows base ctx.cursorColumn (readLimit ctx req) →
      ∀ exec, Executes cast names rows base ctx.cursorColumn (readLimit ctx req) exec →
        ReadsAll escapeIdentifier fnumber exec ctx req entity rows) ∧
    ((ctx.cursorColumn.map tolower ∈ names → ctx.cursorColumn.map tolower = ctx.cursorColumn) →
      (∀ exec, Executes cast names rows base ctx.cursorColumn (readLimit ctx req) exec →
        ReadsAll escapeIdentifier fnumber exec ctx req entity rows) →
      Readable cast names rows base ctx.cursorColumn (readLimit ctx req)) := by
  constructor
  · intro readable exec executes
    rcases readable.rest with none_ | ⟨nextFits,lower,splits⟩
    · obtain ⟨l,perm,_,read⟩ := callReads cast fnumber from_ readable.plain executes readable.fits 0 (c := []) (.inl rfl)
      have empty : l = [] := by
        have perm : l.Perm rows := perm
        rw [none_] at perm
        exact perm.eq_nil
      refine ⟨0,fun i le => ?_,?_,fun i less => absurd less (Nat.not_lt_zero i),?_⟩
      · rw [Nat.le_zero.mp le,readAt,cursorAt,read]
        rfl
      · rw [(rowsIs read).1,empty,List.take_nil]
      · rw [none_]
        exact List.Perm.refl _
    · have calls := callsRun cast fnumber from_ folds mem readable.plain lower executes nextFits
      obtain ⟨n,end_,before,all⟩ := Table.Run.delivers (limitPositive ctx req) marksKey splits
        { page := rowsAt escapeIdentifier fnumber exec ctx req entity
          cursor := fun i => bookmark cast (cursorAt escapeIdentifier fnumber exec ctx req entity i)
          start := rfl
          next := fun i => (calls i).2.1
          answers := fun i => (calls i).2.2 }
      exact ⟨n,fun i _ => (calls i).1,end_,before,all⟩
  · intro single reads
    have plain : 34 ∉ ctx.cursorColumn := fun quote => by
      obtain ⟨n,all,_⟩ := reads (fun _ _ _ => none) ⟨fun plain => absurd quote plain,fun plain => absurd quote plain⟩
      have first := all 0 (Nat.zero_le n)
      rw [readAt,cursorAt,pgReadBatch] at first
      simp only [from_,bind,Option.bind_some,if_true,Option.bind_none] at first
      cases first
    obtain ⟨l₀,perm₀,sorted₀⟩ := Table.sortedExists (tableOf cast names rows ctx.cursorColumn (readLimit ctx req)) rows
    have fits : (firstSql base ctx.cursorColumn (readLimit ctx req)).length < pgMaxSql := by
      by_contra long
      obtain ⟨n,all,_⟩ := reads _ (steadyExecutes perm₀ sorted₀)
      have first := all 0 (Nat.zero_le n)
      rw [readAt,cursorAt,pgReadBatch] at first
      have same : readLimit ctx {req with cursor := []} = readLimit ctx req := rfl
      simp only [from_,bind,Option.bind_some,if_true,same] at first
      rw [steadyExec,if_neg] at first
      · cases first
      · intro whole
        have lengths := congrArg List.length whole
        rw [List.length_take] at lengths
        have positive : 0 < pgMaxSql := Nat.zero_lt_succ _
        omega
    refine ⟨plain,fits,or_iff_not_imp_left.mpr fun some_ => ?_⟩
    have steady : ∀ l, l.Perm rows → (tableOf cast names rows ctx.cursorColumn (readLimit ctx req)).Sorted l →
        (nextSql base ctx.cursorColumn (readLimit ctx req)).length < pgMaxSql ∧ ctx.cursorColumn.map tolower = ctx.cursorColumn ∧
          (tableOf cast names rows ctx.cursorColumn (readLimit ctx req)).Splits l := by
      intro l perm sorted
      obtain ⟨n,all,end_,before,perm'⟩ := reads _ (steadyExecutes perm sorted)
      have nextFits : (nextSql base ctx.cursorColumn (readLimit ctx req)).length < pgMaxSql := by
        by_contra long
        refine neverEnds some_ (fun i le => ?_) end_ before perm'
        by_contra cursor
        have read := all i le
        rw [readAt,readIs from_ i _ fits,if_neg cursor,steadyExec,if_neg] at read
        · cases read
        · intro same
          have lengths := congrArg List.length same
          rw [List.length_take] at lengths
          have positive : 0 < pgMaxSql := Nat.zero_lt_succ _
          omega
      have lower : ctx.cursorColumn.map tolower = ctx.cursorColumn := by
        by_contra other
        have missing : fnumber names ctx.cursorColumn = none := by
          rw [folds names _ plain,List.findIdx?_eq_none_iff]
          intro name mem'
          exact decide_eq_false fun is => other (single (is ▸ mem'))
        have stuck : ∀ i, cursorAt escapeIdentifier fnumber
            (steadyExec cast names l base ctx.cursorColumn (readLimit ctx req)) ctx req entity i = [] := by
          intro i
          induction i with
          | zero => rfl
          | succ i ih =>
            obtain ⟨l',_,_,read⟩ := callReads cast fnumber from_ plain (steadyExecutes perm sorted) fits i
              (c := []) (.inl rfl)
            rw [cursorAt,ih,read,missing]
            cases (l'.take (readLimit ctx req)).getLast? <;> rfl
        exact neverEnds some_ (fun i _ => stuck i) end_ before perm'
      have calls := callsRun cast fnumber from_ folds mem plain lower (steadyExecutes perm sorted) nextFits
      have run : Table.Steady (t := tableOf cast names rows ctx.cursorColumn (readLimit ctx req)) l
          (rowsAt escapeIdentifier fnumber (steadyExec cast names l base ctx.cursorColumn (readLimit ctx req)) ctx req entity)
          fun i => bookmark cast (cursorAt escapeIdentifier fnumber
            (steadyExec cast names l base ctx.cursorColumn (readLimit ctx req)) ctx req entity i) :=
        ⟨rfl,fun i => (calls i).2.1,fun i => by rw [rowsAt,readAt]; exact steadyRows from_ fits nextFits i _⟩
      exact ⟨nextFits,lower,run.mustSplit (limitPositive ctx req) marksKey sorted perm ⟨n,end_,before,perm'⟩⟩
    exact ⟨(steady l₀ perm₀ sorted₀).1,(steady l₀ perm₀ sorted₀).2.1,fun l perm sorted => (steady l perm sorted).2.2⟩

end

/-! An integer column read one row at a time. -/

def quoteIdentifier (s : Bytes) : Option Bytes := some (34 :: s ++ [34])

def foldedNumber (names : List Bytes) (name : Bytes) : Option Nat := names.findIdx? fun n => decide (n = name.map tolower)

def byId : PgCtx := pgCreate 1 (ascii "id") (ascii "cursor")

def anyReq : DfoReadReq := ⟨[],0,[]⟩

def intValue (s : Bytes) : Int := (strtoll s).toInt

def idName : List Row := [[some (ascii "1"),some (ascii "x")],[some (ascii "2"),some (ascii "y")]]

theorem idsRead : ReadsAll quoteIdentifier foldedNumber (steadyExec intValue [ascii "id",ascii "name"] idName (ascii "\"t\"")
    byId.cursorColumn (readLimit byId anyReq)) byId anyReq (ascii "t") idName := by
  have from_ : source quoteIdentifier (if anyReq.filter = [] then ascii "t" else anyReq.filter) = some (ascii "\"t\"") := by decide
  have mem : byId.cursorColumn ∈ [ascii "id",ascii "name"] := by decide
  have readable : Readable intValue [ascii "id",ascii "name"] idName (ascii "\"t\"") byId.cursorColumn (readLimit byId anyReq) := by
    refine ⟨by decide,by decide,.inr ⟨by decide,by decide,fun l perm sorted => ?_⟩⟩
    have apart : ∀ a ∈ idName, ∀ b ∈ idName, KeyLe (intValue <$> (a[0]?).getD none) (intValue <$> (b[0]?).getD none) →
        KeyLe (intValue <$> (b[0]?).getD none) (intValue <$> (a[0]?).getD none) → a = b := by decide
    have only : l = idName := perm.eq_of_pairwise (fun a b ha hb => apart a (perm.mem_iff.mp ha) b hb) sorted (by decide)
    rw [only]
    exact .page (v := 1) (by decide) (by decide) (by decide) (.page (v := 2) (by decide) (by decide) (by decide) .nil)
  have sorted : (tableOf intValue [ascii "id",ascii "name"] idName byId.cursorColumn (readLimit byId anyReq)).Sorted idName := by
    decide
  exact (readsAllIff from_ (fun _ _ _ => rfl) mem).1 readable _ (steadyExecutes (List.Perm.refl idName) sorted)

/-- Two rows with one value, read one at a time. -/
def tied : List Row := [[some (ascii "1"),some (ascii "x")],[some (ascii "1"),some (ascii "y")]]

theorem tiedLost : ∃ exec, Executes intValue [ascii "id",ascii "name"] tied (ascii "\"t\"") (ascii "id") 1 exec ∧
    ¬ ReadsAll quoteIdentifier foldedNumber exec byId anyReq (ascii "t") tied := by
  have sorted : (tableOf intValue [ascii "id",ascii "name"] tied (ascii "id") 1).Sorted tied := by decide
  refine ⟨_,steadyExecutes (List.Perm.refl tied) sorted,fun ⟨n,_,end_,before,all⟩ => ?_⟩
  have first : rowsAt quoteIdentifier foldedNumber (steadyExec intValue [ascii "id",ascii "name"] tied (ascii "\"t\"") (ascii "id") 1)
      byId anyReq (ascii "t") 0 = tied.take 1 := by decide
  have second : rowsAt quoteIdentifier foldedNumber (steadyExec intValue [ascii "id",ascii "name"] tied (ascii "\"t\"") (ascii "id") 1)
      byId anyReq (ascii "t") 1 = [] := by decide
  match n with
  | 0 =>
    rw [first] at end_
    cases end_
  | 1 =>
    rw [List.range_one,List.flatMap_singleton,first] at all
    exact absurd all.length_eq (by decide)
  | n + 2 => exact before 1 (by omega) second

end Napastak.PgRead
