import Napastak.ColBatch
import Napastak.PipelineTrip
import Napastak.Lib.Codec
import Napastak.Lib.Snprintf
import Mathlib.Data.List.DropRight

/-! The PostgreSQL sink: the statements of `pg_write_batch` and the buffers they are formatted in. -/
namespace Napastak.PgSink
open Query Snprintf
open Store (ColType nullBit maxCols)

/-! ### The code -/

/-- The escaping functions of libpq; `none` is the NULL of a failure. -/
structure Libpq where
  escapeIdentifier : Bytes → Option Bytes
  escapeLiteral : Bytes → Option Bytes

variable (pq : Libpq)

/-- `pg_qualify_dup`: the part before the last dot is the schema. -/
def pgQualifyDup (ent : Bytes) : Option Bytes :=
  if ent = [] then none
  else if 34 ∈ ent then some ent
  else if 46 ∈ ent then do
    let qs ← pq.escapeIdentifier ((ent.reverse.dropWhile (· ≠ 46)).drop 1).reverse
    let qt ← pq.escapeIdentifier (ent.reverse.takeWhile (· ≠ 46)).reverse
    some (qs ++ 46 :: qt)
  else pq.escapeIdentifier ent

def blank (c : UInt8) : Bool := c = 32 ∨ c = 9

def trimmed (s : Bytes) : Bytes := (s.dropWhile blank).rdropWhile blank

def pgPkMax : Nat := 16

/-- `pg_pk_split`: the first 255 bytes, cut at the commas. -/
def pgPkSplit (pk : Bytes) : List Bytes := ((((pk.take 255).splitOn 44).map trimmed).filter (· ≠ [])).take pgPkMax

def sep (i : Nat) : Bytes := if i = 0 then [] else [44,32]

/-- `pg_pk_ident_list`, with 1024 bytes for the list. -/
def pgPkIdentList : Nat → Bytes → List Bytes → Option Bytes
  | _, out, [] => some out
  | i, out, name :: names => do
    let id ← pq.escapeIdentifier name
    if 1024 ≤ out.length + (sep i ++ id).length then none else pgPkIdentList (i + 1) (out ++ (sep i ++ id)) names

structure PgCol where
  name : Bytes
  type : ColType
  nullBitmap : Option Bytes
  values : List (Option Bytes)

def sqlType : ColType → Bytes
  | .int64 => ascii "BIGINT"
  | .double | .decimal => ascii "NUMERIC"
  | .date => ascii "DATE"
  | .timestamp => ascii "TIMESTAMP"
  | .bool => ascii "BOOLEAN"
  | .text | .null => ascii "TEXT"

/-- A name that cannot be escaped is `"col"`. -/
def colIdent (col : PgCol) : Bytes := (pq.escapeIdentifier col.name).getD (ascii "\"col\"")

/-- What each call of `snprintf` adds to a buffer. -/
def ddlPieces (eident pkIdents : Bytes) (pkNames : List Bytes) (cols : List PgCol) : List Bytes :=
  (ascii "CREATE TABLE IF NOT EXISTS " ++ eident ++ ascii " (") ::
    (cols.mapIdx (fun c col => sep c ++ (colIdent pq col ++ 32 :: sqlType col.type)) ++
      ((if pkNames = [] then [] else [ascii ", PRIMARY KEY (" ++ (pkIdents ++ [41])]) ++ [[41]]))

def colPieces (cols : List PgCol) : List Bytes := [40] :: (cols.mapIdx (fun c col => sep c ++ colIdent pq col) ++ [[41]])

/-- The columns that are no part of the key. -/
def others (pkNames : List Bytes) (cols : List PgCol) : List PgCol := cols.filter (·.name ∉ pkNames)

def conflictPieces (pkIdents : Bytes) (pkNames : List Bytes) (cols : List PgCol) : List Bytes :=
  if pkNames = [] then []
  else (ascii " ON CONFLICT (" ++ (pkIdents ++ ascii ") DO ")) ::
    if others pkNames cols = [] then [ascii "NOTHING"]
    else ascii "UPDATE SET " :: (others pkNames cols).mapIdx fun i col =>
      sep i ++ (colIdent pq col ++ (ascii " = EXCLUDED." ++ colIdent pq col))

/-- The text of a cell, `none` for NULL; a NULL pointer is the empty text. -/
def PgCol.cell (col : PgCol) (r : Nat) : Option Bytes :=
  if nullBit col.nullBitmap r then none
  else if (col.values.getD r none).getD [] = nullSentinel then none else some ((col.values.getD r none).getD [])

def cellText (col : PgCol) (r : Nat) : Bytes :=
  match col.cell r with
  | none => ascii "NULL"
  | some v => (pq.escapeLiteral v).getD (ascii "''")

def rowPieces (cols : List PgCol) (i r : Nat) : List Bytes :=
  (sep i ++ [40]) :: (cols.mapIdx (fun c col => sep c ++ cellText pq col r) ++ [[41]])

def insertPieces (eident collist conflict : Bytes) (cols : List PgCol) (rows : List Nat) : List Bytes :=
  (ascii "INSERT INTO " ++ (eident ++ 32 :: (collist ++ ascii " VALUES "))) ::
    ((rows.mapIdx (rowPieces pq cols)).flatten ++ if conflict = [] then [] else [conflict])

def pgInsChunk : Nat := 250

/-- The rows of each INSERT. -/
def chunks (nrows : Nat) : List (List Nat) :=
  (List.range ((nrows + (pgInsChunk - 1)) / pgInsChunk)).map fun i => List.range' (i * pgInsChunk) (min pgInsChunk (nrows - i * pgInsChunk))

/-- What the server answers to the last of the statements it was sent. -/
abbrev Server := List Bytes → Bool

/-- Each chunk in a buffer of its own, until one fails. -/
def sendChunks (server : Server) (sql : List Nat → Option Bytes) : List Bytes → List (List Nat) → Option (Bool × List Bytes)
  | _, [] => some (true,[])
  | sent, rows :: rest =>
    (sql rows).bind fun text =>
      if server (sent ++ [text]) then (sendChunks server sql (sent ++ [text]) rest).map fun (ok,texts) => (ok,text :: texts)
      else some (false,[text])

/-- The result, and the statements before the INSERTs and the INSERTs that were sent. -/
structure Outcome where
  result : Int
  setup : List Bytes
  inserts : List Bytes

structure PgCtx where
  connected : Bool
  primaryKey : Bytes

/-- `pg_write_batch`; `none` is a write past the end of a buffer, or a piece whose length is no `int`. -/
def pgWriteBatch (server : Server) (ctx : PgCtx) (entity : Bytes) (overwrite : Bool) (cols : List PgCol) (nrows : Nat) : Option Outcome :=
  if !ctx.connected then some ⟨-1,[],[]⟩
  else
    match pgQualifyDup pq entity with
    | none => some ⟨-1,[],[]⟩
    | some eident =>
      let pkNames := pgPkSplit ctx.primaryKey
      match pgPkIdentList pq 0 [] pkNames with
      | none => some ⟨-1,[],[]⟩
      | some pkIdents =>
        (fill (64 + cols.length * 80 + 1024) (ddlPieces pq eident pkIdents pkNames cols)).bind fun ddl =>
          if !server [ddl.kept] then some ⟨-1,[ddl.kept],[]⟩
          else
            let setup := if overwrite then [ddl.kept,(ascii "TRUNCATE TABLE " ++ eident).take 511] else [ddl.kept]
            if overwrite && !server setup then some ⟨-1,setup,[]⟩
            else
              (fill 4096 (colPieces pq cols)).bind fun collist =>
                (fill 8192 (conflictPieces pq pkIdents pkNames cols)).bind fun conflict =>
                  (sendChunks server (fun rows =>
                    ((insertPieces pq eident collist.kept conflict.kept cols rows).foldlM append (4096,⟨[],0⟩)).map (·.2.kept))
                    setup (chunks nrows)).map fun (ok,inserts) => ⟨if ok then nrows else -1,setup,inserts⟩

/-! ### What is meant -/

def joined (xs : List Bytes) : Bytes := [44,32].intercalate xs

/-- The literal of a cell or NULL. -/
def cellSql (col : PgCol) (r : Nat) : Option Bytes :=
  match col.cell r with
  | none => some (ascii "NULL")
  | some v => pq.escapeLiteral v

/-- The whole conflict clause over the names of the columns that are no part of the key. -/
def conflictSql (pkIdents : Bytes) (pkNames : List Bytes) (ids : List Bytes) : Bytes :=
  if pkNames = [] then []
  else ascii " ON CONFLICT (" ++ (pkIdents ++ (ascii ") DO " ++
    if ids = [] then ascii "NOTHING" else ascii "UPDATE SET " ++ joined (ids.map fun id => id ++ (ascii " = EXCLUDED." ++ id))))

/-- The INSERT of some rows: all columns, a literal or NULL for each of them, and the conflict clause. -/
def insertSql (eident pkIdents : Bytes) (pkNames : List Bytes) (cols : List PgCol) (rows : List Nat) : Option Bytes := do
  let ids ← cols.mapM fun col => pq.escapeIdentifier col.name
  let otherIds ← (others pkNames cols).mapM fun col => pq.escapeIdentifier col.name
  let tuples ← rows.mapM fun r => cols.mapM fun col => cellSql pq col r
  some (ascii "INSERT INTO " ++ (eident ++ (ascii " (" ++ (joined ids ++ (ascii ") VALUES " ++
    (joined (tuples.map fun cells => 40 :: (joined cells ++ [41])) ++ conflictSql pkIdents pkNames otherIds))))))

/-- Whatever the server answers, no buffer is passed, and the call fails or has sent each row once and in order. -/
def Delivers (ctx : PgCtx) (entity : Bytes) (overwrite : Bool) (cols : List PgCol) (nrows : Nat) : Prop :=
  ∀ server : Server, ∃ out, pgWriteBatch pq server ctx entity overwrite cols nrows = some out ∧
    (out.result < 0 ∨ ∃ eident pkIdents groups, pgQualifyDup pq entity = some eident ∧
      pgPkIdentList pq 0 [] (pgPkSplit ctx.primaryKey) = some pkIdents ∧ groups = chunks nrows ∧ groups.flatten = List.range nrows ∧
      groups.mapM (insertSql pq eident pkIdents (pgPkSplit ctx.primaryKey) cols) = some out.inserts)

/-! ### What the buffers need, by lengths -/

def identLength (col : PgCol) : Nat := (colIdent pq col).length

/-- The length of the comma and blank. -/
def gap (i : Nat) : Nat := if i = 0 then 0 else 2

def ddlLengths (eident pkIdents : Bytes) (pkNames : List Bytes) (cols : List PgCol) : List Nat :=
  (29 + eident.length) :: (cols.mapIdx (fun c col => gap c + (identLength pq col + 1 + (sqlType col.type).length)) ++
    ((if pkNames = [] then [] else [16 + pkIdents.length]) ++ [1]))

def colLengths (cols : List PgCol) : List Nat := 1 :: (cols.mapIdx (fun c col => gap c + identLength pq col) ++ [1])

def conflictLengths (pkIdents : Bytes) (pkNames : List Bytes) (cols : List PgCol) : List Nat :=
  if pkNames = [] then []
  else (19 + pkIdents.length) ::
    if others pkNames cols = [] then [7] else 11 :: (others pkNames cols).mapIdx fun i col => gap i + (2 * identLength pq col + 12)

/-- All pieces but the last end in the buffer, and each length is an `int`. -/
def Fitted (cap : Nat) (lengths : List Nat) : Prop := lengths.dropLast.sum ≤ cap ∧ ∀ n ∈ lengths, n < 2 ^ 31

/-- The statement buffers are not passed; where there are rows, the column list and the conflict clause are whole with their
zeros, and each name and cell can be escaped. -/
structure Roomy (eident pkIdents : Bytes) (pkNames : List Bytes) (cols : List PgCol) (nrows : Nat) : Prop where
  ddl : Fitted (64 + cols.length * 80 + 1024) (ddlLengths pq eident pkIdents pkNames cols)
  columns : Fitted 4096 (colLengths pq cols)
  conflict : Fitted 8192 (conflictLengths pq pkIdents pkNames cols)
  whole : 0 < nrows → (colLengths pq cols).sum < 4096 ∧ (conflictLengths pq pkIdents pkNames cols).sum < 8192
  names : 0 < nrows → ∀ col ∈ cols, (pq.escapeIdentifier col.name).isSome
  cells : ∀ r < nrows, ∀ col ∈ cols, (cellSql pq col r).isSome
  short : ∀ r < nrows, ∀ p ∈ cols.mapIdx (fun c col => gap c + (cellText pq col r).length), p < 2 ^ 31

/-- The names of table and key can be escaped, and there is room. -/
def Good (ctx : PgCtx) (entity : Bytes) (cols : List PgCol) (nrows : Nat) : Prop :=
  ctx.connected = true → ∀ eident pkIdents, pgQualifyDup pq entity = some eident →
    pgPkIdentList pq 0 [] (pgPkSplit ctx.primaryKey) = some pkIdents → Roomy pq eident pkIdents (pgPkSplit ctx.primaryKey) cols nrows

/-! ### Lengths of the pieces -/

theorem sepLength (i : Nat) : (sep i).length = gap i := by
  rw [sep,gap]
  split <;> rfl

theorem mapMapIdx {α β γ : Type} (f : Nat → α → β) (g : β → γ) (xs : List α) :
    (xs.mapIdx f).map g = xs.mapIdx fun i x => g (f i x) := by
  rw [List.mapIdx_eq_zipIdx_map,List.mapIdx_eq_zipIdx_map,List.map_map]
  rfl

theorem ddlPiecesLengths (eident pkIdents : Bytes) (pkNames : List Bytes) (cols : List PgCol) :
    (ddlPieces pq eident pkIdents pkNames cols).map List.length = ddlLengths pq eident pkIdents pkNames cols := by
  have each : (cols.mapIdx fun c col => sep c ++ (colIdent pq col ++ 32 :: sqlType col.type)).map List.length =
      cols.mapIdx fun c col => gap c + (identLength pq col + 1 + (sqlType col.type).length) := by
    rw [mapMapIdx]
    congr 1
    funext c col
    simp only [List.length_append,List.length_cons,sepLength,identLength]
    omega
  have key : (if pkNames = [] then [] else [ascii ", PRIMARY KEY (" ++ (pkIdents ++ [41])]).map List.length =
      if pkNames = [] then [] else [16 + pkIdents.length] := by
    split
    · rfl
    · simp only [List.map_singleton,List.length_append,List.length_singleton]
      rw [show (ascii ", PRIMARY KEY (").length = 15 by decide]
      congr 1
      omega
  rw [ddlPieces,ddlLengths,List.map_cons,List.map_append,List.map_append,each,key]
  congr 1
  simp only [List.length_append]
  rw [show (ascii "CREATE TABLE IF NOT EXISTS ").length = 27 by decide,show (ascii " (").length = 2 by decide]
  omega

theorem colPiecesLengths (cols : List PgCol) : (colPieces pq cols).map List.length = colLengths pq cols := by
  rw [colPieces,colLengths,List.map_cons,List.map_append,mapMapIdx]
  congr 2
  congr 1
  funext c col
  simp only [List.length_append,sepLength,identLength]

theorem conflictPiecesLengths (pkIdents : Bytes) (pkNames : List Bytes) (cols : List PgCol) :
    (conflictPieces pq pkIdents pkNames cols).map List.length = conflictLengths pq pkIdents pkNames cols := by
  rw [conflictPieces,conflictLengths]
  split
  · rfl
  · rw [List.map_cons]
    congr 1
    · simp only [List.length_append]
      rw [show (ascii " ON CONFLICT (").length = 14 by decide,show (ascii ") DO ").length = 5 by decide]
      omega
    · split
      · rfl
      · rw [List.map_cons,mapMapIdx]
        congr 2
        funext c col
        simp only [List.length_append,sepLength,identLength]
        rw [show (ascii " = EXCLUDED.").length = 12 by decide]
        omega

theorem roomFitted {cap : Nat} {pieces : List Bytes} {lengths : List Nat} (same : pieces.map List.length = lengths) :
    Room cap pieces ↔ Fitted cap lengths := by
  rw [Room,Fitted,← same,← List.map_dropLast,List.length_flatten,List.forall_mem_map]

/-! ### Texts of the pieces -/

theorem sepFlatten {α : Type} (f : α → Bytes) (xs : List α) : (xs.mapIdx fun i x => sep i ++ f x).flatten = joined (xs.map f) := by
  have later : ∀ xs : List α, (xs.mapIdx fun i x => sep (i + 1) ++ f x).flatten = xs.flatMap fun x => [44,32] ++ f x := by
    intro xs
    rw [List.mapIdx_eq_zipIdx_map,List.flatMap_def]
    congr 1
    rw [← List.zipIdx_map_fst 0 xs,List.map_map,List.zipIdx_map_fst]
    rfl
  cases xs with
  | nil => rfl
  | cons x xs =>
    rw [List.mapIdx_cons,List.flatten_cons,later,show sep 0 = [] from rfl,List.nil_append,List.map_cons]
    induction xs generalizing x with
    | nil => simp [joined]
    | cons y ys ih => rw [List.flatMap_cons,List.append_assoc,ih y,joined,joined,List.map_cons,List.intercalate_cons_cons,List.append_assoc]

theorem colPiecesText (cols : List PgCol) : (colPieces pq cols).flatten = 40 :: (joined (cols.map (colIdent pq)) ++ [41]) := by
  rw [colPieces,List.flatten_cons,List.flatten_append,sepFlatten]
  rfl

theorem conflictPiecesText (pkIdents : Bytes) (pkNames : List Bytes) (cols : List PgCol) :
    (conflictPieces pq pkIdents pkNames cols).flatten = conflictSql pkIdents pkNames ((others pkNames cols).map (colIdent pq)) := by
  rw [conflictPieces,conflictSql]
  split
  · rfl
  · rw [List.flatten_cons,List.append_assoc,List.append_assoc]
    congr 3
    simp only [List.map_eq_nil_iff]
    split
    · rfl
    · rw [List.flatten_cons,sepFlatten,List.map_map]
      rfl

def rowText (cols : List PgCol) (r : Nat) : Bytes := 40 :: (joined (cols.map fun col => cellText pq col r) ++ [41])

theorem insertPiecesText (eident collist conflict : Bytes) (cols : List PgCol) (rows : List Nat) :
    (insertPieces pq eident collist conflict cols rows).flatten =
      ascii "INSERT INTO " ++ (eident ++ 32 :: (collist ++ (ascii " VALUES " ++ (joined (rows.map (rowText pq cols)) ++ conflict)))) := by
  have row : ∀ i r, (rowPieces pq cols i r).flatten = sep i ++ rowText pq cols r := fun i r => by
    rw [rowPieces,List.flatten_cons,List.flatten_append,sepFlatten,rowText,List.append_assoc]
    rfl
  have last : (if conflict = [] then [] else [conflict]).flatten = conflict := by
    split
    · rename_i empty
      exact empty.symm
    · exact List.append_nil _
  rw [insertPieces,List.flatten_cons,List.flatten_append,List.flatten_flatten,mapMapIdx,last]
  simp only [row,sepFlatten,List.append_assoc,List.cons_append]

/-! ### Rows and chunks -/

theorem chunksFlatten (nrows : Nat) : (chunks nrows).flatten = List.range nrows := by
  have firsts : ∀ k, ((List.range k).map fun i => List.range' (i * pgInsChunk) (min pgInsChunk (nrows - i * pgInsChunk))).flatten =
      List.range (min (k * pgInsChunk) nrows) := by
    intro k
    induction k with
    | zero => simp
    | succ k ih =>
      rw [List.range_succ,List.map_append,List.flatten_append,ih,List.map_singleton,List.flatten_singleton]
      rcases Nat.le_total (k * pgInsChunk) nrows with le | ge
      · have next := List.range'_append_1 (s := 0) (m := k * pgInsChunk) (n := min pgInsChunk (nrows - k * pgInsChunk))
        have count : k * pgInsChunk + min pgInsChunk (nrows - k * pgInsChunk) = min ((k + 1) * pgInsChunk) nrows := by
          rw [Nat.succ_mul]
          omega
        rw [Nat.zero_add,count] at next
        rw [Nat.min_eq_left le,List.range_eq_range',List.range_eq_range',next]
      · rw [Nat.min_eq_right ge,Nat.sub_eq_zero_of_le ge,Nat.min_zero,List.range'_zero,List.append_nil,Nat.min_eq_right]
        exact Nat.le_trans ge (Nat.mul_le_mul_right _ (Nat.le_succ k))
  rw [chunks,firsts,Nat.min_eq_right]
  rw [pgInsChunk]
  omega

theorem sendAll {server : Server} {sql meant : List Nat → Option Bytes} {groups : List (List Nat)}
    (each : ∀ rows ∈ groups, ∃ t, meant rows = some t ∧ sql rows = some t) (sent : List Bytes) :
    ∃ ok inserts, sendChunks server sql sent groups = some (ok,inserts) ∧ (ok = true → groups.mapM meant = some inserts) := by
  induction groups generalizing sent with
  | nil => exact ⟨true,[],rfl,fun _ => rfl⟩
  | cons rows rest ih =>
    obtain ⟨⟨t,means,is⟩,later⟩ := List.forall_mem_cons.mp each
    rw [sendChunks,is,Option.bind_some]
    split
    · obtain ⟨ok,inserts,sends,same⟩ := ih later (sent ++ [t])
      refine ⟨ok,t :: inserts,congrArg (Option.map _) sends,fun yes => ?_⟩
      rw [List.mapM_cons,means,same yes]
      rfl
    · exact ⟨false,_,rfl,nofun⟩

theorem sentAll {sql : List Nat → Option Bytes} {groups : List (List Nat)} {sent : List Bytes} {out : Bool × List Bytes}
    (is : sendChunks (fun _ => true) sql sent groups = some out) : out.1 = true ∧ groups.mapM sql = some out.2 := by
  rw [Codec.mapMSome]
  induction groups generalizing sent out with
  | nil =>
    cases is
    exact ⟨rfl,.nil⟩
  | cons rows rest ih =>
    rw [sendChunks,Option.bind_eq_some_iff] at is
    obtain ⟨text,one,is⟩ := is
    rw [if_pos rfl,Option.map_eq_some_iff] at is
    obtain ⟨out',is,rfl⟩ := is
    exact ⟨(ih is).1,.cons one (ih is).2⟩

theorem mapMGetD {α β : Type} {f : α → Option β} {xs : List α} (d : β) (all : ∀ x ∈ xs, (f x).isSome) :
    xs.mapM f = some (xs.map fun x => (f x).getD d) := by
  rw [Codec.mapMSome,List.forall₂_map_right_iff,List.forall₂_same]
  intro x mem
  obtain ⟨y,is⟩ := Option.isSome_iff_exists.mp (all x mem)
  rw [is,Option.getD_some]

theorem mapMIsSome {α β : Type} {f : α → Option β} {xs : List α} {ys : List β} (is : xs.mapM f = some ys) : ∀ x ∈ xs, (f x).isSome := by
  have each := Codec.mapMSome.mp is
  clear is
  induction each with
  | nil => nofun
  | cons one _ ih =>
    intro x mem
    rcases List.mem_cons.mp mem with rfl | mem
    · rw [one]
      rfl
    · exact ih x mem

variable {pq}

theorem cellTextSql (col : PgCol) (r : Nat) : (cellSql pq col r).getD (ascii "''") = cellText pq col r := by
  rw [cellSql,cellText]
  cases col.cell r <;> rfl

/-- Where all names and cells can be escaped, the INSERT that is meant is the code's with a whole column list and conflict clause. -/
theorem insertSqlIs {eident pkIdents : Bytes} {pkNames : List Bytes} {cols : List PgCol} {rows : List Nat}
    (names : ∀ col ∈ cols, (pq.escapeIdentifier col.name).isSome) (cells : ∀ r ∈ rows, ∀ col ∈ cols, (cellSql pq col r).isSome) :
    insertSql pq eident pkIdents pkNames cols rows = some (insertPieces pq eident (colPieces pq cols).flatten
      (conflictPieces pq pkIdents pkNames cols).flatten cols rows).flatten := by
  have ids := mapMGetD (ascii "\"col\"") names
  have otherIds := @mapMGetD _ _ _ (others pkNames cols) (ascii "\"col\"") fun col mem => names col (List.mem_of_mem_filter mem)
  have tuple : ∀ r ∈ rows, (cols.mapM fun col => cellSql pq col r) = some (cols.map fun col => cellText pq col r) := fun r mem => by
    rw [mapMGetD (ascii "''") (cells r mem)]
    exact congrArg some (List.map_congr_left fun col _ => cellTextSql col r)
  have tuples : (rows.mapM fun r => cols.mapM fun col => cellSql pq col r) = some (rows.map fun r => cols.map fun col => cellText pq col r) := by
    rw [Codec.mapMSome,List.forall₂_map_right_iff,List.forall₂_same]
    exact tuple
  rw [insertSql,ids,otherIds,tuples,insertPiecesText,colPiecesText,conflictPiecesText]
  simp only [Option.bind_eq_bind,Option.bind_some,List.map_map]
  rw [show ascii " (" = [32,40] by decide,show ascii ") VALUES " = 41 :: ascii " VALUES " by decide]
  simp only [List.append_assoc,List.cons_append,List.nil_append]
  rfl

/-! ### The whole call -/

theorem cellPieces {cols : List PgCol} {r : Nat} : (∀ p ∈ cols.mapIdx (fun c col => gap c + (cellText pq col r).length), p < 2 ^ 31) ↔
    ∀ p ∈ cols.mapIdx (fun c col => sep c ++ cellText pq col r), p.length < 2 ^ 31 := by
  have same : (cols.mapIdx fun c col => gap c + (cellText pq col r).length) =
      (cols.mapIdx fun c col => sep c ++ cellText pq col r).map List.length := by
    rw [mapMapIdx]
    congr 1
    funext c col
    rw [List.length_append,sepLength]
  rw [same,List.forall_mem_map]

theorem insertShort {eident collist conflict : Bytes} {cols : List PgCol} {rows : List Nat} (table : eident.length < 2 ^ 30)
    (list : collist.length < 4096) (clause : conflict.length < 8192)
    (cells : ∀ r ∈ rows, ∀ p ∈ cols.mapIdx (fun c col => sep c ++ cellText pq col r), p.length < 2 ^ 31) :
    ∀ p ∈ insertPieces pq eident collist conflict cols rows, p.length < 2 ^ 31 := by
  intro p mem
  rcases List.mem_cons.mp mem with rfl | mem
  · simp only [List.length_append,List.length_cons]
    rw [show (ascii "INSERT INTO ").length = 12 by decide,show (ascii " VALUES ").length = 8 by decide]
    omega
  rcases List.mem_append.mp mem with mem | mem
  · obtain ⟨row,mem,inRow⟩ := List.mem_flatten.mp mem
    obtain ⟨i,lt,rfl⟩ := List.mem_mapIdx.mp mem
    rcases List.mem_cons.mp inRow with rfl | inRow
    · rw [List.length_append,sepLength,gap]
      split <;> decide
    rcases List.mem_append.mp inRow with inRow | inRow
    · exact cells _ (List.getElem_mem lt) p inRow
    · rw [List.mem_singleton.mp inRow]
      decide
  · split at mem
    · cases mem
    · rw [List.mem_singleton.mp mem]
      omega

theorem insertCells {eident collist conflict : Bytes} {cols : List PgCol} {rows : List Nat}
    (short : ∀ p ∈ insertPieces pq eident collist conflict cols rows, p.length < 2 ^ 31) {r : Nat} (mem : r ∈ rows) :
    ∀ p ∈ cols.mapIdx (fun c col => sep c ++ cellText pq col r), p.length < 2 ^ 31 := by
  intro p cell
  obtain ⟨i,lt,rfl⟩ := List.getElem_of_mem mem
  refine short p (List.mem_cons_of_mem _ (List.mem_append_left _ (List.mem_flatten.mpr ⟨_,List.mem_mapIdx.mpr ⟨i,lt,rfl⟩,?_⟩)))
  exact List.mem_cons_of_mem _ (List.mem_append_left _ cell)

theorem insertsIs {eident collist conflict : Bytes} {cols : List PgCol} {rows : List Nat} :
    ((∀ p ∈ insertPieces pq eident collist conflict cols rows, p.length < 2 ^ 31) →
      ((insertPieces pq eident collist conflict cols rows).foldlM append (4096,⟨[],0⟩)).map (·.2.kept) =
        some (insertPieces pq eident collist conflict cols rows).flatten) ∧
    ((((insertPieces pq eident collist conflict cols rows).foldlM append (4096,⟨[],0⟩)).map (·.2.kept)).isSome →
      ∀ p ∈ insertPieces pq eident collist conflict cols rows, p.length < 2 ^ 31) := by
  obtain ⟨fits,past⟩ := @appendAll (insertPieces pq eident collist conflict cols rows) (4096,⟨[],0⟩) (by decide) rfl
  constructor
  · intro short
    obtain ⟨b,is,text⟩ := fits short
    rw [is,Option.map_some,text,List.nil_append]
  · intro some_
    by_contra no
    rw [past no] at some_
    cases some_

variable {ctx : PgCtx} {entity eident pkIdents : Bytes} {overwrite : Bool} {cols : List PgCol} {nrows : Nat}

theorem tableShort (columns : cols.length ≤ maxCols)
    (ddl : Fitted (64 + cols.length * 80 + 1024) (ddlLengths pq eident pkIdents (pgPkSplit ctx.primaryKey) cols)) :
    eident.length < 2 ^ 30 := by
  have all := ddl.1
  rw [ddlLengths,← List.append_assoc,← List.cons_append,List.dropLast_concat,List.sum_cons] at all
  rw [maxCols] at columns
  omega

/-- In the chunks stand the rows. -/
theorem chunkOf {r : Nat} (lt : r < nrows) : ∃ rows ∈ chunks nrows, r ∈ rows :=
  List.mem_flatten.mp (chunksFlatten nrows ▸ List.mem_range.mpr lt)

theorem inChunk {rows : List Nat} {r : Nat} (mem : rows ∈ chunks nrows) (at_ : r ∈ rows) : r < nrows :=
  List.mem_range.mp (chunksFlatten nrows ▸ List.mem_flatten.mpr ⟨rows,mem,at_⟩)

theorem deliversGood (delivers : Delivers pq ctx entity overwrite cols nrows) : Good pq ctx entity cols nrows := by
  intro connected eident pkIdents table key
  obtain ⟨out,is,ends⟩ := delivers fun _ => true
  simp only [pgWriteBatch,connected,Bool.not_true,Bool.false_eq_true,if_false,table,key,Bool.and_false] at is
  obtain ⟨ddl,ddlIs,is⟩ := Option.bind_eq_some_iff.mp is
  obtain ⟨collist,colIs,is⟩ := Option.bind_eq_some_iff.mp is
  obtain ⟨conflict,conflictIs,is⟩ := Option.bind_eq_some_iff.mp is
  obtain ⟨o,sends,rfl⟩ := Option.map_eq_some_iff.mp is
  obtain ⟨ok,mapped⟩ := sentAll sends
  have room {cap : Nat} {pieces : List Bytes} {f : Filled} (is : fill cap pieces = some f) : Room cap pieces := by
    by_contra no
    rw [(fillIs pieces).2 no] at is
    cases is
  have text {cap : Nat} {pieces : List Bytes} {f : Filled} (is : fill cap pieces = some f) : f.kept = pieces.flatten.take (cap - 1) := by
    rw [(fillIs pieces).1 (room is)] at is
    cases is
    rfl
  rcases ends with failed | ⟨e,k,groups,table',key',rfl,_,meant⟩
  · simp only [ok,if_true] at failed
    omega
  rw [table] at table'
  rw [key] at key'
  cases table'
  cases key'
  -- for each chunk the text that was sent is the text that is meant
  have both : ∀ rows ∈ chunks nrows, ∃ t, ((insertPieces pq eident collist.kept conflict.kept cols rows).foldlM append
      (4096,⟨[],0⟩)).map (·.2.kept) = some t ∧ insertSql pq eident pkIdents (pgPkSplit ctx.primaryKey) cols rows = some t := by
    have left := Codec.mapMSome.mp mapped
    have right := Codec.mapMSome.mp meant
    generalize chunks nrows = groups at left right
    generalize o.2 = texts at left right
    clear mapped meant sends
    induction left with
    | nil => nofun
    | cons one _ ih =>
      cases right with
      | cons two rest =>
        intro rows mem
        rcases List.mem_cons.mp mem with rfl | mem
        · exact ⟨_,one,two⟩
        · exact ih rest rows mem
  have escaped : ∀ rows ∈ chunks nrows, (∀ col ∈ cols, (pq.escapeIdentifier col.name).isSome) ∧
      ∀ r ∈ rows, ∀ col ∈ cols, (cellSql pq col r).isSome := by
    intro rows mem
    obtain ⟨t,_,sql⟩ := both rows mem
    rw [insertSql] at sql
    obtain ⟨ids,idsIs,sql⟩ := Option.bind_eq_some_iff.mp sql
    obtain ⟨otherIds,_,sql⟩ := Option.bind_eq_some_iff.mp sql
    obtain ⟨tuples,tuplesIs,_⟩ := Option.bind_eq_some_iff.mp sql
    refine ⟨mapMIsSome idsIs,fun r at_ => ?_⟩
    obtain ⟨tuple,tupleIs⟩ := Option.isSome_iff_exists.mp (mapMIsSome tuplesIs r at_)
    exact mapMIsSome tupleIs
  have short : ∀ rows ∈ chunks nrows, ∀ p ∈ insertPieces pq eident collist.kept conflict.kept cols rows, p.length < 2 ^ 31 := by
    intro rows mem
    obtain ⟨t,sent,_⟩ := both rows mem
    exact insertsIs.2 (sent ▸ rfl)
  have whole : ∀ rows ∈ chunks nrows, collist.kept = (colPieces pq cols).flatten ∧
      conflict.kept = (conflictPieces pq pkIdents (pgPkSplit ctx.primaryKey) cols).flatten := by
    intro rows mem
    obtain ⟨t,sent,sql⟩ := both rows mem
    rw [insertsIs.1 (short rows mem),Option.some.injEq] at sent
    rw [insertSqlIs (escaped rows mem).1 (escaped rows mem).2,Option.some.injEq,← sent] at sql
    have lengths := congrArg List.length sql
    simp only [insertPiecesText,List.length_append,List.length_cons] at lengths
    have list := (List.take_prefix (4096 - 1) (colPieces pq cols).flatten)
    have clause := (List.take_prefix (8192 - 1) (conflictPieces pq pkIdents (pgPkSplit ctx.primaryKey) cols).flatten)
    rw [← text colIs] at list
    rw [← text conflictIs] at clause
    have := list.length_le
    have := clause.length_le
    exact ⟨list.eq_of_length (by omega),clause.eq_of_length (by omega)⟩
  refine ⟨(roomFitted (ddlPiecesLengths pq eident pkIdents _ cols)).mp (room ddlIs),
    (roomFitted (colPiecesLengths pq cols)).mp (room colIs),
    (roomFitted (conflictPiecesLengths pq pkIdents _ cols)).mp (room conflictIs),fun pos => ?_,fun pos => ?_,
    fun r lt => ?_,fun r lt => ?_⟩
  · obtain ⟨rows,mem,_⟩ := chunkOf pos
    obtain ⟨list,clause⟩ := whole rows mem
    rw [text colIs,takenWhole (by decide),List.length_flatten,colPiecesLengths] at list
    rw [text conflictIs,takenWhole (by decide),List.length_flatten,conflictPiecesLengths] at clause
    exact ⟨list,clause⟩
  · obtain ⟨rows,mem,_⟩ := chunkOf pos
    exact (escaped rows mem).1
  · obtain ⟨rows,mem,at_⟩ := chunkOf lt
    exact (escaped rows mem).2 r at_
  · obtain ⟨rows,mem,at_⟩ := chunkOf lt
    exact cellPieces.mpr (insertCells (short rows mem) at_)

/-- Where there is room, each chunk's buffer holds the INSERT that is meant. -/
theorem chunksMeant (roomy : Roomy pq eident pkIdents (pgPkSplit ctx.primaryKey) cols nrows) (table : eident.length < 2 ^ 30) :
    ∀ rows ∈ chunks nrows, ∃ t, insertSql pq eident pkIdents (pgPkSplit ctx.primaryKey) cols rows = some t ∧
      ((insertPieces pq eident ((colPieces pq cols).flatten.take (4096 - 1))
        ((conflictPieces pq pkIdents (pgPkSplit ctx.primaryKey) cols).flatten.take (8192 - 1)) cols rows).foldlM append
          (4096,⟨[],0⟩)).map (·.2.kept) = some t := by
  intro rows mem
  have pos : 0 < nrows := by
    by_contra no
    rw [Nat.eq_zero_of_not_pos no] at mem
    cases mem
  obtain ⟨list,clause⟩ := roomy.whole pos
  have listLength : (colPieces pq cols).flatten.length < 4096 := by rwa [List.length_flatten,colPiecesLengths]
  have clauseLength : (conflictPieces pq pkIdents (pgPkSplit ctx.primaryKey) cols).flatten.length < 8192 := by
    rwa [List.length_flatten,conflictPiecesLengths]
  rw [(takenWhole (by decide)).mpr listLength,(takenWhole (by decide)).mpr clauseLength]
  refine ⟨_,insertSqlIs (roomy.names pos) fun r at_ => roomy.cells r (inChunk mem at_),insertsIs.1 ?_⟩
  exact insertShort table listLength clauseLength fun r at_ => cellPieces.mp (roomy.short r (inChunk mem at_))

theorem goodDelivers (columns : cols.length ≤ maxCols) (good : Good pq ctx entity cols nrows) :
    Delivers pq ctx entity overwrite cols nrows := by
  intro server
  have neg : (-1 : Int) < 0 := by decide
  rw [pgWriteBatch]
  cases connected : ctx.connected with
  | false => exact ⟨_,rfl,.inl neg⟩
  | true =>
  cases table : pgQualifyDup pq entity with
  | none => exact ⟨_,rfl,.inl neg⟩
  | some eident =>
  cases key : pgPkIdentList pq 0 [] (pgPkSplit ctx.primaryKey) with
  | none => exact ⟨⟨-1,[],[]⟩,by simp only [Bool.not_true,Bool.false_eq_true,if_false,key],.inl neg⟩
  | some pkIdents =>
  have roomy := good connected eident pkIdents table key
  have ddl := (fillIs _).1 ((roomFitted (ddlPiecesLengths pq eident pkIdents (pgPkSplit ctx.primaryKey) cols)).mpr roomy.ddl)
  have list := (fillIs _).1 ((roomFitted (colPiecesLengths pq cols)).mpr roomy.columns)
  have clause := (fillIs _).1 ((roomFitted (conflictPiecesLengths pq pkIdents (pgPkSplit ctx.primaryKey) cols)).mpr roomy.conflict)
  have each := chunksMeant roomy (tableShort columns roomy.ddl)
  simp only [Bool.not_true,Bool.false_eq_true,if_false,key,ddl,list,clause,Option.bind_some]
  generalize (if overwrite = true then [_,_] else [_] : List Bytes) = setup
  split
  · exact ⟨_,rfl,.inl neg⟩
  split
  · exact ⟨_,rfl,.inl neg⟩
  obtain ⟨ok,inserts,sends,same⟩ := @sendAll server _ _ _ each setup
  rw [sends]
  cases ok with
  | false => exact ⟨_,rfl,.inl neg⟩
  | true =>
    refine ⟨_,rfl,.inr ⟨eident,pkIdents,_,rfl,rfl,rfl,chunksFlatten nrows,?_⟩⟩
    exact same rfl

/-- The rows are delivered where the buffers have room, and only there. -/
theorem deliversIffRoomy (columns : cols.length ≤ maxCols) : Delivers pq ctx entity overwrite cols nrows ↔ Good pq ctx entity cols nrows :=
  ⟨deliversGood,goodDelivers columns⟩

def quoted (q : UInt8) (s : Bytes) : Bytes := q :: (s.flatMap (fun c => if c = q then [q,q] else [c]) ++ [q])

def quoting : Libpq := ⟨fun s => some (quoted 34 s),fun s => some (quoted 39 s)⟩

theorem deliversTwoRows : Delivers quoting ⟨true,ascii "id"⟩ (ascii "public.t") true
    [⟨ascii "id",.int64,none,[some (ascii "1"),some (ascii "2")]⟩,⟨ascii "note",.text,some [2],[some (ascii "it's"),none]⟩] 2 :=
  (deliversIffRoomy (by decide)).mpr fun _ eident pkIdents table key => by
    cases (Option.some.inj table : _ = eident)
    cases (Option.some.inj key : _ = pkIdents)
    exact ⟨⟨by decide,by decide⟩,⟨by decide,by decide⟩,⟨by decide,by decide⟩,by decide,by decide,by decide,by decide⟩

theorem quotedPlain (n : Nat) : (quoted 34 (List.replicate n 97)).length = n + 2 := by
  have plain : (List.replicate n (97 : UInt8)).flatMap (fun c => if c = 34 then [34,34] else [c]) = List.replicate n 97 := by
    induction n with
    | zero => rfl
    | succ n ih => rw [List.replicate_succ,List.flatMap_cons,ih,if_neg (by decide),List.singleton_append]
  rw [quoted,plain,List.length_cons,List.length_append,List.length_replicate,List.length_singleton]

/-- A column name of 2000 bytes ends past the statement's 1168 bytes. -/
theorem longNamePast : ¬Delivers quoting ⟨true,[]⟩ (ascii "t") false [⟨List.replicate 2000 97,.text,none,[some (ascii "x")]⟩] 1 := by
  intro delivers
  obtain ⟨fits,_⟩ := (deliversGood delivers rfl _ _ rfl rfl).ddl
  rw [ddlLengths,← List.append_assoc,← List.cons_append,List.dropLast_concat,List.mapIdx_singleton] at fits
  have name : identLength quoting ⟨List.replicate 2000 97,.text,none,[some (ascii "x")]⟩ = 2002 := by
    rw [identLength,colIdent,quoting,Option.getD_some,quotedPlain]
  rw [List.cons_append,List.sum_cons,List.sum_cons,name,List.length_singleton] at fits
  omega

end Napastak.PgSink
