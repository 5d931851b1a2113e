import Napastak.Csv
import Napastak.ColBatch

/-! Loading a CSV body into a table: `h_ingest_csv` from the text in UTF-8 on. The rows are checked before
anything is written, and go to the table in batches whose appends fail one by one. -/
namespace Napastak.Csv
open Store (quote cr lf comma maxCols)

/-- A row of cells, NULL where there is none. -/
abbrev Row := List (Option Bytes)

def semicolon : UInt8 := 59
def batchSize : Nat := 8192
def rowCap : Nat := 65536

inductive Refusal where
  | noHeader | malformedHeader | tooManyColumns | rowTooLong | badQuoting | tooManyFields | bufferFailed | writeFailed
  deriving DecidableEq, Repr

/-- The status and the text of the answer. -/
def Refusal.answer : Refusal → Nat × String
  | .noHeader => (400,"no header")
  | .malformedHeader => (400,"malformed CSV header")
  | .tooManyColumns => (400,"too many columns")
  | .rowTooLong => (400,"CSV row exceeds the 65535-byte maximum row size")
  | .badQuoting => (400,"malformed CSV row (bad quoting)")
  | .tooManyFields => (400,"CSV row has more fields than header")
  | .bufferFailed => (500,"txn buffer failed")
  | .writeFailed => (500,"ingest write failed")

/-- What becomes of one append: it takes the batch, or fails with so many rows of it written. -/
inductive Fate where
  | ok
  | fails (written : Nat)
  deriving DecidableEq, Repr

/-- The rows of the table, if there is one, and those a transaction holds back for it. -/
structure Tables where
  table : Option (List Row)
  buffered : List Row
  deriving DecidableEq, Repr

def detectDelim (line : Bytes) : UInt8 := if line.count semicolon > line.count comma then semicolon else comma

/-- The bytes before the first `\n`. -/
def firstLine (body : Bytes) : Bytes := body.takeWhile (· ≠ lf)

/-- A column name without the carriage returns and spaces at its end. -/
def trimName (name : Bytes) : Bytes := (name.reverse.dropWhile fun c => c = cr ∨ c = 32).reverse

structure Header where
  delim : UInt8
  names : List Bytes
  rest : Bytes
  deriving DecidableEq, Repr

/-- The header goes to the first `\n`, inside quotes or not. -/
def csvHeader (body : Bytes) : Except Refusal Header :=
  if lf ∉ body then .error .noHeader
  else
    let header := firstLine body
    let delim := detectDelim header
    match splitLineRfc4180Q delim header with
    | none => .error .malformedHeader
    | some hcols =>
      if maxCols < hcols.length then .error .tooManyColumns
      else .ok ⟨delim,hcols.map fun f => trimName f.1,body.drop (header.length + 1)⟩

/-- The pass before any side effect. -/
def checkRow (h : Header) (row : Bytes) : Except Refusal Unit :=
  if csvBlank row then .ok ()
  else if rowCap ≤ row.length then .error .rowTooLong
  else
    match splitLineRfc4180Q h.delim (dropCr row) with
    | none => .error .badQuoting
    | some fields => if h.names.length < fields.length then .error .tooManyFields else .ok ()

/-- NULL for a missing field, an empty one without quotes, and the text that stands for NULL. -/
def csvCell (fields : List (Bytes × Bool)) (col : Nat) : Option Bytes :=
  let cv := match fields[col]? with
    | none => nullSentinel
    | some (f,fq) => if f ≠ [] then f else if fq then [] else nullSentinel
  if cv = nullSentinel then none else some cv

def asRow (ncols : Nat) (fields : List (Bytes × Bool)) : Row := (List.range ncols).map (csvCell fields)

def ingestRow (h : Header) (row : Bytes) : Except Refusal Row :=
  match splitLineRfc4180Q h.delim (dropCr (row.take (rowCap - 1))) with
  | none => .error .badQuoting
  | some fields => if h.names.length < fields.length then .error .tooManyFields else .ok (asRow h.names.length fields)

variable (fates : Nat → Fate) (txnId : Nat)

/-- The `k`-th append, to the table or to the request's transaction. -/
def flush (k : Nat) (batch : List Row) (st : Tables) : Option Refusal × Tables :=
  let kept := match fates k with
    | .ok => batch
    | .fails written => batch.take written
  if txnId ≠ 0 then
    (if fates k = .ok then none else some .bufferFailed,{ st with buffered := st.buffered ++ kept })
  else (if fates k = .ok then none else some .writeFailed,{ st with table := st.table.map (· ++ kept) })

/-- The rows one by one, the batch so far and the number of appends before. -/
def ingestLoop (h : Header) : List Bytes → List Row → Nat → Nat → Tables → Except Refusal Nat × Tables
  | [], batch, k, rowCount, st =>
    if batch.length > 0 then
      match flush fates txnId k batch st with
      | (some e,st) => (.error e,st)
      | (none,st) => (.ok rowCount,st)
    else (.ok rowCount,st)
  | row :: rows, batch, k, rowCount, st =>
    if csvBlank row then ingestLoop h rows batch k rowCount st
    else
      match ingestRow h row with
      | .error e => (.error e,st)
      | .ok r =>
        if (batch ++ [r]).length = batchSize then
          match flush fates txnId k (batch ++ [r]) st with
          | (some e,st) => (.error e,st)
          | (none,st) => ingestLoop h rows [] (k + 1) (rowCount + 1) st
        else ingestLoop h rows (batch ++ [r]) k (rowCount + 1) st

/-- The answer (rows and columns, or why not) and what is left behind. -/
def hIngestCsv (body : Bytes) (st : Tables) : Except Refusal (Nat × Nat) × Tables :=
  match csvHeader body with
  | .error e => (.error e,st)
  | .ok h =>
    match (csvLines h.rest).forM (checkRow h) with
    | .error e => (.error e,st)
    | .ok () =>
      match ingestLoop fates txnId h (csvLines h.rest) [] 0 0 { st with table := some (st.table.getD []) } with
      | (.error e,st) => (.error e,st)
      | (.ok rowCount,st) => (.ok (rowCount,h.names.length),st)

end Napastak.Csv
