import Napastak.Compress
import Napastak.Wal
import Napastak.Split
import Napastak.Decimal

/-! `table_append`: a batch as one compressed record, or row by row as lines of cells,
quoted where a text cell asks for it. -/
namespace Napastak.Store
open Codec Framing

/-- The C library's doubles, each by its 64 bits: `snprintf("%.*g",p,x)`, `strtod` and `==`. -/
class Floats where
  printG : Nat → Int64 → Bytes
  strtod : Bytes → Int64
  eq : Int64 → Int64 → Bool

inductive Build
  | rows | compressed
  deriving DecidableEq, Repr

def rowBufCap : Nat := 262144

variable [Floats]

/-- The shortest of 15, 16 and 17 digits that reads back equal, else 17. -/
def fmtDouble (x : Int64) : Bytes :=
  if Floats.eq (Floats.strtod (Floats.printG 15 x)) x then Floats.printG 15 x
  else if Floats.eq (Floats.strtod (Floats.printG 16 x)) x then Floats.printG 16 x
  else Floats.printG 17 x

def boolText (b : Bool) : Bytes := if b then ascii "true" else ascii "false"

/-- `((int*)values)[r]` on an array of 8-byte values: half of one of them, the low half first. -/
def intAt (xs : List Int64) (r : Nat) : Nat :=
  let w := (xs.getD (r / 2) 0).toUInt64.toNat
  if r % 2 = 0 then w % 2 ^ 32 else w / 2 ^ 32

/-- What the row buffer gets for a cell; the types with no case of their own print nothing. -/
def plainCell (b : ColBatch) (r c : Nat) : Bytes :=
  match b.cols[c]? with
  | none => []
  | some col =>
    if nullBit col.nullBitmap r then nullText
    else match typeOf b.schema c, col.values with
      | .int64, .nums xs => lld (xs.getD r 0)
      | .double, .nums xs => fmtDouble (xs.getD r 0)
      | .text, .texts xs => (xs.getD r none).getD []
      | .bool, .nums xs => boolText (intAt xs r ≠ 0)
      | _, _ => []

def rowStep (b : ColBatch) (r : Nat) (buf : Bytes) (c : Nat) : Option Bytes :=
  if rowBufCap - 2 ≤ buf.length then none
  else
    let buf := if c = 0 then buf else buf ++ [comma]
    if rowBufCap ≤ buf.length + (plainCell b r c).length then none else some (buf ++ plainCell b r c)

/-- The row buffer, or nothing when the row does not fit it. -/
def rowBuf (b : ColBatch) (r : Nat) : Option Bytes := do
  let buf ← (List.range b.ncols).foldlM (rowStep b r) []
  if rowBufCap - 1 ≤ buf.length then none else some (buf ++ [lf])

/-- A text that a reader of plain lines would not get back. -/
def needsQuotes (v : Bytes) : Bool :=
  v = [] ∨ v = nullText ∨ v.any fun c => c = comma ∨ c = quote ∨ c = lf ∨ c = cr

/-- A TEXT cell whose string asks for quotes. -/
def needEsc (b : ColBatch) (r : Nat) : Bool :=
  b.schema.isSome && (List.range b.ncols).any fun c =>
    match b.cols[c]? with
    | none => false
    | some col => !nullBit col.nullBitmap r && match typeOf b.schema c, col.values with
      | .text, .texts xs => ((xs.getD r none).map needsQuotes).getD false
      | _, _ => false

def quoted (v : Bytes) : Bytes := quote :: (v.flatMap fun c => if c = quote then [quote,quote] else [c]) ++ [quote]

/-- A cell of an escaped row; here BOOL is read as 8-byte values and every other type as `char*`. -/
def escCell (b : ColBatch) (r c : Nat) : Bytes :=
  match b.cols[c]? with
  | none => []
  | some col =>
    if nullBit col.nullBitmap r then nullText
    else match typeOf b.schema c, col.values with
      | .int64, .nums xs => lld (xs.getD r 0)
      | .bool, .nums xs => boolText (xs.getD r 0 ≠ 0)
      | .double, .nums xs => fmtDouble (xs.getD r 0)
      | .text, .texts xs =>
        let v := (xs.getD r none).getD []
        if needsQuotes v then quoted v else v
      | _, .texts xs => (xs.getD r none).getD []
      | _, _ => []

def joinCells : List Bytes → Bytes
  | [] => []
  | [f] => f
  | f :: g :: fs => f ++ comma :: joinCells (g :: fs)

def escRecord (b : ColBatch) (r : Nat) : Bytes :=
  walOpInsertEsc :: (joinCells ((List.range b.ncols).map (escCell b r)) ++ [lf])

def rowRecord (b : ColBatch) (r : Nat) : Option Bytes :=
  (rowBuf b r).map fun buf => if needEsc b r then escRecord b r else buf

/-- The rows up to the first that does not fit, and whether all did. -/
def rowRecords (b : ColBatch) : List Nat → List Bytes × Bool
  | [] => ([],true)
  | r :: rs =>
    match rowRecord b r with
    | none => ([],false)
    | some record => (record :: (rowRecords b rs).1,(rowRecords b rs).2)

/-- The one record of the compressed build. -/
def batchRecord (b : ColBatch) : Option Bytes := do
  let cb ← compressBatch b
  let ser ← serialize cb
  some (walVersionCompressed :: ser)

/-- The records `table_append` writes and whether it returns 0; outside, a run that is not defined. -/
def appendRecords (build : Build) (b : ColBatch) : Option (List Bytes × Bool) :=
  if b.nrows = 0 then some ([],true)
  else match build with
    | .rows => some (rowRecords b (List.range b.nrows))
    | .compressed => (batchRecord b).map fun record => ([record],true)

/-- `table_append`, every write succeeding. -/
def tableAppend (build : Build) (file : Bytes) (b : ColBatch) : Option (Bytes × Int) :=
  (appendRecords build b).map fun w => (w.1.foldl walAppend file,if w.2 then 0 else -1)

end Napastak.Store
