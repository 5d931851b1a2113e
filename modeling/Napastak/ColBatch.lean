import Napastak.CStr

/-! Column batches, from `storage.h`. A batch is raw memory; `ColBatch.Wf` is what its
makers promise about it. -/
namespace Napastak.Store

inductive ColType
  | int64 | double | text | bool | null | decimal | date | timestamp
  deriving DecidableEq, Repr

/-- `COL_IS_TEXTUAL`: the values are `char*`. -/
def ColType.isTextual : ColType → Bool
  | .int64 | .double | .bool => false
  | _ => true

/-- What `values[c]` points to: 8-byte numbers (a DOUBLE by its bits), C strings some of
which may be NULL pointers, or nothing. -/
inductive Values
  | null
  | nums (xs : List Int64)
  | texts (xs : List (Option Bytes))
  deriving DecidableEq, Repr

structure Column where
  nullBitmap : Option Bytes
  values : Values
  deriving DecidableEq, Repr

structure ColBatch where
  schema : Option (List ColType)
  ncols : Nat
  nrows : Nat
  cols : List Column
  deriving DecidableEq, Repr

def maxCols : Nat := 2048

/-- `null_bit`: least significant bit first, a missing bitmap means no NULLs. -/
def nullBit (bm : Option Bytes) (i : Nat) : Bool :=
  match bm with
  | none => false
  | some bs => (bs.getD (i / 8) 0).toNat.testBit (i % 8)

def nullBmBytes (nrows : Nat) : Nat := (nrows + 7) / 8

/-- The type a column is handled by: TEXT where the schema says nothing. -/
def typeOf (schema : Option (List ColType)) (c : Nat) : ColType := (schema.bind (·[c]?)).getD .text

/-- The array has one value of the right kind for each row, and the bitmap one bit. -/
structure Column.Fits (nrows : Nat) (t : ColType) (col : Column) : Prop where
  kind : match col.values with
    | .null => False
    | .nums xs => t.isTextual = false ∧ xs.length = nrows
    | .texts xs => t.isTextual = true ∧ xs.length = nrows
  bits : ∀ bm, col.nullBitmap = some bm → nullBmBytes nrows ≤ bm.length

structure ColBatch.Wf (b : ColBatch) : Prop where
  some_ : 1 ≤ b.ncols
  limit : b.ncols ≤ maxCols
  count : b.cols.length = b.ncols
  rows : b.nrows < 2 ^ 31
  fits : ∀ (c : Nat) (col : Column), b.cols[c]? = some col → col.Fits b.nrows (typeOf b.schema c)

inductive Cell
  | num (v : Int64)
  | text (s : Bytes)
  deriving DecidableEq, Repr

/-- A cell's value; a NULL `char*` is the empty text. -/
def Values.cell : Values → Nat → Option Cell
  | .null, _ => none
  | .nums xs, i => xs[i]?.map .num
  | .texts xs, i => xs[i]?.map fun s => .text (s.getD [])

/-- The same NULLs, and the same value wherever there is no NULL. -/
def SameCells (nrows : Nat) (a b : Column) : Prop :=
  ∀ i < nrows, nullBit a.nullBitmap i = nullBit b.nullBitmap i ∧
    (nullBit a.nullBitmap i = false → a.values.cell i = b.values.cell i)

/-- A copy of the bytes the rows need has the same bits. -/
theorem nullBitTake {bm : Option Bytes} {nrows i : Nat} (h : i < nrows) :
    nullBit (bm.map (·.take (nullBmBytes nrows))) i = nullBit bm i := by
  cases bm with
  | none => rfl
  | some bs =>
    have : i / 8 < nullBmBytes nrows := by unfold nullBmBytes; omega
    simp only [nullBit,Option.map_some,List.getD_eq_getElem?_getD,List.getElem?_take,if_pos this]

end Napastak.Store
