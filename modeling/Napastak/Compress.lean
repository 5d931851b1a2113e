import Napastak.ColBatch
import Napastak.Lib.Codec
import Napastak.Lib.Rle
import Napastak.Lib.Dict

/-! `compress.c`: choice of an encoding, packing of a column, the "DCMB" layout and its
reader. `none` is a run the C code leaves undefined: a write or read outside its
arrays, or `int` arithmetic past 2^31. -/
namespace Napastak.Store
open Codec Rle Dict

inductive Encoding | plain | rle | dict | delta
  deriving DecidableEq, Repr

/-- A column of values packed by one of the two encodings shared by numbers and texts. -/
inductive Packed (α : Type)
  | rle (runs : List (Nat × α))
  | dict (values : List α) (isU8 : Bool) (codes : List Nat)
  deriving DecidableEq, Repr

inductive Payload
  | plain (values : Values)
  | nums (p : Packed Int64)
  | texts (p : Packed Bytes)
  | delta (base : Int64) (deltas : List Int32)
  | other (enc : UInt8)
  deriving DecidableEq, Repr

/-- `colType` is the enumerator as the byte it is stored in. -/
structure CompressedCol where
  colType : UInt8
  nrows : Nat
  nullBitmap : Option Bytes
  payload : Payload
  deriving DecidableEq, Repr

structure CompressedBatch where
  schema : Option (List ColType)
  ncols : Nat
  nrows : Nat
  cols : List CompressedCol
  deriving DecidableEq, Repr

def ColType.code : ColType → UInt8
  | .int64 => 0 | .double => 1 | .text => 2 | .bool => 3 | .null => 4 | .decimal => 5 | .date => 6 | .timestamp => 7

/-! ### Choice of an encoding -/

/-- The values whose null bit is clear. -/
def present {α : Type} (bm : Option Bytes) (xs : List α) : List α :=
  (xs.zipIdx.filter fun p => !nullBit bm p.2).map (·.1)

def deltaFits (d : Int64) : Bool := -0x7FFFFFFF ≤ d ∧ d ≤ 0x7FFFFFFF

def chooseInt (bm : Option Bytes) (vs : List Int64) (sample : Nat) : Encoding :=
  let tmp := sortBy Int64.toInt (present bm (vs.take sample))
  let uniq := countRuns tmp
  if uniq < 256 then .dict
  else if uniq < 65536 then .dict
  else
    let mono := (List.range sample).all fun i =>
      i = 0 || nullBit bm i || nullBit bm (i - 1) || deltaFits (vs.getD i 0 - vs.getD (i - 1) 0)
    if mono then .delta else .plain

/-- One turn of the naive count: `seen` keeps the first 256 different texts. -/
def seenStep (st : List Bytes × Nat) (s : Bytes) : List Bytes × Nat :=
  if s ∈ st.1 then st else (if st.1.length < 256 then st.1 ++ [s] else st.1,st.2 + 1)

def chooseText (vs : List (Option Bytes)) (sample : Nat) : Encoding :=
  let cells := (vs.take sample).map (·.getD [])
  if countRuns cells ≤ sample / 3 then .rle
  else if (cells.foldl seenStep ([],0)).2 < 256 then .dict
  else .plain

/-- `compress_choose_encoding`. -/
def chooseEncoding (values : Values) (bm : Option Bytes) (nrows : Nat) (type : ColType) : Encoding :=
  if nrows = 0 then .plain
  else match type, values with
    | .double, _ => .plain
    | .bool, _ => .rle
    | .int64, .nums vs => chooseInt bm vs (min nrows 1000)
    | .text, .texts vs => chooseText vs (min nrows 1000)
    | _, _ => .plain

/-! ### Packing -/

/-- What RLE stores for a column of numbers: INT64_MIN under a set null bit. -/
def placedNums (bm : Option Bytes) (vs : List Int64) : List Int64 :=
  vs.mapIdx fun i v => if nullBit bm i then Int64.minValue else v

/-- What RLE and DICT store for a column of texts: "" under a set null bit. -/
def placedTexts (bm : Option Bytes) (vs : List (Option Bytes)) : List Bytes :=
  vs.mapIdx fun i s => if nullBit bm i then [] else s.getD []

/-- `compress_col_rle_*`: the first pass counts whole runs and sizes the arrays, the second
cuts runs at 65535 and writes them. -/
def compressRle {α : Type} [DecidableEq α] (xs : List α) : Option (Packed α) :=
  let runs := rle 65535 xs
  if countRuns xs < runs.length then none else some (.rle runs)

/-- `compress_col_dict_int`; `none` is its -1. -/
def compressDictInt (bm : Option Bytes) (vs : List Int64) : Option (Packed Int64) :=
  (uniques 65535 (present bm vs)).map fun u =>
    let dict := sortBy Int64.toInt u
    .dict dict (decide (dict.length ≤ 256))
      (vs.mapIdx fun i v => if nullBit bm i then 0 else bsearch Int64.toInt dict v 0 dict.length)

/-- `compress_col_dict_text`; `none` is its -1. -/
def compressDictText (bm : Option Bytes) (vs : List (Option Bytes)) : Option (Packed Bytes) :=
  let cells := placedTexts bm vs
  (uniques 65535 cells).map fun u => .dict u (decide (u.length ≤ 256)) (cells.map u.idxOf)

def deltaGo (bm : Option Bytes) (prev : Int64) : Nat → List Int64 → Option (List Int32)
  | _, [] => some []
  | i, v :: vs =>
    if nullBit bm i then (deltaGo bm prev (i + 1) vs).map (0 :: ·)
    else if deltaFits (v - prev) then (deltaGo bm v (i + 1) vs).map ((v - prev).toInt32 :: ·) else none

/-- `compress_col_delta`; `none` is its -1. -/
def compressDelta (bm : Option Bytes) (vs : List Int64) : Option Payload :=
  match present bm vs with
  | [] => some (.delta 0 [])
  | first :: _ => (deltaGo bm first 0 vs).map (.delta first)

/-- The switch of `compress_col`: outside, a run that is not defined; inside, -1. -/
def compressPayload (values : Values) (bm : Option Bytes) (type : ColType) : Encoding → Option (Option Payload)
  | .rle => match type, values with
    | .int64, .nums vs | .bool, .nums vs => (compressRle (placedNums bm vs)).map fun p => some (.nums p)
    | .text, .texts vs => (compressRle (placedTexts bm vs)).map fun p => some (.texts p)
    | _, _ => some none
  | .dict => match type, values with
    | .int64, .nums vs | .bool, .nums vs => some ((compressDictInt bm vs).map .nums)
    | .text, .texts vs => some ((compressDictText bm vs).map .texts)
    | _, _ => some none
  | .delta => match type, values with
    | .int64, .nums vs => some (compressDelta bm vs)
    | _, _ => some none
  | .plain => some none

/-- `compress_col`: the null bitmap is copied, a failed encoding falls back to PLAIN. -/
def compressCol (col : Column) (nrows : Nat) (type : ColType) (enc : Encoding) : Option CompressedCol := do
  if col.nullBitmap.isSome ∧ 2 ^ 31 ≤ nrows + 7 then none
  let payload ← compressPayload col.values col.nullBitmap type enc
  some {
    colType := type.code, nrows := nrows
    nullBitmap := col.nullBitmap.map (·.take (nullBmBytes nrows))
    payload := payload.getD (.plain col.values) }

def compressTyped (nrows : Nat) (p : ColType × Column) : Option CompressedCol :=
  compressCol p.2 nrows p.1 (chooseEncoding p.2.values p.2.nullBitmap nrows p.1)

def ColBatch.typed (b : ColBatch) : List (ColType × Column) := b.cols.mapIdx fun c col => (typeOf b.schema c,col)

/-- `compress_batch`. -/
def compressBatch (b : ColBatch) : Option CompressedBatch :=
  (b.typed.mapM (compressTyped b.nrows)).map fun cols =>
    { schema := b.schema, ncols := b.ncols, nrows := b.nrows, cols := cols }

/-! ### Unpacking -/

/-- A code with no entry only stands for a NULL cell; the value read there is not used. -/
def Packed.unpack {α : Type} [Inhabited α] : Packed α → List α
  | .rle runs => expand runs
  | .dict values _ codes => codes.map fun k => values.getD k default

def undelta (bm : Option Bytes) (cur : Int64) : Nat → List Int32 → List Int64
  | _, [] => []
  | i, d :: ds =>
    if nullBit bm i then 0 :: undelta bm cur (i + 1) ds
    else (cur + d.toInt64) :: undelta bm (cur + d.toInt64) (i + 1) ds

def Payload.unpack (bm : Option Bytes) (nrows : Nat) : Payload → Values
  | .plain vs => vs
  | .nums p => .nums p.unpack
  | .texts p => .texts (p.unpack.map some)
  | .delta base deltas => .nums (undelta bm base 0 (if deltas = [] then List.replicate nrows 0 else deltas))
  | .other _ => .null

/-- `decompress_col`. -/
def decompressCol (c : CompressedCol) : Column where
  nullBitmap := c.nullBitmap.map (·.take (nullBmBytes c.nrows))
  values := c.payload.unpack c.nullBitmap c.nrows

/-- `decompress_batch`. -/
def decompressBatch (cb : CompressedBatch) : ColBatch where
  schema := cb.schema
  ncols := cb.ncols
  nrows := cb.nrows
  cols := cb.cols.map decompressCol

/-! ### Layout -/

def dcmb : Bytes := ascii "DCMB"

def wr64 (v : Int64) : Bytes := leBytes 8 v.toUInt64.toNat

/-- The length is cut to 32 bits, and as many bytes follow as the cut length says. -/
def wrText (s : Bytes) : Bytes := leBytes 4 (s.length % 2 ^ 32) ++ s.take (s.length % 2 ^ 32)

def Payload.enc : Payload → UInt8
  | .plain _ => 0
  | .nums (.rle _) | .texts (.rle _) => 1
  | .nums (.dict ..) | .texts (.dict ..) => 2
  | .delta .. => 3
  | .other enc => enc

def wrPacked {α : Type} (w : α → Bytes) : Packed α → Bytes
  | .rle runs => leBytes 4 runs.length ++ runs.flatMap fun r => leBytes 2 r.1 ++ w r.2
  | .dict values isU8 codes => leBytes 4 values.length ++ (leBytes 1 isU8.toNat ++
      (values.flatMap w ++ codes.flatMap (leBytes (if isU8 then 1 else 2))))

/-- `nrows * 8` is computed in `int`. -/
def wrPayload (nrows : Nat) : Payload → Option Bytes
  | .plain (.nums xs) => if 2 ^ 31 ≤ nrows * 8 then none else some (leBytes 4 (nrows * 8) ++ xs.flatMap wr64)
  | .plain (.texts xs) => some (xs.flatMap fun s => wrText (s.getD []))
  | .plain .null => some []
  | .nums p => some (wrPacked wr64 p)
  | .texts p => some (wrPacked wrText p)
  | .delta base ds => some (wr64 base ++ ds.flatMap fun d => leBytes 4 d.toUInt32.toNat)
  | .other _ => some []

def wrNulls : Option Bytes → Bytes
  | none => leBytes 1 0
  | some bm => leBytes 1 1 ++ (leBytes 4 bm.length ++ bm)

def wrCol (c : CompressedCol) : Option Bytes :=
  (wrPayload c.nrows c.payload).map fun data => [c.colType,c.payload.enc] ++ (wrNulls c.nullBitmap ++ data)

def wrHeader (ncols nrows : Nat) : Bytes := dcmb ++ (leBytes 1 1 ++ (leBytes 4 ncols ++ leBytes 4 nrows))

/-- `compressed_batch_serialize`. -/
def serialize (cb : CompressedBatch) : Option Bytes :=
  (cb.cols.mapM wrCol).map fun cols => wrHeader cb.ncols cb.nrows ++ cols.flatten

/-! ### Reader -/

def rd64 : Reader Int64 := (fun v => (UInt64.ofNat v).toInt64) <$> rdLe 8

/-- `arena_alloc(a,sl+1)` has 32-bit room: the longest length wraps to an empty array. -/
def rdText : Reader Bytes := do
  let sl ← rdLe 4
  if sl + 1 = 2 ^ 32 then fun _ => none else rdBytes sl

/-- Bytes copied as they are into an array of 8-byte words. -/
def words : Bytes → List Int64
  | a :: b :: c :: d :: e :: f :: g :: h :: rest =>
    (UInt64.ofNat (leValue [a,b,c,d,e,f,g,h])).toInt64 :: words rest
  | _ => []

def rdRle {α : Type} (r : Reader α) : Reader (Packed α) := do
  let nruns ← rdLe 4
  let runs ← rdMany (do let n ← rdLe 2; let v ← r; pure (n,v)) nruns
  pure (.rle runs)

/-- The cursor moves on by `nrows*2` computed in `int`. -/
def rdDict {α : Type} (r : Reader α) (nrows : Nat) : Reader (Packed α) := do
  let size ← rdLe 4
  let isU8 ← rdLe 1
  let values ← rdMany r size
  if isU8 = 0 ∧ 2 ^ 31 ≤ nrows * 2 then fun _ => none
  else do
    let codes ← rdMany (rdLe (if isU8 = 0 then 2 else 1)) nrows
    pure (.dict values (decide (isU8 ≠ 0)) codes)

/-- `col_type` is INT64 or BOOL. -/
def isInt (t : UInt8) : Bool := t = 0 ∨ t = 3

def rdPayload (t enc : UInt8) (nrows : Nat) : Reader Payload :=
  if enc = 0 then
    if isInt t ∨ t = 1 then do
      let dl ← rdLe 4
      let raw ← rdBytes dl
      pure (.plain (.nums (words raw)))
    else (fun xs => .plain (.texts (xs.map some))) <$> rdMany rdText nrows
  else if enc = 1 then if isInt t then .nums <$> rdRle rd64 else .texts <$> rdRle rdText
  else if enc = 2 then if isInt t then .nums <$> rdDict rd64 nrows else .texts <$> rdDict rdText nrows
  else if enc = 3 then do
    let base ← rd64
    let deltas ← rdMany ((fun v => (UInt32.ofNat v).toInt32) <$> rdLe 4) nrows
    pure (.delta base deltas)
  else pure (.other enc)

def rdNulls : Reader (Option Bytes) := do
  let has ← rdLe 1
  if has = 0 then pure none else some <$> (rdLe 4 >>= rdBytes)

def rdCol (nrows : Nat) : Reader CompressedCol := do
  let head ← rdBytes 2
  let nulls ← rdNulls
  let payload ← rdPayload (head.getD 0 0) (head.getD 1 0) nrows
  pure { colType := head.getD 0 0, nrows := nrows, nullBitmap := nulls, payload := payload }

/-- `compressed_batch_deserialize` on the bytes from the cursor on; the schema is not stored. -/
def rdBatch : Reader CompressedBatch := do
  let magic ← rdBytes 4
  if magic ≠ dcmb then fun _ => none
  else do
    let _ver ← rdLe 1
    let ncols ← rdLe 4
    let nrows ← rdLe 4
    -- both are read back as `int`
    if maxCols < ncols ∨ 2 ^ 31 ≤ nrows then fun _ => none
    else do
      let cols ← rdWhile (rdCol nrows) ncols
      pure { schema := none, ncols := ncols, nrows := nrows, cols := cols }

def deserialize (data : Bytes) : Option CompressedBatch :=
  if data.length < 14 then none else (rdBatch data).map (·.1)

/-- The whole way of a batch through the log. -/
def reread (b : ColBatch) : Option ColBatch := do
  let cb ← compressBatch b
  let data ← serialize cb
  let cb' ← deserialize data
  some (decompressBatch cb')

end Napastak.Store
