import Napastak.CompressExact
import Mathlib.Algebra.Order.BigOperators.Group.List

/-! The buffer of `compressed_batch_serialize`: what `ser_estimate` asks for, and what is written into it. -/
namespace Napastak.Store
open Codec Rle Dict

/-! ### The estimate -/

/-- The switch for RLE and DICT, where a value takes `each` bytes. -/
def estimatePacked {α : Type} (each : α → Nat) (nrows : Nat) : Packed α → Nat
  | .rle runs => 4 + (runs.map fun r => 2 + each r.2).sum
  | .dict values isU8 _ => 4 + 1 + (values.map each).sum + nrows * if isU8 then 1 else 2

def estimatePayload (t : UInt8) (nrows : Nat) : Payload → Nat
  | .plain vs =>
    if isInt t ∨ t = 1 then 4 + nrows * 8
    else match vs with
      | .texts xs => (xs.map fun s => 4 + (s.getD []).length).sum
      | _ => nrows * 4
  | .nums p => estimatePacked (fun _ => 8) nrows p
  | .texts p => estimatePacked (fun s => 4 + s.length) nrows p
  | .delta _ _ => 8 + nrows * 4
  | .other _ => 0

def estimateCol (c : CompressedCol) : Nat :=
  3 + (if c.nullBitmap.isSome then 4 + nullBmBytes c.nrows else 0) + estimatePayload c.colType c.nrows c.payload

/-- `ser_estimate`, as the exact sum. -/
def serEstimate (cb : CompressedBatch) : Nat := 14 + (cb.cols.map estimateCol).sum + 64

/-! ### The writer -/

/-- With an `int` that wraps around in `nrows * 8`. -/
def writtenPayload (nrows : Nat) : Payload → Bytes
  | .plain (.nums xs) => leBytes 4 (nrows * 8) ++ xs.flatMap wr64
  | p => (wrPayload nrows p).getD []

def writtenCol (c : CompressedCol) : Bytes :=
  [c.colType,c.payload.enc] ++ (wrNulls c.nullBitmap ++ writtenPayload c.nrows c.payload)

def wrBatch (cb : CompressedBatch) : Bytes := wrHeader cb.ncols cb.nrows ++ cb.cols.flatMap writtenCol

theorem writtenPayloadIs {nrows : Nat} {p : Payload} {data : Bytes} (wr : wrPayload nrows p = some data) :
    writtenPayload nrows p = data := by
  cases p with
  | plain vs =>
    cases vs with
    | nums xs =>
      rw [wrPayload] at wr
      split at wr
      · cases wr
      · exact Option.some.inj wr
    | null | texts _ => rw [writtenPayload,wr,Option.getD_some]; rintro _ ⟨⟩
  | nums _ | texts _ | delta _ _ | other _ => rw [writtenPayload,wr,Option.getD_some]; rintro _ ⟨⟩

theorem writtenIs {cb : CompressedBatch} {data : Bytes} (wr : serialize cb = some data) : wrBatch cb = data := by
  obtain ⟨css,hcss,rfl⟩ := Option.map_eq_some_iff.mp wr
  have same : ∀ c bs, wrCol c = some bs → writtenCol c = bs := fun c bs h => by
    obtain ⟨data,hd,rfl⟩ := Option.map_eq_some_iff.mp h
    rw [writtenCol,writtenPayloadIs hd]
  have all : ∀ {cs : List CompressedCol} {css}, List.Forall₂ (fun c bs => wrCol c = some bs) cs css →
      cs.flatMap writtenCol = css.flatten := fun each => by
    induction each with
    | nil => rfl
    | cons one _ ih => rw [List.flatMap_cons,List.flatten_cons,same _ _ one,ih]
  rw [wrBatch,all (mapMSome.mp hcss)]

/-! ### What `compress_batch` builds -/

/-- A second pass of RLE past the arrays of the first: what they hold then is not known, their number is the first pass's. -/
inductive Overran (bm : Option Bytes) : Values → ColType → Payload → Prop
  | nums {xs : List Int64} {t : ColType} {runs : List (Nat × Int64)} (int : isInt t.code = true)
    (past : compressRle (placedNums bm xs) = none) (count : runs.length = countRuns (placedNums bm xs)) :
    Overran bm (.nums xs) t (.nums (.rle runs))
  | texts {xs : List (Option Bytes)} {runs : List (Nat × Bytes)} (past : compressRle (placedTexts bm xs) = none)
    (count : runs.length = countRuns (placedTexts bm xs)) : Overran bm (.texts xs) .text (.texts (.rle runs))

/-- `c` is what a column is compressed to. -/
def Compressed (nrows : Nat) (p : ColType × Column) (c : CompressedCol) : Prop :=
  compressTyped nrows p = some c ∨
    chooseEncoding p.2.values p.2.nullBitmap nrows p.1 = .rle ∧ ∃ payload, Overran p.2.nullBitmap p.2.values p.1 payload ∧
      c = ⟨p.1.code,nrows,p.2.nullBitmap.map (·.take (nullBmBytes nrows)),payload⟩

/-- `cb` is what `compress_batch` builds from `b`. -/
structure Built (b : ColBatch) (cb : CompressedBatch) : Prop where
  schema : cb.schema = b.schema
  ncols : cb.ncols = b.ncols
  nrows : cb.nrows = b.nrows
  cols : List.Forall₂ (Compressed b.nrows) b.typed cb.cols

theorem compressedBuilt {b : ColBatch} {cb : CompressedBatch} (h : compressBatch b = some cb) : Built b cb := by
  obtain ⟨cols,hcols,rfl⟩ := Option.map_eq_some_iff.mp h
  exact ⟨rfl,rfl,rfl,(mapMSome.mp hcols).imp fun _ _ one => Or.inl one⟩

/-- The sizes that the estimate takes from the row count. -/
def Packed.Sized {α : Type} (nrows : Nat) : Packed α → Prop
  | .rle _ => True
  | .dict _ _ codes => codes.length = nrows

def Payload.Sized (t : UInt8) (nrows : Nat) : Payload → Prop
  | .plain (.nums xs) => (isInt t = true ∨ t = 1) ∧ xs.length = nrows
  | .plain (.texts _) => ¬(isInt t = true ∨ t = 1)
  | .nums p => p.Sized nrows
  | .texts p => p.Sized nrows
  | _ => False

theorem packedSized {α : Type} {nrows : Nat} {p : Packed α} (sound : p.Sound nrows) : p.Sized nrows := by
  cases p with
  | rle _ => trivial
  | dict _ _ _ => exact sound.2.1

theorem soundSized {nrows : Nat} {t : ColType} {p : Payload} (sound : p.Sound nrows t) : p.Sized t.code nrows := by
  cases p with
  | plain vs =>
    cases vs with
    | null => exact sound.elim
    | nums xs => exact ⟨by cases t <;> simp_all [Payload.Sound,isInt,ColType.code,ColType.isTextual],sound.2⟩
    | texts xs =>
      have kind := sound.1
      show ¬(isInt t.code = true ∨ t.code = 1)
      cases t <;> simp_all [isInt,ColType.code,ColType.isTextual]
  | nums p => exact packedSized sound.2
  | texts p => exact packedSized sound.2
  | delta _ _ => exact sound.elim
  | other _ => exact sound.elim

theorem compressedSized {nrows : Nat} {t : ColType} {col : Column} {c : CompressedCol} (fits : col.Fits nrows t)
    (rows : nrows < 2 ^ 31) (h : Compressed nrows (t,col) c) :
    c.payload.Sized c.colType c.nrows ∧ ∀ bs, c.nullBitmap = some bs → bs.length ≤ nullBmBytes c.nrows := by
  have cut : ∀ bs, (col.nullBitmap.map (·.take (nullBmBytes nrows))) = some bs → bs.length ≤ nullBmBytes nrows := fun bs is => by
    obtain ⟨bm,_,rfl⟩ := Option.map_eq_some_iff.mp is
    exact List.length_take_le _ _
  rcases h with whole | ⟨_,payload,past,rfl⟩
  · obtain ⟨same,sound⟩ := colSound fits rows whole
    obtain ⟨_,_,_,rfl⟩ := compressTypedIs.mp whole
    exact ⟨soundSized sound.payload,cut⟩
  · refine ⟨?_,cut⟩
    generalize col.values = values at past
    cases past <;> trivial

/-! ### The bound -/

theorem textRoom (s : Bytes) : (wrText s).length ≤ 4 + s.length := by
  rw [wrText,List.length_append,leBytesLength]
  exact Nat.add_le_add_left (List.length_take_le' _ _) 4

theorem numRoom (v : Int64) : (wr64 v).length ≤ 8 := by rw [wr64,leBytesLength]

theorem packedRoom {α : Type} {w : α → Bytes} {each : α → Nat} (less : ∀ x, (w x).length ≤ each x) {nrows : Nat} {p : Packed α}
    (sized : p.Sized nrows) : (wrPacked w p).length ≤ estimatePacked each nrows p := by
  cases p with
  | rle runs =>
    have runsLess := List.sum_le_sum fun (r : Nat × α) (_ : r ∈ runs) => Nat.add_le_add_left (less r.2) 2
    simpa only [wrPacked,estimatePacked,List.length_append,List.length_flatMap,leBytesLength,Nat.add_le_add_iff_left] using runsLess
  | dict values isU8 codes =>
    have valuesLess := List.sum_le_sum fun (x : α) (_ : x ∈ values) => less x
    obtain rfl : codes.length = nrows := sized
    have codesSame : (codes.flatMap (leBytes (if isU8 then 1 else 2))).length = codes.length * if isU8 then 1 else 2 := by
      rw [List.length_flatMap,funext fun k => leBytesLength _ k,List.map_const',List.sum_replicate_nat]
    simp only [wrPacked,estimatePacked,List.length_append,codesSame,List.length_flatMap,leBytesLength]
    omega

theorem payloadRoom {t : UInt8} {nrows : Nat} {p : Payload} (sized : p.Sized t nrows) :
    (writtenPayload nrows p).length ≤ estimatePayload t nrows p := by
  cases p with
  | plain vs =>
    cases vs with
    | null => exact sized.elim
    | nums xs =>
      obtain ⟨kind,rfl⟩ := sized
      simp only [writtenPayload,estimatePayload,if_pos kind,List.length_append,leBytesLength,List.length_flatMap,wr64,List.map_const',
        List.sum_replicate_nat]
      exact Nat.le_refl _
    | texts xs =>
      have cells := List.sum_le_sum fun (s : Option Bytes) (_ : s ∈ xs) => textRoom (s.getD [])
      simpa only [writtenPayload,wrPayload,Option.getD_some,estimatePayload,if_neg sized,List.length_flatMap] using cells
  | nums p => exact packedRoom numRoom sized
  | texts p => exact packedRoom textRoom sized
  | delta _ _ => exact sized.elim
  | other _ => exact sized.elim

theorem colRoom {c : CompressedCol} (sized : c.payload.Sized c.colType c.nrows)
    (bits : ∀ bs, c.nullBitmap = some bs → bs.length ≤ nullBmBytes c.nrows) : (writtenCol c).length ≤ estimateCol c := by
  have payload := payloadRoom sized
  have nulls : (wrNulls c.nullBitmap).length ≤ 1 + if c.nullBitmap.isSome then 4 + nullBmBytes c.nrows else 0 := by
    cases is : c.nullBitmap with
    | none => exact Nat.le_of_eq (leBytesLength 1 0)
    | some bs =>
      have := bits bs is
      simp only [wrNulls,List.length_append,leBytesLength,Option.isSome_some,if_true]
      omega
  simp only [writtenCol,estimateCol,List.length_append,List.length_cons,List.length_nil]
  omega

/-- The writer stays within the estimate, whatever `compress_batch` has built. -/
theorem writesWithin {b : ColBatch} {cb : CompressedBatch} (rows : b.nrows < 2 ^ 31)
    (fits : ∀ (c : Nat) (col : Column), b.cols[c]? = some col → col.Fits b.nrows (typeOf b.schema c)) (built : Built b cb) :
    (wrBatch cb).length ≤ serEstimate cb ∧ ∀ data, serialize cb = some data → data.length ≤ serEstimate cb := by
  have cols : (cb.cols.flatMap writtenCol).length ≤ (cb.cols.map estimateCol).sum := by
    rw [List.length_flatMap]
    refine List.sum_le_sum fun c mem => ?_
    obtain ⟨p,hp,comp⟩ := partner built.cols mem
    have fit := typedAll (q := fun p => p.2.Fits b.nrows p.1) |>.mpr fits p hp
    obtain ⟨sized,bits⟩ := compressedSized fit rows comp
    exact colRoom sized bits
  have header : (wrHeader cb.ncols cb.nrows).length = 13 := by
    simp only [wrHeader,List.length_append,leBytesLength]
    rfl
  have whole : (wrBatch cb).length ≤ serEstimate cb := by
    rw [wrBatch,serEstimate,List.length_append,header]
    omega
  exact ⟨whole,fun data wr => writtenIs wr ▸ whole⟩

/-- A column of two numbers with a NULL bitmap and a column of texts. -/
theorem writesWithinTwoTexts : ∃ cb, compressBatch twoTexts = some cb ∧ (wrBatch cb).length ≤ serEstimate cb := by
  obtain ⟨cb,built⟩ := Option.isSome_iff_exists.mp (show (compressBatch twoTexts).isSome = true by decide)
  exact ⟨cb,built,(writesWithin twoTextsWf.rows twoTextsWf.fits (compressedBuilt built)).1⟩

end Napastak.Store
