import Napastak.Lib.Codec
import Napastak.Stream
import Napastak.Thrift

/-! `parquet_connector.c`: the rows of a range read from the pages of a column chunk. Decompression is a parameter: what is in the output
buffer of so many bytes, none on failure. -/
namespace Napastak.Parquet
open Codec Thrift
open Store (cstr)

/-! ### Headers of pages -/

def pqUncomp : Int := 0
def pqSnappy : Int := 1
def pqGzip : Int := 2

def pqDataPage : Int := 0
def pqDictPage : Int := 2
def pqDataV2 : Int := 3

structure PageHdr where
  pageType : Int := 0
  uncompressedSize : Int := 0
  compressedSize : Int := 0
  numValues : Int := 0
  encoding : Int := 0
  defEnc : Int := 0
  defBytes : Int := 0
  repBytes : Int := 0
  v2Compressed : Bool := true
  hdrBytes : Nat := 0
  deriving DecidableEq

section
variable (n : Nat)

def intField (set : Int → PageHdr) (b : TBuf) : Except Halt (PageHdr × TBuf) :=
  let (v,b) := tcI b
  .ok (set (asInt v),b)

def skipField (ft : Nat) (ph : PageHdr) (b : TBuf) : Except Halt (PageHdr × TBuf) := (tcSkip wrap n b ft).map fun b => (ph,b)

/-- A field of `DataPageHeader`. -/
def dataPageField (fid : Int) (ft : Nat) (ph : PageHdr) (b : TBuf) : Except Halt (PageHdr × TBuf) :=
  if fid = 1 then intField (fun v => {ph with numValues := v}) b
  else if fid = 2 then intField (fun v => {ph with encoding := v}) b
  else if fid = 3 then intField (fun v => {ph with defEnc := v}) b
  else skipField n ft ph b

/-- A field of `DataPageHeaderV2`. -/
def dataPageV2Field (fid : Int) (ft : Nat) (ph : PageHdr) (b : TBuf) : Except Halt (PageHdr × TBuf) :=
  if fid = 1 then intField (fun v => {ph with numValues := v}) b
  else if fid = 4 then intField (fun v => {ph with encoding := v}) b
  else if fid = 5 then intField (fun v => {ph with defBytes := v}) b
  else if fid = 6 then intField (fun v => {ph with repBytes := v}) b
  else if fid = 7 then .ok ({ph with v2Compressed := ft = 1},b)
  else skipField n ft ph b

/-- A field of `DictionaryPageHeader`. -/
def dictPageField (fid : Int) (ft : Nat) (ph : PageHdr) (b : TBuf) : Except Halt (PageHdr × TBuf) :=
  if fid = 1 then intField (fun v => {ph with numValues := v}) b
  else if fid = 2 then intField (fun v => {ph with encoding := v}) b
  else skipField n ft ph b

def pageField (fid : Int) (ft : Nat) (ph : PageHdr) (b : TBuf) : Except Halt (PageHdr × TBuf) :=
  if fid = 1 then intField (fun v => {ph with pageType := v}) b
  else if fid = 2 then intField (fun v => {ph with uncompressedSize := v}) b
  else if fid = 3 then intField (fun v => {ph with compressedSize := v}) b
  else if fid = 4 then intField (fun _ => ph) b
  else if fid = 5 then tcFields dataPageField n 0 ph b
  else if fid = 7 then tcFields dataPageV2Field n 0 ph b
  else if fid = 8 then tcFields dictPageField n 0 ph b
  else skipField n ft ph b

/-- `pq_parse_page_hdr` on the bytes from the page on. -/
def pqParsePageHdr (d : Bytes) : Option PageHdr :=
  (tcFields pageField n 0 {} ⟨d,0⟩).toOption.map fun (ph,b) => {ph with hdrBytes := b.pos}

end

/-! ### Levels and indices -/

def bitAt (p : Bytes) (i : Nat) : Nat := ((p[i / 8]?.getD 0).toNat >>> (i % 8)) % 2

/-- `(int)(hdr >> 1)`, which counts nothing when it is negative. -/
def runCount (hdr : Nat) : Nat := (asInt (hdr / 2 : Nat)).toNat

def runValue (vb : Nat) (s : Bytes) : Nat × Bytes := (leValue (s.take vb) % 2 ^ 32,s.drop vb)

/-- The bytes of bit-packed groups of `rle_bp_dec`, one byte for each, no more than `nmax` values. -/
def bpGroups (bw : Nat) : Nat → Nat → Bytes → List Nat × Bytes
  | 0, _, s => ([],s)
  | _ + 1, _, [] => ([],[])
  | g + 1, nmax, c :: s =>
    if nmax = 0 then ([],c :: s)
    else
      let vs := ((List.range 8).map fun v => (c.toNat >>> (v * bw)) % 2 ^ bw).take nmax
      let rest := bpGroups bw g (nmax - vs.length) s
      (vs ++ rest.1,rest.2)

/-- The rounds of `rle_bp_dec`, each of which takes a byte at least. -/
def rleBpGo (bw : Nat) : Nat → Nat → Bytes → List Nat
  | 0, _, _ => []
  | fuel + 1, nmax, s =>
    if s = [] ∨ nmax = 0 then []
    else
      let hdr := (uvBytes s 0 0).1
      let s := s.drop (uvBytes s 0 0).2
      if hdr = 0 then []
      else if hdr % 2 = 1 then
        let run := bpGroups bw (runCount hdr) nmax s
        run.1 ++ rleBpGo bw fuel (nmax - run.1.length) run.2
      else
        let val := runValue ((bw + 7) / 8) s
        let vs := List.replicate (min (runCount hdr) nmax) (val.1 % 256)
        vs ++ rleBpGo bw fuel (nmax - vs.length) val.2

/-- The levels that are decoded, `nmax` at most; the bytes behind them in `out` stay as they are. -/
def rleBpDec (data : Bytes) (bw nmax : Nat) : List Nat := rleBpGo bw data.length nmax data

def groupValues (bw : Nat) (gp : Bytes) : List Nat :=
  (List.range 8).map fun v => (List.range bw).foldl (fun val k => val ||| bitAt gp (v * bw + k) <<< k) 0

def dictGroups (bw : Nat) : Nat → Nat → Bytes → List Nat × Bytes
  | 0, _, s => ([],s)
  | g + 1, nmax, s =>
    if nmax = 0 then ([],s)
    else if s.length < bw then ([],[])
    else
      let vs := (groupValues bw (s.take bw)).take nmax
      let rest := dictGroups bw g (nmax - vs.length) (s.drop bw)
      (vs ++ rest.1,rest.2)

def rleDictGo (bw : Nat) : Nat → Nat → Bytes → List Nat
  | 0, _, _ => []
  | fuel + 1, nmax, s =>
    if s = [] ∨ nmax = 0 then []
    else
      let hdr := (uvBytes s 0 0).1
      let s := s.drop (uvBytes s 0 0).2
      if hdr % 2 = 1 then
        let run := dictGroups bw (runCount hdr) nmax s
        run.1 ++ rleDictGo bw fuel (nmax - run.1.length) run.2
      else
        let val := runValue ((bw + 7) / 8) s
        let vs := List.replicate (min (runCount hdr) nmax) val.1
        vs ++ rleDictGo bw fuel (nmax - vs.length) val.2

/-- An index is the 32 bits of an `int32_t`; a negative one is past every dictionary. -/
def rleDictDec (data : Bytes) (bw nmax : Nat) : List Nat :=
  if bw = 0 then List.replicate nmax 0 else rleDictGo bw data.length nmax data

/-! ### Values -/

inductive PqType
  | boolean | int32 | int64 | int96 | float | double | byteArray | other
  deriving DecidableEq, Repr

/-- A cell of a batch; a floating-point number stands as its bits, of 32 or of 64. -/
inductive Cell
  | int (v : Int)
  | float (bits : Nat)
  | double (bits : Nat)
  | text (s : Bytes)
  deriving DecidableEq, Repr

/-- What a place of a batch holds behind the read; `unset` where nothing is written. -/
inductive Slot
  | null
  | cell (c : Cell)
  | unset
  deriving DecidableEq, Repr

/-- The types of a fixed width, and the cell of so many bytes. -/
def PqType.fixed : PqType → Option (Nat × (Bytes → Cell))
  | .int32 => some (4,fun b => .int (Int.bmod (leValue b) (2 ^ 32)))
  | .int64 => some (8,fun b => .int (Int.bmod (leValue b) (2 ^ 64)))
  | .int96 => some (12,fun b => .int (Int.bmod (leValue (b.take 8)) (2 ^ 64)))
  | .float => some (4,fun b => .float (leValue b))
  | .double => some (8,fun b => .double (leValue b))
  | _ => none

def skipTexts : Nat → Bytes → Bytes
  | 0, p => p
  | n + 1, p => if p.length < 4 then p else skipTexts n ((p.drop 4).drop (leValue (p.take 4)))

def skipPlain (ty : PqType) (n : Nat) (p : Bytes) : Bytes :=
  if n = 0 then p
  else
    match ty.fixed with
    | some (w,_) => p.drop (w * n)
    | none => if ty = .byteArray then skipTexts n p else []

/-- `arena_strndup` copies up to a zero byte. -/
def writePlainVal (ty : PqType) (boolBit : Nat) (p : Bytes) : Slot × Bytes :=
  match ty.fixed with
  | some (w,cell) => if p.length < w then (.unset,[]) else (.cell (cell (p.take w)),p.drop w)
  | none =>
    if ty = .byteArray then
      if p.length < 4 then (.unset,[])
      else (.cell (.text (cstr ((p.drop 4).take (leValue (p.take 4))))),(p.drop 4).drop (leValue (p.take 4)))
    else if ty = .boolean then (.cell (.int (bitAt p boolBit)),p)
    else (.cell (.text []),p)

def dictEntry (ty : PqType) (q : Bytes) : Slot × Bytes :=
  match ty.fixed with
  | some (w,cell) => if q.length < w then (.unset,q) else (.cell (cell (q.take w)),q.drop w)
  | none =>
    if ty = .byteArray then
      if q.length < 4 then (.unset,q)
      else (.cell (.text (cstr ((q.drop 4).take (leValue (q.take 4))))),(q.drop 4).drop (leValue (q.take 4)))
    else (.unset,q)

def dictEntries (ty : PqType) : Nat → Bytes → List Slot
  | 0, _ => []
  | n + 1, q => if q = [] then List.replicate (n + 1) .unset else (dictEntry ty q).1 :: dictEntries ty n (dictEntry ty q).2

def writeDictVal (ty : PqType) (dict : List Slot) (di : Nat) : Slot :=
  match dict[di]? with
  | none => .null
  | some s => if ty = .other then .cell (.text []) else s

/-! ### The column -/

/-- What of the schema and the metadata a column is read by. -/
structure Column where
  dataPageOffset : Nat
  dictPageOffset : Nat
  numValues : Nat
  pqType : PqType
  codec : Int
  optional : Bool

def Column.startOff (col : Column) : Nat := if 0 < col.dictPageOffset then col.dictPageOffset else col.dataPageOffset

abbrev Decompress := Int → Bytes → Nat → Option Bytes

section
variable (decompress : Decompress) (col : Column)

/-- `PQ_LOAD_BODY`. -/
def loadBody (ph : PageHdr) (comp : Bytes) : Bytes :=
  if (col.codec = pqGzip ∨ col.codec = pqSnappy) ∧ ph.pageType ≠ pqDataV2 then
    (decompress col.codec comp ph.uncompressedSize.toNat).getD comp
  else comp

/-- The definition levels, if there are any, and what stands behind them. -/
def levels (ph : PageHdr) (body : Bytes) : Option (List Nat) × Bytes :=
  let p := if ph.pageType = pqDataV2 then body.drop ph.repBytes.toNat else body
  if col.optional = false then (none,p)
  else if ph.pageType = pqDataV2 then
    let lvls := rleBpDec (p.take ph.defBytes.toNat) 1 ph.numValues.toNat
    let p := p.drop ph.defBytes.toNat
    if col.codec ≠ pqUncomp ∧ ph.v2Compressed then
      (some lvls,(decompress col.codec p (ph.uncompressedSize - ph.defBytes - ph.repBytes).toNat).getD p)
    else (some lvls,p)
  else if p.length < 4 then (none,p)
  else
    let len := leValue (p.take 4)
    (some (rleBpDec ((p.drop 4).take len) 1 ph.numValues.toNat),(p.drop 4).drop len)

/-- The rows of a page with a value; all of them without levels. -/
def definedBy (ph : PageHdr) : Option (List Nat) → List Bool
  | some lvls => lvls.map (· ≠ 0)
  | none => List.replicate ph.numValues.toNat true

/-- The loop over the rows that are taken, by which of them are defined. -/
def plainSlots (ty : PqType) : List Bool → Nat → Bytes → List Slot
  | [], _, _ => []
  | false :: fs, bit, p => .null :: plainSlots ty fs bit p
  | true :: fs, bit, p =>
    (writePlainVal ty bit p).1 :: plainSlots ty fs (if ty = .boolean then bit + 1 else bit) (writePlainVal ty bit p).2

/-- The same loop over indices; there is none to read where the page has too few. -/
def dictSlots (ty : PqType) (dict : List Slot) : List Bool → List Nat → List Slot
  | [], _ => []
  | false :: fs, idx => .null :: dictSlots ty dict fs idx
  | true :: fs, [] => .unset :: dictSlots ty dict fs []
  | true :: fs, di :: idx => writeDictVal ty dict di :: dictSlots ty dict fs idx

/-- The rows of a page that are taken behind those that are skipped. -/
def pageSlots (dict : List Slot) (ph : PageHdr) (comp : Bytes) (skip take : Nat) : List Slot :=
  let (lvls,p) := levels decompress col ph (loadBody decompress col ph comp)
  let defined := definedBy ph lvls
  let taken := (defined.drop skip).take take
  let nnSkip := (defined.take skip).count true
  if (ph.encoding = 2 ∨ ph.encoding = 8) ∧ dict ≠ [] then
    dictSlots col.pqType dict taken ((rleDictDec (p.drop 1) (p.headD 0).toNat (defined.count true)).drop nnSkip)
  else plainSlots col.pqType taken nnSkip (skipPlain col.pqType nnSkip p)

structure ReadState where
  pos : Nat
  rowsSeen : Nat
  dict : List Slot
  out : List Slot

inductive Round
  /-- a size is negative, or the reader of a header has not come to an end -/
  | undefined
  | stop
  | next (st : ReadState)

def readPage (n : Nat) (file : Bytes) (start nrows : Nat) (st : ReadState) : Round :=
  let hdrBuf := (file.drop st.pos).take 512
  if hdrBuf = [] then .stop
  else
    match pqParsePageHdr n hdrBuf with
    | none => .undefined
    | some ph =>
      if ph.compressedSize < 0 ∨ ph.numValues < 0 then .undefined
      else
        let body := st.pos + ph.hdrBytes
        let comp := (file.drop body).take ph.compressedSize.toNat
        let whole := comp.length = ph.compressedSize.toNat
        let st := {st with pos := body + ph.compressedSize.toNat}
        let seen := st.rowsSeen + ph.numValues.toNat
        if ph.pageType = pqDictPage then
          if whole then .next {st with dict := dictEntries col.pqType ph.numValues.toNat (loadBody decompress col ph comp)} else .stop
        else if ph.pageType ≠ pqDataPage ∧ ph.pageType ≠ pqDataV2 then .next st
        else if seen ≤ start then .next {st with rowsSeen := seen}
        else if whole then
          let skip := start - st.rowsSeen
          let take := min (ph.numValues.toNat - skip) (nrows - st.out.length)
          .next {st with rowsSeen := seen, out := st.out ++ pageSlots decompress col st.dict ph comp skip take}
        else .stop

/-- At most `m` rounds. -/
def readPages (n : Nat) (file : Bytes) (start nrows : Nat) : Nat → ReadState → Option (List Slot)
  | 0, _ => none
  | m + 1, st =>
    if nrows ≤ st.out.length ∨ col.numValues ≤ st.rowsSeen then some st.out
    else
      match readPage decompress col n file start nrows st with
      | .undefined => none
      | .stop => some st.out
      | .next st => readPages n file start nrows m st

def pqReadColRange (n m : Nat) (file : Bytes) (start nrows : Nat) : Option (List Slot) :=
  if nrows = 0 then some [] else readPages decompress col n file start nrows m ⟨col.startOff,0,[],[]⟩

end

end Napastak.Parquet
