import Napastak.SplitJoin
import Napastak.Scan
import Napastak.CompressExact

/-! Rows appended by `table_append` and read back by the full scan. -/
namespace Napastak.Store
open Codec Framing

/-- Equal, or both not a number. -/
def SameDouble [Floats] (a b : Int64) : Prop := Floats.eq a b ∨ (Floats.eq a a = false ∧ Floats.eq b b = false)

/-- What the C library promises of printed doubles: 17 digits are enough, and only signs, digits, dots
and letters are printed, never the word NULL. -/
structure Floats.Lawful [Floats] : Prop where
  reads : ∀ x, SameDouble (Floats.strtod (Floats.printG 17 x)) x
  some_ : ∀ p x, Floats.printG p x ≠ []
  bytes : ∀ p x, ∀ c ∈ Floats.printG p x, 0x20 < c ∧ c ≠ comma ∧ c ≠ quote
  notNull : ∀ p x, Floats.printG p x ≠ nullText

/-- A table's batches: the table's own columns, and text without NUL bytes. -/
structure BatchFor (types : List ColType) (b : ColBatch) : Prop where
  wf : b.Wf
  schema : b.schema = some types
  ncols : b.ncols = types.length
  noNul : ∀ (c : Nat) (col : Column) (xs : List (Option Bytes)), b.cols[c]? = some col → col.values = .texts xs →
    ∀ s, some s ∈ xs → (0 : UInt8) ∉ s

/-- A cell text that a line keeps: no delimiter, quote, line end or NUL byte, and not one of the two NULLs. -/
structure Keeps (v : Bytes) : Prop where
  bare : Bare v
  noNul : (0 : UInt8) ∉ v
  notNull : v ≠ nullText
  notSentinel : v ≠ nullSentinel

theorem lldKeeps (x : Int64) : Keeps (lld x) := by
  have out : ∀ d : UInt8, d < 45 → d ∉ lld x := fun d hd h =>
    absurd (UInt8.lt_of_lt_of_le hd (lldBytes x d h).1) (UInt8.lt_irrefl d)
  refine ⟨fun c hc => ?_,out 0 (by decide),fun e => ?_,fun e => out 1 (by decide) (by rw [e]; decide)⟩
  · refine ⟨?_,?_,?_,?_⟩ <;> (rintro rfl; exact out _ (by decide) hc)
  · exact absurd (lldBytes x 78 (by rw [e]; decide)).2 (by decide)

theorem boolKeeps (v : Bool) : Keeps (boolText v) := by
  cases v
  · exact ⟨by decide,by decide,by decide,by decide⟩
  · exact ⟨by decide,by decide,by decide,by decide⟩

theorem needsQuotesFalse {v : Bytes} (h : needsQuotes v = false) : v ≠ [] ∧ v ≠ nullText ∧ Bare v := by
  simp only [needsQuotes,Bool.decide_or,Bool.or_eq_false_iff,decide_eq_false_iff_not,Bool.decide_eq_true,
    List.any_eq_false] at h
  exact ⟨h.1,h.2.1,fun c hc => by simpa using h.2.2 c hc⟩

theorem needEscFalse {b : ColBatch} {r c : Nat} {col : Column} {xs : List (Option Bytes)} (h : needEsc b r = false)
    (schema : b.schema.isSome) (lt : c < b.ncols) (at_ : b.cols[c]? = some col) (nn : nullBit col.nullBitmap r = false)
    (t : typeOf b.schema c = .text) (vs : col.values = .texts xs) {v : Bytes} (hv : xs.getD r none = some v) :
    needsQuotes v = false := by
  simp only [needEsc,schema,Bool.true_and,List.any_eq_false,List.mem_range] at h
  have := h c lt
  simp only [at_,nn,t,vs,hv,Bool.not_false,Bool.true_and,Option.map_some,Option.getD_some] at this
  simpa using this

theorem cellMem {xs : List (Option Bytes)} {r : Nat} (h : r < xs.length) {v : Bytes} (e : xs.getD r none = some v) :
    some v ∈ xs := by
  rw [List.getD_eq_getElem?_getD,List.getElem?_eq_getElem h] at e
  exact e ▸ List.getElem_mem _

theorem BatchFor.column {types : List ColType} {b : ColBatch} (for_ : BatchFor types b) {c : Nat} {col : Column} (at_ : b.cols[c]? = some col) :
    c < b.ncols ∧ col.Fits b.nrows (typeOf b.schema c) := by
  refine ⟨for_.wf.count ▸ ?_,for_.wf.fits c col at_⟩
  exact (List.getElem?_eq_some_iff.mp at_).1

theorem columnAt {types : List ColType} {b : ColBatch} (for_ : BatchFor types b) {c : Nat} (h : c < b.ncols) : ∃ col, b.cols[c]? = some col :=
  ⟨_,List.getElem?_eq_getElem (for_.wf.count.symm ▸ h)⟩

theorem readBackTexts {nrows n : Nat} {bm : Option Bytes} {p p' : Payload} (h : p.readBack nrows = some p')
    {ys : List (Option Bytes)} (is : p'.unpack bm n = .texts ys) : none ∉ ys := by
  cases p with
  | plain vs =>
    cases vs with
    | texts xs =>
      obtain ⟨zs,_,rfl⟩ := Option.map_eq_some_iff.mp h
      cases is; simp
    | null => cases h; cases is
    | nums xs => cases h; cases is
  | nums q => obtain ⟨_,_,rfl⟩ := Option.map_eq_some_iff.mp h; cases is
  | texts q => obtain ⟨_,_,rfl⟩ := Option.map_eq_some_iff.mp h; cases is; simp
  | delta base ds => cases h; cases is
  | other e => cases h; cases is

/-- Every text of a batch read back is there. -/
theorem rereadTexts {b b' : ColBatch} (wf : b.Wf) (h : reread b = some b') {c : Nat} {col : Column}
    (at_ : b'.cols[c]? = some col) {ys : List (Option Bytes)} (is : col.values = .texts ys) : none ∉ ys := by
  obtain ⟨ccs,through,rfl⟩ := (rereadIff wf).mp h
  simp only [decompressBatch,List.getElem?_map,Option.map_eq_some_iff] at at_
  obtain ⟨cc',hcc,rfl⟩ := at_
  obtain ⟨lt,e⟩ := List.getElem?_eq_some_iff.mp hcc
  obtain ⟨cc,_,_,_,back⟩ := through.get (through.length_eq ▸ lt) lt
  simp only [List.get_eq_getElem,e] at back
  obtain ⟨p',hp,rfl⟩ := Option.map_eq_some_iff.mp back
  exact readBackTexts hp is

section
variable [Floats]

/-- What a scanned cell says of the value appended: NULL for NULL, else the value as its type is written. -/
def Carried (t : ColType) (col : Column) (r : Nat) (cell : Bytes) : Prop :=
  if nullBit col.nullBitmap r then cell = nullSentinel
  else cell ≠ nullSentinel ∧ match t, col.values with
    | .int64, .nums xs => cell = lld (xs.getD r 0)
    | .double, .nums xs => SameDouble (Floats.strtod cell) (xs.getD r 0)
    | .bool, .nums xs => cell = boolText (xs.getD r 0 ≠ 0)
    | _, .texts xs => cell = (xs.getD r none).getD []
    | _, _ => False

/-- The scanned row is row `r` of the batch. -/
def RowCarried (p : ColBatch × Nat) (row : Row) : Prop :=
  row.length = p.1.ncols ∧ ∀ (c : Nat) (col : Column) (cell : Bytes), p.1.cols[c]? = some col → row[c]? = some cell →
    Carried (typeOf p.1.schema c) col p.2 cell

/-- Which cells survive an unquoted line: not DECIMAL, DATE, TIMESTAMP or NULL ones with a text, not
the text that stands for NULL, and a BOOL only if the `int` view of the array agrees. -/
def PlainCellReads (t : ColType) (col : Column) (r : Nat) : Prop :=
  nullBit col.nullBitmap r = false → match t, col.values with
    | .bool, .nums xs => intAt xs r ≠ 0 ↔ xs.getD r 0 ≠ 0
    | .text, .texts xs => (xs.getD r none).getD [] ≠ nullSentinel
    | _, .texts xs => (xs.getD r none).getD [] = []
    | _, _ => True

/-- Which cells survive an escaped line: texts other than TEXT are written as they stand. -/
def EscCellReads (t : ColType) (col : Column) (r : Nat) : Prop :=
  nullBit col.nullBitmap r = false → match t, col.values with
    | .text, .texts xs => (xs.getD r none).getD [] ≠ nullSentinel
    | _, .texts xs =>
      let v := (xs.getD r none).getD []
      v ≠ nullSentinel ∧ v ≠ nullText ∧ Bare v
    | _, _ => True

def plainLine (b : ColBatch) (r : Nat) : Bytes := joinCells ((List.range b.ncols).map (plainCell b r))

/-- Row `r` is one the line format brings back. -/
def RowReads (b : ColBatch) (r : Nat) : Prop :=
  if needEsc b r then
    (∀ (c : Nat) (col : Column), b.cols[c]? = some col → EscCellReads (typeOf b.schema c) col r) ∧
      (escRecord b r).length ≤ 16777216
  else
    (∀ (c : Nat) (col : Column), b.cols[c]? = some col → PlainCellReads (typeOf b.schema c) col r) ∧
      (∀ op ∈ [1,2,3,4], (plainLine b r).head? ≠ some op) ∧ printable (plainLine b r)

/-- The batch is one the compressed format brings back: each column has room in the layout, a value
that is not NULL is a text and not the one that stands for NULL, and the scan takes the record. -/
def BatchReads (b : ColBatch) : Prop :=
  (∀ (c : Nat) (col : Column), b.cols[c]? = some col → Storable b.nrows (typeOf b.schema c) col ∧
    ∀ r < b.nrows, nullBit col.nullBitmap r = false →
      ∃ s, col.values.cell r = some (.text s) ∧ s ≠ nullSentinel) ∧
    ∀ record, batchRecord b = some record → record.length ≤ 16777216

def Reads (build : Build) (b : ColBatch) : Prop :=
  match build with
  | .rows => ∀ r < b.nrows, RowReads b r
  | .compressed => b.nrows ≠ 0 → BatchReads b

/-! ### The row buffer -/

theorem rowStepIs {b : ColBatch} {r c : Nat} {mid buf : Bytes} (h : rowStep b r mid c = some buf) :
    buf = (if c = 0 then mid else mid ++ [comma]) ++ plainCell b r c := by
  by_cases full : rowBufCap - 2 ≤ mid.length
  · simp [rowStep,full] at h
  · simp only [rowStep,if_neg full] at h
    generalize (if c = 0 then mid else mid ++ [comma]) = front at h ⊢
    split at h
    · cases h
    · exact (Option.some.inj h).symm

theorem rowBufIs {b : ColBatch} {r : Nat} {buf : Bytes} (h : rowBuf b r = some buf) :
    buf = plainLine b r ++ [lf] ∧ buf.length ≤ rowBufCap := by
  have fold : ∀ n buf, (List.range n).foldlM (rowStep b r) [] = some buf →
      buf = joinCells ((List.range n).map (plainCell b r)) := by
    intro n
    induction n with
    | zero => intro buf h; simpa [joinCells] using h.symm
    | succ n ih =>
      intro buf h
      rw [List.range_succ,List.foldlM_append] at h
      obtain ⟨mid,hm,hs⟩ := Option.bind_eq_some_iff.mp h
      simp only [List.foldlM_cons,List.foldlM_nil] at hs
      have step := rowStepIs (show rowStep b r mid n = some buf by simpa using hs)
      rw [step,List.range_succ,List.map_append,ih mid hm]
      cases n with
      | zero => simp [joinCells]
      | succ n =>
        rw [List.map_singleton,joinSnoc _ _ (by simp [List.range_succ])]
        simp
  simp only [rowBuf,Option.bind_eq_bind,Option.bind_eq_some_iff] at h
  obtain ⟨mid,hm,h⟩ := h
  split at h
  · cases h
  · rename_i short
    cases h
    rw [fold _ _ hm] at short ⊢
    refine ⟨rfl,?_⟩
    simp only [List.length_append,List.length_singleton,rowBufCap] at *
    omega

/-! ### One cell -/

theorem fmtDoubleIs (x : Int64) : ∃ p, fmtDouble x = Floats.printG p x ∧
    (Floats.eq (Floats.strtod (Floats.printG p x)) x ∨ p = 17) := by
  simp only [fmtDouble]
  split
  · exact ⟨15,rfl,.inl ‹_›⟩
  · split
    · exact ⟨16,rfl,.inl ‹_›⟩
    · exact ⟨17,rfl,.inr rfl⟩

theorem fmtDoubleSame (lawful : Floats.Lawful) (x : Int64) : SameDouble (Floats.strtod (fmtDouble x)) x := by
  obtain ⟨p,e,h⟩ := fmtDoubleIs x
  rw [e]
  rcases h with h | rfl
  · exact .inl h
  · exact lawful.reads x

theorem fmtDoubleKeeps (lawful : Floats.Lawful) (x : Int64) : Keeps (fmtDouble x) := by
  obtain ⟨p,e,_⟩ := fmtDoubleIs x
  rw [e]
  have out : ∀ d : UInt8, d ≤ 0x20 → d ∉ Floats.printG p x := fun d hd h =>
    absurd (UInt8.lt_of_lt_of_le (lawful.bytes p x d h).1 hd) (UInt8.lt_irrefl _)
  refine ⟨fun c hc => ⟨(lawful.bytes p x c hc).2.1,(lawful.bytes p x c hc).2.2,?_,?_⟩,out 0 (by decide),
    lawful.notNull p x,fun e => out 1 (by decide) (by rw [e]; decide)⟩
  · rintro rfl; exact out _ (by decide) hc
  · rintro rfl; exact out _ (by decide) hc

/-- A NULL that is read as one. -/
theorem nullCarried {t : ColType} {col : Column} {r : Nat} (h : nullBit col.nullBitmap r = true) :
    Carried t col r nullSentinel := by simp [Carried,h]

variable {types : List ColType} {b : ColBatch}

/-- How a cell reads in an unquoted line. -/
theorem plainCellRead (lawful : Floats.Lawful) (for_ : BatchFor types b) {r c : Nat} (hr : r < b.nrows) {col : Column}
    (at_ : b.cols[c]? = some col) (esc : needEsc b r = false) (reads : PlainCellReads (typeOf b.schema c) col r) :
    Bare (plainCell b r c) ∧ (0 : UInt8) ∉ plainCell b r c ∧
      Carried (typeOf b.schema c) col r (if plainCell b r c = nullText then nullSentinel else plainCell b r c) := by
  obtain ⟨lt,kind,_⟩ := for_.column at_
  have keeps : ∀ {v : Bytes}, Keeps v → Carried (typeOf b.schema c) col r v →
      Bare v ∧ (0 : UInt8) ∉ v ∧ Carried (typeOf b.schema c) col r (if v = nullText then nullSentinel else v) :=
    fun k carried => ⟨k.bare,k.noNul,by rwa [if_neg k.notNull]⟩
  simp only [plainCell,at_]
  cases nn : nullBit col.nullBitmap r with
  | true =>
    simp only [if_true]
    exact ⟨by decide,by decide,nullCarried nn⟩
  | false =>
    have reads := reads nn
    have text := fun xs (hv : col.values = .texts xs) ht v hx => needEscFalse esc (by simp [for_.schema]) lt at_ nn ht hv (v := v) hx
    have inside := fun xs hv => for_.noNul c col xs at_ hv
    obtain ⟨bm,values⟩ := col
    simp only [Bool.false_eq_true,if_false] at nn kind reads text inside ⊢
    generalize typeOf b.schema c = t at kind reads text keeps ⊢
    cases values with
    | null => exact kind.elim
    | nums xs =>
      cases t with
      | int64 => exact keeps (lldKeeps _) (by simp only [Carried,nn]; exact ⟨(lldKeeps _).notSentinel,trivial⟩)
      | double =>
        exact keeps (fmtDoubleKeeps lawful _)
          (by simp only [Carried,nn]; exact ⟨(fmtDoubleKeeps lawful _).notSentinel,fmtDoubleSame lawful _⟩)
      | bool =>
        have same : decide (intAt xs r ≠ 0) = decide (xs.getD r 0 ≠ 0) := decide_eq_decide.mpr reads
        simp only [same]
        exact keeps (boolKeeps _) (by simp only [Carried,nn]; exact ⟨(boolKeeps _).notSentinel,trivial⟩)
      | _ => exact absurd kind.1 (by decide)
    | texts xs =>
      cases t with
      | text =>
        have reads : (xs.getD r none).getD [] ≠ nullSentinel := reads
        have k : Keeps ((xs.getD r none).getD []) := by
          cases e : xs.getD r none with
          | none => rw [Option.getD_none]; exact ⟨by simp [Bare],by simp,by decide,by decide⟩
          | some v =>
            obtain ⟨_,notNull,bare⟩ := needsQuotesFalse (text xs rfl rfl v e)
            rw [e] at reads
            exact ⟨bare,inside xs rfl v (cellMem (kind.2 ▸ hr) e),notNull,reads⟩
        exact keeps k (by simp only [Carried,nn]; exact ⟨reads,trivial⟩)
      | int64 | double | bool => exact absurd kind.1 (by decide)
      | _ =>
        refine ⟨by simp [Bare],by simp,?_⟩
        simp only [Carried,nn]
        exact ⟨by decide,reads.symm⟩

/-- How a cell reads in an escaped line. -/
theorem escCellRead (lawful : Floats.Lawful) (for_ : BatchFor types b) {r c : Nat} (hr : r < b.nrows) {col : Column}
    (at_ : b.cols[c]? = some col) (reads : EscCellReads (typeOf b.schema c) col r) :
    ∃ v q, Written (escCell b r c) (v,q) ∧ (0 : UInt8) ∉ escCell b r c ∧
      Carried (typeOf b.schema c) col r (if q = false ∧ v = nullText then nullSentinel else v) := by
  obtain ⟨lt,kind,_⟩ := for_.column at_
  have keeps : ∀ {v : Bytes}, Keeps v → Carried (typeOf b.schema c) col r v → ∃ w q, Written v (w,q) ∧ (0 : UInt8) ∉ v ∧
      Carried (typeOf b.schema c) col r (if q = false ∧ w = nullText then nullSentinel else w) :=
    fun {v} k carried => ⟨v,false,.bare k.bare,k.noNul,by rwa [if_neg fun h => k.notNull h.2]⟩
  simp only [escCell,at_]
  cases nn : nullBit col.nullBitmap r with
  | true =>
    simp only [if_true]
    exact ⟨nullText,false,.bare (by decide),by decide,nullCarried nn⟩
  | false =>
    have reads := reads nn
    have inside := fun xs hv => for_.noNul c col xs at_ hv
    obtain ⟨bm,values⟩ := col
    simp only [Bool.false_eq_true,if_false] at nn kind reads inside ⊢
    generalize typeOf b.schema c = t at kind reads keeps ⊢
    cases values with
    | null => exact kind.elim
    | nums xs =>
      cases t with
      | int64 => exact keeps (lldKeeps _) (by simp only [Carried,nn]; exact ⟨(lldKeeps _).notSentinel,trivial⟩)
      | double =>
        exact keeps (fmtDoubleKeeps lawful _)
          (by simp only [Carried,nn]; exact ⟨(fmtDoubleKeeps lawful _).notSentinel,fmtDoubleSame lawful _⟩)
      | bool => exact keeps (boolKeeps _) (by simp only [Carried,nn]; exact ⟨(boolKeeps _).notSentinel,trivial⟩)
      | _ => exact absurd kind.1 (by decide)
    | texts xs =>
      have noNul : (0 : UInt8) ∉ (xs.getD r none).getD [] := by
        cases e : xs.getD r none with
        | none => simp
        | some v =>
          have len : r < xs.length := by cases t <;> exact kind.2 ▸ hr
          exact inside xs rfl v (cellMem len e)
      cases t with
      | text =>
        have reads : (xs.getD r none).getD [] ≠ nullSentinel := reads
        have carried : Carried .text ⟨bm,.texts xs⟩ r ((xs.getD r none).getD []) := by
          simp only [Carried,nn]; exact ⟨reads,trivial⟩
        simp only
        split
        · refine ⟨_,true,.quoted _,quotedNoNul noNul,by simpa using carried⟩
        · rename_i plain
          obtain ⟨_,notNull,bare⟩ := needsQuotesFalse (Bool.eq_false_iff.mpr plain)
          exact keeps ⟨bare,noNul,notNull,reads⟩ carried
      | int64 | double | bool => exact absurd kind.1 (by decide)
      | _ =>
        exact keeps ⟨reads.2.2,noNul,reads.2.1,reads.1⟩ (by simp only [Carried,nn]; exact ⟨reads.1,trivial⟩)

/-! ### One row -/

theorem rowCarriedOf (for_ : BatchFor types b) {r : Nat} {f : Nat → Bytes}
    (each : ∀ (c : Nat) (col : Column), b.cols[c]? = some col → Carried (typeOf b.schema c) col r (f c)) :
    RowCarried (b,r) ((List.range b.ncols).map f) := by
  refine ⟨by simp,fun c col cell at_ hc => ?_⟩
  have lt := (for_.column at_).1
  rw [List.getElem?_map,List.getElem?_range lt,Option.map_some,Option.some.injEq] at hc
  exact hc ▸ each c col at_

/-- What one record of a batch does in the scan: it shows these rows and is no tombstone. -/
structure Shows (ncols : Nat) (record : Bytes) (rows : List Row) : Prop where
  scan : ∀ off, scanRecord [] ncols (off,record) = some rows
  stone : scanTombstone record = none
  small : record.length ≤ 16777216

theorem plainRowShows (lawful : Floats.Lawful) (for_ : BatchFor types b) {r : Nat} (hr : r < b.nrows) {record : Bytes}
    (is : rowRecord b r = some record) (esc : needEsc b r = false) (reads : RowReads b r) :
    ∃ row, Shows b.ncols record [row] ∧ RowCarried (b,r) row := by
  obtain ⟨buf,hb,rfl⟩ := Option.map_eq_some_iff.mp is
  obtain ⟨rfl,size⟩ := rowBufIs hb
  simp only [esc,Bool.false_eq_true,if_false]
  simp only [RowReads,esc,Bool.false_eq_true,if_false] at reads
  obtain ⟨cellReads,first,some_⟩ := reads
  have cell : ∀ c < b.ncols, ∃ col, b.cols[c]? = some col ∧ Bare (plainCell b r c) ∧ (0 : UInt8) ∉ plainCell b r c ∧
      Carried (typeOf b.schema c) col r (if plainCell b r c = nullText then nullSentinel else plainCell b r c) := by
    intro c hc
    obtain ⟨col,at_⟩ := columnAt for_ hc
    exact ⟨col,at_,plainCellRead lawful for_ hr at_ esc (cellReads c col at_)⟩
  have inCell : ∀ f ∈ (List.range b.ncols).map (plainCell b r), Bare f ∧ (0 : UInt8) ∉ f := by
    intro f hf
    obtain ⟨c,hc,rfl⟩ := List.mem_map.mp hf
    obtain ⟨_,_,bare,nul,_⟩ := cell c (List.mem_range.mp hc)
    exact ⟨bare,nul⟩
  have inLine : ∀ c ∈ plainLine b r, c ≠ lf ∧ c ≠ cr ∧ c ≠ 0 := by
    intro c hc
    rcases joinMem hc with rfl | ⟨f,hf,hc⟩
    · decide
    · exact ⟨((inCell f hf).1 c hc).2.2.1,((inCell f hf).1 c hc).2.2.2,fun e => (inCell f hf).2 (e ▸ hc)⟩
  have whole : trimEnd (cstr (plainLine b r ++ [lf])) = plainLine b r := by
    rw [cstrSelf (by simpa [lf] using fun h => (inLine 0 h).2.2 rfl)]
    exact trimLine fun c hc => ⟨(inLine c (List.mem_of_getLast? hc)).1,(inLine c (List.mem_of_getLast? hc)).2.1⟩
  have cells : rowOf b.ncols (plainLine b r) =
      (List.range b.ncols).map fun c => if plainCell b r c = nullText then nullSentinel else plainCell b r c := by
    have limit := for_.wf.limit
    have pos := for_.wf.some_
    simp only [rowOf,walSplitPlain (first 4 (by decide)),splitLineSimple]
    rw [plainLine,splitJoin (by simpa using Nat.ne_of_gt pos) (fun f hf c hc => ((inCell f hf).1 c hc).1)
      (by simp only [List.length_map,List.length_range,maxCols] at *; omega),List.map_map]
    exact rangeGet (by simp)
  obtain ⟨op,body,line⟩ : ∃ op body, plainLine b r = op :: body := by
    cases h : plainLine b r with
    | nil => rw [h] at some_; simp [printable] at some_
    | cons op body => exact ⟨op,body,rfl⟩
  have ops : op ≠ walOpDelete ∧ op ≠ walOpUpdate ∧ op ≠ walVersionCompressed := by
    rw [line] at first
    refine ⟨?_,?_,?_⟩ <;> (rintro rfl; exact first _ (by decide) rfl)
  refine ⟨_,⟨fun off => ?_,?_,?_⟩,cells ▸ rowCarriedOf for_ fun c col at_ => ?_⟩
  · have scan := @scanLine off b.ncols op (body ++ [lf])
      (by rw [line] at size; simp only [List.cons_append,rowBufCap] at size ⊢; omega) ops
      (by rw [← List.cons_append,← line,whole]; exact some_)
    rwa [← List.cons_append,← line,whole] at scan
  · rw [line]; exact noStone ⟨ops.1,ops.2.1⟩
  · simp only [rowBufCap] at size; omega
  · obtain ⟨col',at',_,_,carried⟩ := cell c (for_.column at_).1
    cases Option.some.inj (at_.symm.trans at')
    exact carried

theorem needEscSome {r : Nat} (for_ : BatchFor types b) (h : needEsc b r = true) : ∃ c < b.ncols, quote ∈ escCell b r c := by
  simp only [needEsc,Bool.and_eq_true,List.any_eq_true,List.mem_range] at h
  obtain ⟨_,c,hc,asks⟩ := h
  obtain ⟨⟨bm,values⟩,at_⟩ := columnAt for_ hc
  refine ⟨c,hc,?_⟩
  simp only [at_,Bool.and_eq_true,Bool.not_eq_true'] at asks
  obtain ⟨nn,asks⟩ := asks
  simp only [escCell,at_,nn,Bool.false_eq_true,if_false]
  generalize typeOf b.schema c = t at asks ⊢
  split at asks
  · rename_i xs
    cases e : xs.getD r none with
    | none => rw [e] at asks; exact absurd asks (by decide)
    | some v =>
      simp only [e,Option.map_some,Option.getD_some] at asks
      simp only [e,Option.getD_some,asks,if_true]
      exact List.mem_cons_self
  · exact absurd asks (by decide)

theorem escRowShows (lawful : Floats.Lawful) (for_ : BatchFor types b) {r : Nat} (hr : r < b.nrows) {record : Bytes}
    (is : rowRecord b r = some record) (esc : needEsc b r = true) (reads : RowReads b r) :
    ∃ row, Shows b.ncols record [row] ∧ RowCarried (b,r) row := by
  obtain ⟨buf,_,rfl⟩ := Option.map_eq_some_iff.mp is
  simp only [esc,if_true]
  simp only [RowReads,esc,if_true] at reads
  obtain ⟨cellReads,size⟩ := reads
  have cell : ∀ c < b.ncols, ∃ col v q, b.cols[c]? = some col ∧ Written (escCell b r c) (v,q) ∧ (0 : UInt8) ∉ escCell b r c ∧
      Carried (typeOf b.schema c) col r (if q = false ∧ v = nullText then nullSentinel else v) := by
    intro c hc
    obtain ⟨col,at_⟩ := columnAt for_ hc
    obtain ⟨v,q,h⟩ := escCellRead lawful for_ hr at_ (cellReads c col at_)
    exact ⟨col,v,q,at_,h⟩
  choose! col val flag at_ written noNul carried using cell
  let encs := (List.range b.ncols).map (escCell b r)
  let parts := (List.range b.ncols).map fun c => (val c,flag c)
  have each : List.Forall₂ Written encs parts :=
    List.forall₂_map_left_iff.mpr (List.forall₂_map_right_iff.mpr
      (List.forall₂_same.mpr fun c hc => written c (List.mem_range.mp hc)))
  have inCell : ∀ f ∈ encs, (0 : UInt8) ∉ f ∧ ∀ c, f.getLast? = some c → c ≠ lf ∧ c ≠ cr := by
    intro f hf
    obtain ⟨c,hc,rfl⟩ := List.mem_map.mp hf
    exact ⟨noNul c (List.mem_range.mp hc),writtenLast (written c (List.mem_range.mp hc))⟩
  have whole : trimEnd (cstr (escRecord b r)) = walOpInsertEsc :: joinCells encs := by
    rw [cstrSelf]
    · refine @trimLine (walOpInsertEsc :: joinCells encs) fun c hc => ?_
      rw [List.getLast?_cons] at hc
      cases hj : (joinCells encs).getLast? with
      | none => rw [hj] at hc; cases hc; decide
      | some d =>
        rw [hj] at hc; cases hc
        exact joinLast (p := fun c => c ≠ lf ∧ c ≠ cr) (by decide) (fun f hf => (inCell f hf).2) _ hj
    · simp only [escRecord,List.mem_cons,List.mem_append,List.not_mem_nil,or_false,not_or]
      refine ⟨by decide,fun h => ?_,by decide⟩
      rcases joinMem h with e | ⟨f,hf,h0⟩
      · exact absurd e (by decide)
      · exact (inCell f hf).1 h0
  have some_ : printable (walOpInsertEsc :: joinCells encs) := by
    obtain ⟨c,hc,hq⟩ := needEscSome for_ esc
    exact List.any_eq_true.mpr ⟨quote,List.mem_cons_of_mem _
      (memJoin (List.mem_map_of_mem (List.mem_range.mpr hc)) hq),by decide⟩
  have cells : rowOf b.ncols (walOpInsertEsc :: joinCells encs) =
      (List.range b.ncols).map fun c => if flag c = false ∧ val c = nullText then nullSentinel else val c := by
    have limit := for_.wf.limit
    have pos := for_.wf.some_
    have split_ : splitLineRfc4180 (joinCells encs) = some parts :=
      splitRfcJoin each (by simp [encs]; omega) (joinLength encs)
    have all : parts.take maxCols = parts := List.take_of_length_le (by simpa [parts] using limit)
    simp only [rowOf,walSplitRow,walOpInsertEsc,split_,all]
    simp only [parts,List.map_map]
    exact rangeGet (by simp)
  refine ⟨_,⟨fun off => ?_,noStone ⟨by decide,by decide⟩,size⟩,cells ▸ rowCarriedOf for_ fun c col' at' => ?_⟩
  · have scan := @scanLine off b.ncols walOpInsertEsc (joinCells encs ++ [lf]) size
      (by decide) (by rw [show walOpInsertEsc :: (joinCells encs ++ [lf]) = escRecord b r from rfl,whole]; exact some_)
    rwa [show walOpInsertEsc :: (joinCells encs ++ [lf]) = escRecord b r from rfl,whole] at scan
  · have lt := (for_.column at').1
    cases Option.some.inj (at'.symm.trans (at_ c lt))
    exact carried c lt

theorem rowShows (lawful : Floats.Lawful) (for_ : BatchFor types b) {r : Nat} (hr : r < b.nrows) {record : Bytes}
    (is : rowRecord b r = some record) (reads : RowReads b r) :
    ∃ row, Shows b.ncols record [row] ∧ RowCarried (b,r) row := by
  cases esc : needEsc b r with
  | true => exact escRowShows lawful for_ hr is esc reads
  | false => exact plainRowShows lawful for_ hr is esc reads

/-! ### One compressed batch -/

theorem batchCellRead (for_ : BatchFor types b) (reads : BatchReads b) {b' : ColBatch} (again : reread b = some b')
    (same : SameBatch b b') {r c : Nat} (hr : r < b.nrows) {col : Column} (at_ : b.cols[c]? = some col) :
    ∃ cell, batchCell b' r c = some cell ∧ Carried (typeOf b.schema c) col r cell := by
  obtain ⟨ncols,nrows,cells⟩ := same
  obtain ⟨hc,ec⟩ := List.getElem?_eq_some_iff.mp at_
  have hc' : c < b'.cols.length := cells.length_eq ▸ hc
  have one := cells.get hc hc'
  simp only [List.get_eq_getElem,ec] at one
  obtain ⟨bit,value⟩ := one r hr
  simp only [batchCell,List.getElem?_eq_getElem hc',← bit]
  cases nn : nullBit col.nullBitmap r with
  | true => exact ⟨nullSentinel,rfl,nullCarried nn⟩
  | false =>
    obtain ⟨s,hs,notSentinel⟩ := (reads.1 c col at_).2 r hr nn
    have value := (value nn).symm.trans hs
    simp only [Bool.false_eq_true,if_false]
    cases hv : b'.cols[c].values with
    | null => rw [hv] at value; cases value
    | nums ys =>
      rw [hv,Values.cell] at value
      obtain ⟨_,_,e⟩ := Option.map_eq_some_iff.mp value
      cases e
    | texts ys =>
      rw [hv,Values.cell] at value
      obtain ⟨o,ho,e⟩ := Option.map_eq_some_iff.mp value
      cases e
      cases o with
      | none => exact absurd (List.mem_of_getElem? ho) (rereadTexts for_.wf again (List.getElem?_eq_getElem hc') hv)
      | some s =>
        refine ⟨s,by simp only [ho]; rfl,?_⟩
        obtain ⟨bm,values⟩ := col
        cases values with
        | null => cases hs
        | nums xs =>
          obtain ⟨_,_,e⟩ := Option.map_eq_some_iff.mp hs
          cases e
        | texts xs =>
          obtain ⟨o,ho,e⟩ := Option.map_eq_some_iff.mp hs
          have text : (xs.getD r none).getD [] = s := by
            rw [List.getD_eq_getElem?_getD,ho]; cases e; rfl
          simp only [Carried,nn,Bool.false_eq_true,if_false]
          refine ⟨notSentinel,?_⟩
          cases typeOf b.schema c <;> exact text.symm

theorem batchShows (for_ : BatchFor types b) (reads : BatchReads b) :
    ∃ record rows, batchRecord b = some record ∧ Shows b.ncols record rows ∧
      List.Forall₂ RowCarried ((List.range b.nrows).map (b,·)) rows := by
  obtain ⟨b',again,same⟩ := (rereadSame b for_.wf).mpr fun c col at_ => (reads.1 c col at_).1
  have again' := again
  simp only [reread,Option.bind_eq_bind,Option.bind_eq_some_iff] at again'
  obtain ⟨cb,hcb,ser,hser,cb',hcb',e⟩ := again'
  cases e
  have is : batchRecord b = some (walVersionCompressed :: ser) := by
    simp only [batchRecord,hcb,hser,Option.bind_eq_bind,Option.bind_some]
  have size := reads.2 _ is
  have long : 14 ≤ ser.length := Nat.le_of_not_lt fun short => by simp [deserialize,short] at hcb'
  have cell : ∀ r < b.nrows, ∀ c < b.ncols, ∃ v, batchCell (decompressBatch cb') r c = some v ∧
      ∀ (col : Column), b.cols[c]? = some col → Carried (typeOf b.schema c) col r v := by
    intro r hr c hc
    obtain ⟨col,at_⟩ := columnAt for_ hc
    obtain ⟨v,hv,carried⟩ := batchCellRead for_ reads again same hr at_
    exact ⟨v,hv,fun col' at' => by cases Option.some.inj (at_.symm.trans at'); exact carried⟩
  choose! f hf carried using cell
  have rows : batchRows b.ncols ser = some ((List.range b.nrows).map fun r => (List.range b.ncols).map (f r)) := by
    have each : ∀ r ∈ List.range b.nrows, (List.range b.ncols).mapM (batchCell (decompressBatch cb') r) =
        some ((List.range b.ncols).map (f r)) := fun r hr =>
      mapMMap fun c hc => hf r (List.mem_range.mp hr) c (List.mem_range.mp hc)
    have nrows : (decompressBatch cb').nrows = b.nrows := same.2.1
    simp only [batchRows,notRejected hcb',hcb',Bool.false_eq_true,if_false,Option.bind_eq_bind,Option.bind_some,nrows]
    exact mapMMap each
  refine ⟨_,(List.range b.nrows).map fun r => (List.range b.ncols).map (f r),is,⟨fun off => ?_,noStone ⟨by decide,by decide⟩,size⟩,?_⟩
  · have body : ser ≠ [] := by rintro rfl; simp at long
    simp only [scanRecord,if_neg (Nat.not_lt.mpr size)]
    rw [if_neg (by decide),if_pos (by simpa using body)]
    simpa using rows
  · refine List.forall₂_map_left_iff.mpr (List.forall₂_map_right_iff.mpr (List.forall₂_same.mpr fun r hr => ?_))
    exact rowCarriedOf for_ fun c col at_ => carried r (List.mem_range.mp hr) c (for_.column at_).1 col at_

/-! ### The log -/

/-- The table's log after the batches, from an empty one. -/
def appendAll (build : Build) (file : Bytes) (batches : List ColBatch) : Option Bytes :=
  batches.foldlM (fun file b => (tableAppend build file b).map (·.1)) file

/-- In the row by row build every row fits the row buffer. -/
def FitsBuffer (build : Build) (b : ColBatch) : Prop := build = .rows → ∀ r < b.nrows, rowBuf b r ≠ none

theorem rowsShow (lawful : Floats.Lawful) (for_ : BatchFor types b) {rs : List Nat} (hr : ∀ r ∈ rs, r < b.nrows)
    (fits : ∀ r ∈ rs, rowBuf b r ≠ none) (reads : ∀ r ∈ rs, RowReads b r) :
    ∃ rowss, List.Forall₂ (Shows b.ncols) (rowRecords b rs).1 rowss ∧
      List.Forall₂ RowCarried (rs.map (b,·)) rowss.flatten := by
  induction rs with
  | nil => exact ⟨[],.nil,.nil⟩
  | cons r rs ih =>
    obtain ⟨rowss,shows_,carried⟩ := ih (fun s hs => hr s (List.mem_cons_of_mem _ hs))
      (fun s hs => fits s (List.mem_cons_of_mem _ hs)) fun s hs => reads s (List.mem_cons_of_mem _ hs)
    obtain ⟨buf,hb⟩ := Option.ne_none_iff_exists'.mp (fits r List.mem_cons_self)
    have is : rowRecord b r = some (if needEsc b r then escRecord b r else buf) := by rw [rowRecord,hb]; rfl
    obtain ⟨row,one,oneCarried⟩ := rowShows lawful for_ (hr r List.mem_cons_self) is (reads r List.mem_cons_self)
    refine ⟨[row] :: rowss,?_,.cons oneCarried carried⟩
    simp only [rowRecords,is]
    exact .cons one shows_

theorem batchShown (lawful : Floats.Lawful) {build : Build} (for_ : BatchFor types b) (fits : FitsBuffer build b)
    (reads : Reads build b) : ∃ records ok rowss, appendRecords build b = some (records,ok) ∧
      List.Forall₂ (Shows b.ncols) records rowss ∧
      List.Forall₂ RowCarried ((List.range b.nrows).map (b,·)) rowss.flatten := by
  by_cases none_ : b.nrows = 0
  · exact ⟨[],true,[],by simp [appendRecords,none_],.nil,by simp [none_]⟩
  · cases build with
    | rows =>
      obtain ⟨rowss,shows_,carried⟩ := rowsShow lawful for_ (fun r (hr : r ∈ List.range b.nrows) => List.mem_range.mp hr)
        (fun r hr => fits rfl r (List.mem_range.mp hr)) fun r hr => reads r (List.mem_range.mp hr)
      exact ⟨_,_,rowss,by simp only [appendRecords,if_neg none_]; rfl,shows_,carried⟩
    | compressed =>
      obtain ⟨record,rows,is,shows_,carried⟩ := batchShows for_ (reads none_)
      exact ⟨[record],true,[rows],by simp [appendRecords,none_,is],.cons shows_ .nil,by simpa using carried⟩

end

/-- A log of records that show rows and bury none is read as those rows. -/
theorem scanShows {ncols : Nat} {ps : List Bytes} {rowss : List (List Row)} (h : List.Forall₂ (Shows ncols) ps rowss) :
    scanRecords ncols ps = some rowss.flatten := by
  have stones : tombstones ps = [] := by
    refine List.filterMap_eq_nil_iff.mpr fun p hp => ?_
    obtain ⟨i,hi,rfl⟩ := List.mem_iff_getElem.mp hp
    exact (h.get hi (h.length_eq ▸ hi)).stone
  have each : ∀ o, (placed o ps).mapM (scanRecord [] ncols) = some rowss := by
    clear stones
    induction h with
    | nil => intro o; rfl
    | cons one _ ih => intro o; rw [placed,mapMCons,one.scan,ih]; rfl
  rw [scanRecords,stones,each]
  rfl

theorem scanFrame {ncols : Nat} {ps : List Bytes} {rowss : List (List Row)} (h : List.Forall₂ (Shows ncols) ps rowss) :
    loadTbl ncols (frame ps) = some rowss.flatten := by
  have small : Framable ps := fun p hp => by
    obtain ⟨i,hi,rfl⟩ := List.mem_iff_getElem.mp hp
    have := (h.get hi (h.length_eq ▸ hi)).small
    simp only [List.get_eq_getElem] at this
    omega
  rw [loadTbl,recordsFrame small,scanShows h]

section
variable [Floats]

/-- The step and the run: the log holds records that show the rows appended so far, and each batch adds its own. -/
theorem appendAllShown (lawful : Floats.Lawful) {build : Build} {types : List ColType} {batches : List ColBatch}
    (for_ : ∀ b ∈ batches, BatchFor types b) (fits : ∀ b ∈ batches, FitsBuffer build b)
    (reads : ∀ b ∈ batches, Reads build b) (ps : List Bytes) :
    ∃ qs rowss, appendAll build (frame ps) batches = some (frame (ps ++ qs)) ∧
      List.Forall₂ (Shows types.length) qs rowss ∧
      List.Forall₂ RowCarried (batches.flatMap fun b => (List.range b.nrows).map (b,·)) rowss.flatten := by
  induction batches generalizing ps with
  | nil => exact ⟨[],[],by simp [appendAll],.nil,.nil⟩
  | cons b batches ih =>
    have here := for_ b List.mem_cons_self
    obtain ⟨records,ok,rowss,is,shows_,carried⟩ :=
      batchShown lawful here (fits b List.mem_cons_self) (reads b List.mem_cons_self)
    obtain ⟨qs,rest,all,restShows,restCarried⟩ := ih (fun c hc => for_ c (List.mem_cons_of_mem _ hc))
      (fun c hc => fits c (List.mem_cons_of_mem _ hc)) (fun c hc => reads c (List.mem_cons_of_mem _ hc)) (ps ++ records)
    have step : (tableAppend build (frame ps) b).map (·.1) = some (frame (ps ++ records)) := by
      rw [tableAppend,is,Option.map_some,Option.map_some,walAppendAll,← frameAppend]
    refine ⟨records ++ qs,rowss ++ rest,?_,List.rel_append (here.ncols ▸ shows_) restShows,?_⟩
    · rw [← List.append_assoc,← all,appendAll,List.foldlM_cons,step]
      rfl
    · rw [List.flatMap_cons,List.flatten_append]
      exact List.rel_append carried restCarried

/-- Every batch the format has room for comes back from the full scan, in order, in either build. -/
theorem appendedRead (lawful : Floats.Lawful) (build : Build) (types : List ColType) (batches : List ColBatch)
    (for_ : ∀ b ∈ batches, BatchFor types b) (fits : ∀ b ∈ batches, FitsBuffer build b)
    (reads : ∀ b ∈ batches, Reads build b) :
    ∃ file rows, appendAll build [] batches = some file ∧ loadTbl types.length file = some rows ∧
      List.Forall₂ RowCarried (batches.flatMap fun b => (List.range b.nrows).map (b,·)) rows := by
  obtain ⟨qs,rowss,all,shows_,carried⟩ := appendAllShown lawful for_ fits reads []
  exact ⟨frame qs,rowss.flatten,by simpa [frame] using all,scanFrame shows_,carried⟩

end

/-- Doubles that are whole numbers, each its own bits. -/
@[reducible] def wholeFloats : Floats where
  printG _ x := lld x
  strtod := strtoll
  eq a b := a = b

theorem wholeLawful : @Floats.Lawful wholeFloats := by
  refine @Floats.Lawful.mk wholeFloats (fun x => Or.inl (decide_eq_true (strtollLld x))) (fun _ x => lldSome x)
    (fun _ x c hc => ?_) fun _ x => (lldKeeps x).notNull
  exact ⟨UInt8.lt_of_lt_of_le (by decide) (lldBytes x c hc).1,((lldKeeps x).bare c hc).1,((lldKeeps x).bare c hc).2.1⟩

/-- A text with a comma beside a number, and a NULL beside a negative one. -/
def commaBatch : ColBatch where
  schema := some [.text,.int64]
  ncols := 2
  nrows := 2
  cols := [⟨some [2],.texts [some (ascii "a,b"),none]⟩,⟨none,.nums [7,-3]⟩]

theorem commaBatchFor : BatchFor [.text,.int64] commaBatch where
  wf := {
    some_ := by decide
    limit := by decide
    count := rfl
    rows := by decide
    fits := fun c col at_ => by
      match c with
      | 0 => cases at_; exact ⟨⟨rfl,rfl⟩,fun bm h => by cases h; decide⟩
      | 1 => cases at_; exact ⟨⟨rfl,rfl⟩,fun bm h => by cases h⟩
      | c + 2 => cases at_ }
  schema := rfl
  ncols := rfl
  noNul c col xs at_ is s hs := by
    match c with
    | 0 => cases at_; cases is; simp at hs; subst hs; decide
    | 1 => cases at_; cases is
    | c + 2 => cases at_

theorem appendedReadComma : ∃ file rows, @appendAll wholeFloats .rows [] [commaBatch] = some file ∧
    loadTbl 2 file = some rows ∧ List.Forall₂ (@RowCarried wholeFloats) [(commaBatch,0),(commaBatch,1)] rows := by
  refine @appendedRead wholeFloats wholeLawful .rows [.text,.int64] [commaBatch] ?_ ?_ ?_
  · exact List.forall_mem_singleton.mpr commaBatchFor
  · refine List.forall_mem_singleton.mpr fun _ r hr => ?_
    match r, hr with
    | 0, _ => decide
    | 1, _ => decide
  · refine List.forall_mem_singleton.mpr fun r hr => ?_
    match r, hr with
    | 0, _ =>
      refine ⟨fun c col at_ nn => ?_,by decide⟩
      match c with
      | 0 => cases at_; exact (by decide : ascii "a,b" ≠ nullSentinel)
      | 1 => cases at_; trivial
      | c + 2 => cases at_
    | 1, _ =>
      refine ⟨fun c col at_ nn => ?_,@of_decide_eq_true _ (List.decidableBAll _ _) rfl,by decide⟩
      match c with
      | 0 => cases at_; cases nn
      | 1 => cases at_; trivial
      | c + 2 => cases at_

def dateBatch : ColBatch where
  schema := some [.date]
  ncols := 1
  nrows := 1
  cols := [⟨none,.texts [some (ascii "2024-01-01")]⟩]

theorem dateBatchFor : BatchFor [.date] dateBatch where
  wf := {
    some_ := by decide
    limit := by decide
    count := rfl
    rows := by decide
    fits := fun c col at_ => by
      match c with
      | 0 => cases at_; exact ⟨⟨rfl,rfl⟩,fun bm h => by cases h⟩
      | c + 1 => cases at_ }
  schema := rfl
  ncols := rfl
  noNul c col xs at_ is s hs := by
    match c with
    | 0 => cases at_; cases is; simp at hs; subst hs; decide
    | c + 1 => cases at_

/-- A DATE cell prints nothing, and a line of nothing is not taken for a row. -/
theorem appendLosesDate : BatchFor [.date] dateBatch ∧ @FitsBuffer wholeFloats .rows dateBatch ∧
    ¬ ∃ file rows, @appendAll wholeFloats .rows [] [dateBatch] = some file ∧ loadTbl 1 file = some rows ∧
      List.Forall₂ (@RowCarried wholeFloats) [(dateBatch,0)] rows := by
  refine ⟨dateBatchFor,fun _ r hr => ?_,?_⟩
  · match r, hr with
    | 0, _ => decide
  · rintro ⟨file,rows,hf,hr,all⟩
    have written : @appendAll wholeFloats .rows [] [dateBatch] = some [1,0,0,0,10] := by decide
    cases written.symm.trans hf
    have read : loadTbl 1 [1,0,0,0,10] = some [] := by decide
    cases read.symm.trans hr
    cases all

end Napastak.Store
