import Napastak.ParquetRead

/-! What a column chunk holds, page by page from its beginning, and what `pq_read_col_range` gives of it. -/
namespace Napastak.Parquet
open Codec Thrift
open Store (cstr cstrSelf)

/-! ### The rows of a chunk -/

structure Page where
  hdr : PageHdr
  body : Bytes

def Page.isData (pg : Page) : Prop := pg.hdr.pageType = pqDataPage ∨ pg.hdr.pageType = pqDataV2

instance (pg : Page) : Decidable pg.isData := by unfold Page.isData; infer_instance

def Page.rows (pg : Page) : Nat := if pg.isData then pg.hdr.numValues.toNat else 0

/-- The pages lie one behind the other, and each header is read from its first 512 bytes. -/
inductive Laid (n : Nat) (file : Bytes) : Nat → List Page → Prop
  | nil (pos : Nat) : Laid n file pos []
  | cons {pos : Nat} {pg : Page} {pgs : List Page} (here : (file.drop pos).take 512 ≠ [])
      (read : pqParsePageHdr n ((file.drop pos).take 512) = some pg.hdr) (sizes : 0 ≤ pg.hdr.compressedSize ∧ 0 ≤ pg.hdr.numValues)
      (body : (file.drop (pos + pg.hdr.hdrBytes)).take pg.hdr.compressedSize.toNat = pg.body)
      (whole : pg.body.length = pg.hdr.compressedSize.toNat)
      (rest : Laid n file (pos + pg.hdr.hdrBytes + pg.hdr.compressedSize.toNat) pgs) : Laid n file pos (pg :: pgs)

def plainValue (ty : PqType) (p : Bytes) : Option (Cell × Bytes) :=
  match ty.fixed with
  | some (w,cell) => if p.length < w then none else some (cell (p.take w),p.drop w)
  | none =>
    if ty = .byteArray ∧ 4 ≤ p.length ∧ leValue (p.take 4) ≤ p.length - 4 then
      some (.text ((p.drop 4).take (leValue (p.take 4))),(p.drop 4).drop (leValue (p.take 4)))
    else none

def plainValues (ty : PqType) : Nat → Bytes → Option (List Cell)
  | 0, _ => some []
  | k + 1, p => (plainValue ty p).bind fun (c,p) => (plainValues ty k p).map (c :: ·)

/-- Booleans are bits, other values stand one behind the other. -/
def plainCells (ty : PqType) (k : Nat) (p : Bytes) : Option (List Cell) :=
  if ty = .boolean then if k ≤ 8 * p.length then some ((List.range k).map fun i => .int (bitAt p i)) else none
  else plainValues ty k p

def lookups (dict : List Cell) : List Nat → Option (List Cell)
  | [] => some []
  | i :: is => (dict[i]?).bind fun c => (lookups dict is).map (c :: ·)

def spread {α : Type} : List Bool → List α → List (Option α)
  | [], _ => []
  | false :: fs, vs => none :: spread fs vs
  | true :: fs, [] => none :: spread fs []
  | true :: fs, v :: vs => some v :: spread fs vs

section
variable (decompress : Decompress) (col : Column)

def unpack (comp : Bytes) (size : Nat) : Option Bytes :=
  if col.codec = pqUncomp then some comp
  else if col.codec = pqGzip ∨ col.codec = pqSnappy then decompress col.codec comp size
  else none

/-- The bytes of the levels and those of the values. -/
def sections (ph : PageHdr) (comp : Bytes) : Option (Bytes × Bytes) :=
  if ph.pageType = pqDataV2 then
    if col.optional = false ∧ ph.defBytes ≠ 0 then none
    else
      let p := comp.drop ph.repBytes.toNat
      let values := p.drop ph.defBytes.toNat
      (if ph.v2Compressed then unpack decompress col values (ph.uncompressedSize - ph.defBytes - ph.repBytes).toNat else some values).map
        fun values => (p.take ph.defBytes.toNat,values)
  else
    (unpack decompress col comp ph.uncompressedSize.toNat).bind fun p =>
      if col.optional = false then some ([],p)
      else if p.length < 4 then none
      else some ((p.drop 4).take (leValue (p.take 4)),(p.drop 4).drop (leValue (p.take 4)))

def definedRows (ph : PageHdr) (lvls : Bytes) : Option (List Bool) :=
  if col.optional = false then some (List.replicate ph.numValues.toNat true)
  else if (rleBpDec lvls 1 ph.numValues.toNat).length = ph.numValues.toNat then
    some ((rleBpDec lvls 1 ph.numValues.toNat).map (· ≠ 0))
  else none

def pageCells (dict : List Cell) (ph : PageHdr) (k : Nat) (values : Bytes) : Option (List Cell) :=
  if k = 0 then some []
  else if ph.encoding = 2 ∨ ph.encoding = 8 then
    match values with
    | [] => none
    | bw :: rest =>
      if (rleDictDec rest bw.toNat k).length = k then lookups dict (rleDictDec rest bw.toNat k) else none
  else if ph.encoding = 0 then plainCells col.pqType k values
  else none

def pageRows (dict : List Cell) (pg : Page) : Option (List (Option Cell)) :=
  (sections decompress col pg.hdr pg.body).bind fun (lvls,values) =>
    (definedRows col pg.hdr lvls).bind fun fs => (pageCells col dict pg.hdr (fs.count true) values).map (spread fs)

/-- The rows of all pages, from the beginning. -/
def fullDecode : List Cell → List Page → Option (List (Option Cell))
  | _, [] => some []
  | dict, pg :: pgs =>
    if pg.hdr.pageType = pqDictPage then
      (unpack decompress col pg.body pg.hdr.uncompressedSize.toNat).bind fun q =>
        (plainValues col.pqType pg.hdr.numValues.toNat q).bind fun dict => fullDecode dict pgs
    else if ¬ pg.isData then fullDecode dict pgs
    else (pageRows decompress col dict pg).bind fun rows => (fullDecode dict pgs).map (rows ++ ·)

end

/-! ### Values, with others skipped -/

section
variable {α : Type} {fs : List Bool} {vs : List α}

theorem spreadLength (fs : List Bool) (vs : List α) : (spread fs vs).length = fs.length := by
  fun_induction spread fs vs with
  | case1 => rfl
  | case2 vs fs ih => rw [List.length_cons,ih,List.length_cons]
  | case3 fs ih => rw [List.length_cons,ih,List.length_cons]
  | case4 fs v vs ih => rw [List.length_cons,ih,List.length_cons]

theorem spreadMap {β : Type} (f : α → β) (fs : List Bool) (vs : List α) : (spread fs vs).map (Option.map f) = spread fs (vs.map f) := by
  fun_induction spread fs vs with
  | case1 => rfl
  | case2 vs fs ih => rw [List.map_cons,ih,spread]; rfl
  | case3 fs ih => rw [List.map_cons,ih,List.map_nil,spread]; rfl
  | case4 fs v vs ih => rw [List.map_cons,ih,List.map_cons,spread]; rfl

theorem spreadCount {fs : List Bool} {vs : List α} (le : fs.count true ≤ vs.length) :
    (spread fs vs).countP Option.isSome = fs.count true := by
  fun_induction spread fs vs with
  | case1 => rfl
  | case2 vs fs ih =>
    rw [List.count_cons_of_ne (by decide)] at le ⊢
    rw [List.countP_cons_of_neg Bool.false_ne_true,ih le]
  | case3 fs ih =>
    rw [List.count_cons_self] at le
    exact absurd le (Nat.not_succ_le_zero _)
  | case4 fs v vs ih =>
    rw [List.count_cons_self] at le ⊢
    rw [List.countP_cons_of_pos rfl,ih (Nat.le_of_succ_le_succ le)]

theorem spreadTake (fs : List Bool) (vs : List α) (t : Nat) : (spread fs vs).take t = spread (fs.take t) vs := by
  fun_induction spread fs vs generalizing t with
  | case1 => rw [List.take_nil,List.take_nil,spread]
  | case2 vs fs ih => cases t with
    | zero => rfl
    | succ t => rw [List.take_succ_cons,List.take_succ_cons,spread,ih]
  | case3 fs ih => cases t with
    | zero => rfl
    | succ t => rw [List.take_succ_cons,List.take_succ_cons,spread,ih]
  | case4 fs v vs ih => cases t with
    | zero => rfl
    | succ t => rw [List.take_succ_cons,List.take_succ_cons,spread,ih]

theorem spreadDrop (fs : List Bool) (vs : List α) (s : Nat) :
    (spread fs vs).drop s = spread (fs.drop s) (vs.drop ((fs.take s).count true)) := by
  fun_induction spread fs vs generalizing s with
  | case1 => rw [List.drop_nil,List.drop_nil,spread]
  | case2 vs fs ih => cases s with
    | zero => rfl
    | succ s => rw [List.drop_succ_cons,List.drop_succ_cons,ih,List.take_succ_cons,List.count_cons_of_ne (by decide)]
  | case3 fs ih => cases s with
    | zero => rfl
    | succ s => rw [List.drop_succ_cons,List.drop_succ_cons,ih,List.drop_nil,List.drop_nil]
  | case4 fs v vs ih => cases s with
    | zero => rfl
    | succ s => rw [List.drop_succ_cons,List.drop_succ_cons,ih,List.take_succ_cons,List.count_cons_self,List.drop_succ_cons]

end

def held : Cell → Cell
  | .text s => .text (cstr s)
  | c => c

def slotOf : Option Cell → Slot
  | none => .null
  | some c => .cell c

section
variable {ty : PqType} {p : Bytes} {cells : List Cell} {k : Nat}

theorem fixedText {w : Nat} {cell : Bytes → Cell} (fixed : ty.fixed = some (w,cell)) : (∀ b, held (cell b) = cell b) ∧ 0 < w := by
  cases ty <;> cases fixed <;> exact ⟨fun _ => rfl,by decide⟩

theorem writeValue {c : Cell} {rest : Bytes} (is : plainValue ty p = some (c,rest)) (bit : Nat) :
    writePlainVal ty bit p = (.cell (held c),rest) ∧ dictEntry ty p = (.cell (held c),rest) ∧ p ≠ [] := by
  rw [plainValue] at is
  rw [writePlainVal,dictEntry]
  cases fixed : ty.fixed with
  | some v =>
    obtain ⟨w,cell⟩ := v
    rw [fixed] at is
    dsimp only at is ⊢
    split at is
    · cases is
    · rename_i long
      cases is
      have some_ : p ≠ [] := fun empty => long (empty ▸ (fixedText fixed).2)
      rw [if_neg long,if_neg long,(fixedText fixed).1]
      exact ⟨rfl,rfl,some_⟩
  | none =>
    rw [fixed] at is
    dsimp only at is ⊢
    split at is
    · rename_i text
      cases is
      have short : ¬ p.length < 4 := by omega
      have some_ : p ≠ [] := fun empty => short (empty ▸ by decide)
      rw [if_pos text.1,if_pos text.1,if_neg short,if_neg short]
      exact ⟨rfl,rfl,some_⟩
    · cases is

theorem skipOne {c : Cell} {rest : Bytes} (is : plainValue ty p = some (c,rest)) (j : Nat) : skipPlain ty (j + 1) p = skipPlain ty j rest := by
  rw [plainValue] at is
  rw [skipPlain,skipPlain,if_neg (Nat.succ_ne_zero j)]
  cases fixed : ty.fixed with
  | some v =>
    obtain ⟨w,cell⟩ := v
    rw [fixed] at is
    dsimp only at is ⊢
    split at is
    · cases is
    · cases is
      rw [List.drop_drop,Nat.mul_succ,Nat.add_comm]
      split
      · rename_i zero
        rw [zero,Nat.mul_zero,Nat.add_zero]
      · rfl
  | none =>
    rw [fixed] at is
    dsimp only at is ⊢
    split at is
    · rename_i text
      cases is
      rw [if_pos text.1,if_pos text.1,skipTexts,if_neg (by omega)]
      split
      · rename_i zero
        rw [zero,skipTexts]
      · rfl
    · cases is

theorem plainStep (bytes : plainValues ty (k + 1) p = some cells) :
    ∃ c rest cs, plainValue ty p = some (c,rest) ∧ plainValues ty k rest = some cs ∧ cells = c :: cs := by
  rw [plainValues,Option.bind_eq_some_iff] at bytes
  obtain ⟨⟨c,rest⟩,first,bytes⟩ := bytes
  obtain ⟨cs,more,rfl⟩ := Option.map_eq_some_iff.mp bytes
  exact ⟨c,rest,cs,first,more,rfl⟩

theorem plainLength (bytes : plainValues ty k p = some cells) : cells.length = k := by
  induction k generalizing p cells with
  | zero => cases bytes; rfl
  | succ k ih =>
    obtain ⟨c,rest,cs,_,more,rfl⟩ := plainStep bytes
    rw [List.length_cons,ih more]

theorem plainSkip {j : Nat} (le : j ≤ k) (bytes : plainValues ty k p = some cells) :
    plainValues ty (k - j) (skipPlain ty j p) = some (cells.drop j) := by
  induction j generalizing p cells k with
  | zero => rwa [skipPlain,if_pos rfl,List.drop_zero]
  | succ j ih =>
    obtain ⟨k,rfl⟩ : ∃ i, k = i + 1 := ⟨k - 1,by omega⟩
    obtain ⟨c,rest,cs,first,more,rfl⟩ := plainStep bytes
    rw [skipOne first,Nat.add_sub_add_right,List.drop_succ_cons]
    exact ih (Nat.le_of_succ_le_succ le) more

theorem plainTyped (bytes : plainValues ty k p = some cells) (some_ : cells ≠ []) : ty ≠ .other ∧ ty ≠ .boolean := by
  cases k with
  | zero => cases bytes; exact absurd rfl some_
  | succ k =>
    obtain ⟨c,rest,cs,first,_⟩ := plainStep bytes
    constructor <;> rintro rfl <;> cases first

theorem plainSlotsIs {fs : List Bool} (le : fs.count true ≤ k) (bytes : plainValues ty k p = some cells) (bit : Nat) :
    plainSlots ty fs bit p = (spread fs cells).map fun o => slotOf (o.map held) := by
  induction fs generalizing k p cells bit with
  | nil => rfl
  | cons f fs ih =>
    cases f with
    | false =>
      rw [plainSlots,spread,List.map_cons,ih (by rwa [List.count_cons_of_ne (by decide)] at le) bytes]
      rfl
    | true =>
      rw [List.count_cons_self] at le
      obtain ⟨k,rfl⟩ : ∃ i, k = i + 1 := ⟨k - 1,by omega⟩
      obtain ⟨c,rest,cs,first,more,rfl⟩ := plainStep bytes
      rw [plainSlots,spread,List.map_cons,(writeValue first bit).1,ih (Nat.le_of_succ_le_succ le) more]
      rfl

theorem dictEntriesIs (bytes : plainValues ty k p = some cells) : dictEntries ty k p = cells.map fun c => .cell (held c) := by
  induction k generalizing p cells with
  | zero => cases bytes; rfl
  | succ k ih =>
    obtain ⟨c,rest,cs,first,more,rfl⟩ := plainStep bytes
    obtain ⟨_,entry,some_⟩ := writeValue first 0
    rw [dictEntries,if_neg some_,entry,ih more,List.map_cons]

theorem boolSlotsIs {fs : List Bool} {m bit : Nat} (le : fs.count true ≤ m) :
    plainSlots .boolean fs bit p = (spread fs ((List.range' bit m).map fun i => Cell.int (bitAt p i))).map slotOf := by
  induction fs generalizing m bit with
  | nil => rfl
  | cons f fs ih =>
    cases f with
    | false =>
      rw [plainSlots,spread,List.map_cons,ih (m := m) (by rwa [List.count_cons_of_ne (by decide)] at le)]
      rfl
    | true =>
      rw [List.count_cons_self] at le
      obtain ⟨m,rfl⟩ : ∃ i, m = i + 1 := ⟨m - 1,by omega⟩
      rw [List.range'_succ,List.map_cons,plainSlots,spread,List.map_cons,if_pos rfl,← ih (Nat.le_of_succ_le_succ le)]
      rfl

theorem noBits {fs : List Bool} {bit : Nat} {vs : List Cell} (le : fs.count true ≤ vs.length) :
    plainSlots .boolean fs bit [] = (spread fs vs).map fun o => slotOf (o.map fun _ => .int 0) := by
  induction fs generalizing vs bit with
  | nil => rfl
  | cons f fs ih =>
    cases f with
    | false =>
      rw [plainSlots,spread,List.map_cons,ih (by rwa [List.count_cons_of_ne (by decide)] at le)]
      rfl
    | true =>
      rw [List.count_cons_self] at le
      cases vs with
      | nil => exact absurd le (Nat.not_succ_le_zero _)
      | cons v vs =>
        have zero : bitAt [] bit = 0 := by simp [bitAt]
        rw [plainSlots,spread,List.map_cons,if_pos rfl]
        show Slot.cell (.int (bitAt [] bit)) :: plainSlots .boolean fs (bit + 1) [] = _
        rw [zero,ih (Nat.le_of_succ_le_succ le)]
        rfl

/-! ### Indices -/

theorem lookupsLength {dict : List Cell} {idx : List Nat} (is : lookups dict idx = some cells) : cells.length = idx.length := by
  induction idx generalizing cells with
  | nil => cases is; rfl
  | cons i idx ih =>
    rw [lookups,Option.bind_eq_some_iff] at is
    obtain ⟨c,_,is⟩ := is
    obtain ⟨cs,more,rfl⟩ := Option.map_eq_some_iff.mp is
    rw [List.length_cons,List.length_cons,ih more]

theorem lookupsDrop {dict : List Cell} {idx : List Nat} (is : lookups dict idx = some cells) (j : Nat) :
    lookups dict (idx.drop j) = some (cells.drop j) := by
  induction j generalizing idx cells with
  | zero => exact is
  | succ j ih =>
    cases idx with
    | nil => cases is; rfl
    | cons i idx =>
      rw [lookups,Option.bind_eq_some_iff] at is
      obtain ⟨c,_,is⟩ := is
      obtain ⟨cs,more,rfl⟩ := Option.map_eq_some_iff.mp is
      exact ih more

theorem dictSlotsIs {dict : List Cell} {idx : List Nat} {fs : List Bool} (ty_ : ty ≠ .other) (le : fs.count true ≤ idx.length)
    (is : lookups dict idx = some cells) :
    dictSlots ty (dict.map fun c => .cell (held c)) fs idx = (spread fs cells).map fun o => slotOf (o.map held) := by
  induction fs generalizing idx cells with
  | nil => rfl
  | cons f fs ih =>
    cases f with
    | false =>
      rw [dictSlots,spread,List.map_cons,ih (by rwa [List.count_cons_of_ne (by decide)] at le) is]
      rfl
    | true =>
      rw [List.count_cons_self] at le
      cases idx with
      | nil => exact absurd le (Nat.not_succ_le_zero _)
      | cons i idx =>
        rw [lookups,Option.bind_eq_some_iff] at is
        obtain ⟨c,here,is⟩ := is
        obtain ⟨cs,more,rfl⟩ := Option.map_eq_some_iff.mp is
        rw [dictSlots,spread,List.map_cons,ih (Nat.le_of_succ_le_succ le) more,writeDictVal,List.getElem?_map,here]
        exact congrArg (· :: _) (if_neg ty_)

end

/-! ### One page -/

/-- The bytes of the values are compressed and are not taken as such. -/
def Raw (col : Column) (ph : PageHdr) : Prop :=
  ph.pageType = pqDataV2 ∧ col.optional = false ∧ col.codec ≠ pqUncomp ∧ ph.v2Compressed = true

/-- The value that is read in the place of a value with `nn` values before it in its page. -/
def readAs (ty : PqType) (nn : Nat) (c : Cell) : Cell := if ty = .boolean ∧ nn ≠ 0 then .int 0 else held c

section
variable {decompress : Decompress} {col : Column} {ph : PageHdr} {comp lvls values : Bytes} {dict : List Cell} {cells : List Cell}

theorem loadUnpacked (other : ph.pageType ≠ pqDataV2) {body : Bytes}
    (is : unpack decompress col comp ph.uncompressedSize.toNat = some body) : loadBody decompress col ph comp = body := by
  rw [unpack] at is
  rw [loadBody]
  split at is
  · rename_i uncomp
    cases is
    rw [if_neg]
    rw [uncomp]
    exact fun packed => absurd packed.1 (by decide)
  · split at is
    · rename_i packed
      rw [if_pos ⟨packed,other⟩,is]
      rfl
    · cases is

theorem levelsSections (fit : ¬ Raw col ph) (is : sections decompress col ph comp = some (lvls,values)) :
    levels decompress col ph (loadBody decompress col ph comp) =
      (if col.optional then some (rleBpDec lvls 1 ph.numValues.toNat) else none,values) := by
  rw [sections] at is
  rw [levels]
  by_cases v2 : ph.pageType = pqDataV2
  · rw [if_pos v2] at is
    have body : loadBody decompress col ph comp = comp := if_neg fun packed => packed.2 v2
    rw [body,if_pos v2]
    dsimp only
    cases opt : col.optional with
    | false =>
      rw [opt] at is
      rw [if_pos rfl]
      split at is
      · cases is
      · rename_i none_
        have zero : ph.defBytes = 0 := not_not.mp fun some_ => none_ ⟨rfl,some_⟩
        have plain : (if ph.v2Compressed then unpack decompress col ((comp.drop ph.repBytes.toNat).drop ph.defBytes.toNat)
            (ph.uncompressedSize - ph.defBytes - ph.repBytes).toNat else some ((comp.drop ph.repBytes.toNat).drop ph.defBytes.toNat)) =
            some (comp.drop ph.repBytes.toNat) := by
          rw [zero]
          split
          · rename_i packed
            exact if_pos (not_not.mp fun codec => fit ⟨v2,opt,codec,packed⟩)
          · rfl
        dsimp only at is
        rw [plain] at is
        cases is
        rfl
    | true =>
      rw [opt,if_neg fun both => nomatch both.1] at is
      obtain ⟨vals,unpacked,is⟩ := Option.map_eq_some_iff.mp is
      cases is
      rw [if_neg (by decide),if_pos v2]
      split at unpacked
      · rename_i packed
        rw [unpack] at unpacked
        split at unpacked
        · rename_i uncomp
          cases unpacked
          rw [if_neg fun both => both.1 uncomp]
          rfl
        · rename_i codec
          split at unpacked
          · rw [if_pos ⟨codec,packed⟩,unpacked]
            rfl
          · cases unpacked
      · rename_i packed
        cases unpacked
        rw [if_neg fun both => packed both.2]
        rfl
  · rw [if_neg v2,Option.bind_eq_some_iff] at is
    obtain ⟨body,unpacked,is⟩ := is
    rw [loadUnpacked v2 unpacked,if_neg v2]
    dsimp only
    cases opt : col.optional with
    | false =>
      rw [opt,if_pos rfl] at is
      cases is
      rfl
    | true =>
      rw [opt,if_neg (by decide)] at is
      split at is
      · cases is
      · rename_i long
        cases is
        rw [if_neg (by decide),if_neg v2,if_neg long]
        rfl

theorem cellsLength {k : Nat} (is : pageCells col dict ph k values = some cells) : cells.length = k := by
  unfold pageCells at is
  split at is
  · rename_i zero
    cases is
    exact zero.symm
  split at is
  · split at is
    · cases is
    · split at is
      · rename_i length
        rw [lookupsLength is,length]
      · cases is
  split at is
  · rw [plainCells] at is
    split at is
    · split at is
      · cases is
        rw [List.length_map,List.length_range]
      · cases is
    · exact plainLength is
  · cases is

theorem noIndices (data : Bytes) (bw : Nat) : rleDictDec data bw 0 = [] := by
  rw [rleDictDec]
  split
  · rfl
  · cases data.length with
    | zero => rw [rleDictGo]
    | succ n => rw [rleDictGo,if_pos (.inr rfl)]

theorem indicesOf {k : Nat} (is : pageCells col dict ph k values = some cells) (enc : ph.encoding = 2 ∨ ph.encoding = 8) :
    lookups dict (rleDictDec (values.drop 1) (values.headD 0).toNat k) = some cells ∧
      (rleDictDec (values.drop 1) (values.headD 0).toNat k).length = k := by
  unfold pageCells at is
  split at is
  · rename_i zero
    cases is
    rw [zero,noIndices]
    exact ⟨rfl,rfl⟩
  split at is
  · cases is
  · split at is
    · rename_i length
      exact ⟨is,length⟩
    · cases is

theorem plainOf {k : Nat} (is : pageCells col dict ph k values = some cells)
    (noDict : ¬ ((ph.encoding = 2 ∨ ph.encoding = 8) ∧ dict ≠ [])) :
    k = 0 ∧ cells = [] ∨ plainCells col.pqType k values = some cells := by
  unfold pageCells at is
  split at is
  · rename_i zero
    cases is
    exact .inl ⟨zero,rfl⟩
  rename_i some_
  split at is
  · rename_i enc
    obtain rfl : dict = [] := not_not.mp fun full => noDict ⟨enc,full⟩
    split at is
    · cases is
    · split at is
      · rename_i length
        cases idx : rleDictDec _ _ k with
        | nil => rw [idx] at length; exact absurd length.symm some_
        | cons i idx' => rw [idx] at is; cases is
      · cases is
  split at is
  · exact .inr is
  · cases is

/-- The rows that are taken hold their values, or what is read in their place. -/
theorem slotsSpread {part : List Bool} {k nn : Nat} (le : nn + part.count true ≤ k) (is : pageCells col dict ph k values = some cells)
    (entries : dict ≠ [] → col.pqType ≠ .other ∧ col.pqType ≠ .boolean) :
    (if (ph.encoding = 2 ∨ ph.encoding = 8) ∧ dict.map (fun c => Slot.cell (held c)) ≠ [] then
      dictSlots col.pqType (dict.map fun c => .cell (held c)) part ((rleDictDec (values.drop 1) (values.headD 0).toNat k).drop nn)
    else plainSlots col.pqType part nn (skipPlain col.pqType nn values)) =
    (spread part (cells.drop nn)).map fun o => slotOf (o.map (readAs col.pqType nn)) := by
  have sighted (see : ¬ (col.pqType = .boolean ∧ nn ≠ 0)) : readAs col.pqType nn = held := funext fun c => if_neg see
  by_cases coded : (ph.encoding = 2 ∨ ph.encoding = 8) ∧ dict ≠ []
  · obtain ⟨look,length⟩ := indicesOf is coded.1
    obtain ⟨other,bool⟩ := entries coded.2
    rw [if_pos ⟨coded.1,fun empty => coded.2 (List.map_eq_nil_iff.mp empty)⟩,sighted fun both => bool both.1]
    exact dictSlotsIs other (by rw [List.length_drop,length]; omega) (lookupsDrop look nn)
  · rw [if_neg fun both => coded ⟨both.1,fun empty => both.2 (List.map_eq_nil_iff.mpr empty)⟩]
    rcases plainOf is coded with ⟨rfl,rfl⟩ | bytes
    · obtain rfl : nn = 0 := by omega
      rw [sighted fun both => both.2 rfl,skipPlain,if_pos rfl]
      exact plainSlotsIs (k := 0) (by omega) rfl 0
    · have length := cellsLength is
      rw [plainCells] at bytes
      split at bytes
      · rename_i bool
        split at bytes
        · rw [bool]
          by_cases zero : nn = 0
          · subst zero
            cases bytes
            have same : (fun o : Option Cell => slotOf (o.map (readAs .boolean 0))) = fun o => slotOf (o.map held) := by
              rw [← bool,sighted fun both => both.2 rfl]
            have ints : ((List.range k).map fun i => Cell.int (bitAt values i)).map held =
                (List.range k).map fun i => .int (bitAt values i) := by
              rw [List.map_map]
              rfl
            rw [skipPlain,if_pos rfl,boolSlotsIs (m := k) (by omega),same,← List.range_eq_range',List.drop_zero]
            conv_lhs => rw [← ints,← spreadMap,List.map_map]
            rfl
          · rw [skipPlain,if_neg zero]
            have blind : readAs .boolean nn = fun _ => .int 0 := funext fun c => if_pos ⟨rfl,zero⟩
            rw [blind]
            exact noBits (by rw [List.length_drop,length]; omega)
        · cases bytes
      · rename_i bool
        rw [sighted fun both => bool both.1]
        exact plainSlotsIs (by omega) (plainSkip (by omega) bytes) nn

theorem pageSlotsIs {pg : Page} {rows : List (Option Cell)} (fit : ¬ Raw col pg.hdr) (is : pageRows decompress col dict pg = some rows)
    (entries : dict ≠ [] → col.pqType ≠ .other ∧ col.pqType ≠ .boolean) (skip take : Nat) :
    rows.length = pg.hdr.numValues.toNat ∧
    pageSlots decompress col (dict.map fun c => .cell (held c)) pg.hdr pg.body skip take =
      ((rows.drop skip).take take).map fun o => slotOf (o.map (readAs col.pqType ((rows.take skip).countP Option.isSome))) := by
  rw [pageRows,Option.bind_eq_some_iff] at is
  obtain ⟨⟨lvls,values⟩,split_,is⟩ := is
  obtain ⟨fs,defined,is⟩ := Option.bind_eq_some_iff.mp is
  obtain ⟨cells,values_,rfl⟩ := Option.map_eq_some_iff.mp is
  have both : fs.length = pg.hdr.numValues.toNat ∧
      definedBy pg.hdr (if col.optional then some (rleBpDec lvls 1 pg.hdr.numValues.toNat) else none) = fs := by
    rw [definedRows] at defined
    cases opt : col.optional with
    | false =>
      rw [opt,if_pos rfl] at defined
      cases defined
      exact ⟨List.length_replicate,rfl⟩
    | true =>
      rw [opt,if_neg (by decide)] at defined
      split at defined
      · rename_i length
        cases defined
        exact ⟨by rw [List.length_map,length],rfl⟩
      · cases defined
  have length := cellsLength values_
  have parts : (fs.take skip).count true + (fs.drop skip).count true = fs.count true := by rw [← List.count_append,List.take_append_drop]
  have taken : ((fs.drop skip).take take).count true ≤ (fs.drop skip).count true := (List.take_sublist ..).count_le _
  have count : ((spread fs cells).take skip).countP Option.isSome = (fs.take skip).count true := by
    rw [spreadTake]
    exact spreadCount (by omega)
  refine ⟨by rw [spreadLength,both.1],?_⟩
  rw [pageSlots,levelsSections fit split_]
  dsimp only
  rw [both.2,count,spreadDrop,spreadTake]
  exact slotsSpread (by omega) values_ entries

end

/-! ### The range -/

/-- The pages that rows are taken from, by how many rows stand before the first one and how many there are. -/
def touched : Nat → Nat → List Page → List Page
  | _, _, [] => []
  | s, k, pg :: pgs =>
    if k = 0 then []
    else if pg.rows ≤ s then touched (s - pg.rows) k pgs
    else pg :: touched 0 (k - (pg.rows - s)) pgs

/-- How many of the rows that are read first are read without bits: those of a page of booleans with a value before them. -/
def blind (ty : PqType) : Nat → List Page → List (Option Cell) → Nat
  | _, [], _ => 0
  | s, pg :: pgs, rows =>
    if pg.rows ≤ s then blind ty (s - pg.rows) pgs (rows.drop pg.rows)
    else if ty = .boolean ∧ (rows.take s).any Option.isSome then pg.rows - s
    else 0

/-- What is written for a range of rows whose first `b` are read without bits. -/
def shown (b : Nat) (range : List (Option Cell)) : List Slot :=
  ((range.take b).map fun o => slotOf (o.map fun _ => .int 0)) ++ (range.drop b).map fun o => slotOf (o.map held)

theorem shownNone (range : List (Option Cell)) : shown 0 range = range.map fun o => slotOf (o.map held) := rfl

theorem blindFirst (ty : PqType) (pgs : List Page) (rows : List (Option Cell)) : blind ty 0 pgs rows = 0 := by
  induction pgs generalizing rows with
  | nil => rfl
  | cons pg pgs ih =>
    rw [blind]
    split
    · rw [Nat.zero_sub]
      exact ih _
    · rw [if_neg]
      rw [List.take_zero]
      exact fun both => nomatch both.2

section
variable {decompress : Decompress} {col : Column} {n : Nat} {file : Bytes} {start nrows : Nat}

theorem rowsData {dict : List Cell} {pg : Page} {rows : List (Option Cell)} (data : pg.isData)
    (is : pageRows decompress col dict pg = some rows) : rows.length = pg.rows := by
  rw [pageRows,Option.bind_eq_some_iff] at is
  obtain ⟨⟨lvls,values⟩,_,is⟩ := is
  obtain ⟨fs,defined,is⟩ := Option.bind_eq_some_iff.mp is
  obtain ⟨cells,_,rfl⟩ := Option.map_eq_some_iff.mp is
  rw [spreadLength,Page.rows,if_pos data]
  rw [definedRows] at defined
  split at defined
  · cases defined
    exact List.length_replicate
  · split at defined
    · rename_i length
      cases defined
      rw [List.length_map,length]
    · cases defined

theorem touchedPast {s k : Nat} {pg : Page} {pgs : List Page} (some_ : 0 < k) (past : pg.rows ≤ s) :
    touched s k (pg :: pgs) = touched (s - pg.rows) k pgs := by
  rw [touched,if_neg (Nat.ne_of_gt some_),if_pos past]

/-- Nothing is taken of a page before the first row. -/
theorem shownPast {ty : PqType} {s k : Nat} {pg : Page} {pgs : List Page} {here rest : List (Option Cell)} (length : here.length = pg.rows)
    (past : pg.rows ≤ s) :
    shown (blind ty s (pg :: pgs) (here ++ rest)) (((here ++ rest).drop s).take k) =
      shown (blind ty (s - pg.rows) pgs rest) ((rest.drop (s - pg.rows)).take k) := by
  have first : (here ++ rest).drop pg.rows = rest := by rw [← length,List.drop_left]
  have behind : (here ++ rest).drop s = rest.drop (s - pg.rows) := by
    rw [List.drop_append,List.drop_of_length_le (by omega),List.nil_append,length]
  rw [blind,if_pos past,first,behind]

theorem shownPage {ty : PqType} {s k : Nat} {pg : Page} {pgs : List Page} {here rest : List (Option Cell)} (length : here.length = pg.rows)
    (inside : s < pg.rows) :
    shown (blind ty s (pg :: pgs) (here ++ rest)) (((here ++ rest).drop s).take k) =
      (((here.drop s).take k).map fun o => slotOf (o.map (readAs ty ((here.take s).countP Option.isSome)))) ++
        shown 0 (rest.take (k - (pg.rows - s))) := by
  have range : ((here ++ rest).drop s).take k = (here.drop s).take k ++ rest.take (k - (pg.rows - s)) := by
    rw [List.drop_append_of_le_length (by omega),List.take_append,List.length_drop,length]
  have size : ((here.drop s).take k).length = min k (pg.rows - s) := by rw [List.length_take,List.length_drop,length]
  have before : (here ++ rest).take s = here.take s := List.take_append_of_le_length (by omega)
  have counted : (here.take s).any Option.isSome = true ↔ (here.take s).countP Option.isSome ≠ 0 := by
    rw [List.any_eq_true,← List.countP_pos_iff,Nat.pos_iff_ne_zero]
  rw [range,shownNone,blind,if_neg (by omega),before]
  split
  · rename_i dark
    have zeros : readAs ty ((here.take s).countP Option.isSome) = fun _ => .int 0 := funext fun c => if_pos ⟨dark.1,counted.mp dark.2⟩
    rw [zeros,shown]
    by_cases most : k ≤ pg.rows - s
    · have all : ((here.drop s).take k).take (pg.rows - s) = (here.drop s).take k := List.take_of_length_le (by omega)
      have none_ : ((here.drop s).take k).drop (pg.rows - s) = [] := List.drop_of_length_le (by omega)
      rw [Nat.sub_eq_zero_of_le most,List.take_zero,List.append_nil,all,none_]
    · rw [List.take_left' (by omega),List.drop_left' (by omega)]
  · rename_i lit
    have same : readAs ty ((here.take s).countP Option.isSome) = held :=
      funext fun c => if_neg fun both => lit ⟨both.1,counted.mpr both.2⟩
    rw [shownNone,List.map_append,same]

theorem takeNothing (dict : List Slot) (ph : PageHdr) (comp : Bytes) (skip : Nat) : pageSlots decompress col dict ph comp skip 0 = [] := by
  rw [pageSlots]
  dsimp only
  rw [List.take_zero]
  split
  · rw [dictSlots]
  · rw [plainSlots]

/-- The state behind a page. -/
def behindPage (decompress : Decompress) (col : Column) (start nrows : Nat) (st : ReadState) (pg : Page) : ReadState :=
  let st := {st with pos := st.pos + pg.hdr.hdrBytes + pg.hdr.compressedSize.toNat}
  if pg.hdr.pageType = pqDictPage then
    {st with dict := dictEntries col.pqType pg.hdr.numValues.toNat (loadBody decompress col pg.hdr pg.body)}
  else if ¬ pg.isData then st
  else if st.rowsSeen + pg.rows ≤ start then {st with rowsSeen := st.rowsSeen + pg.rows}
  else
    {st with
      rowsSeen := st.rowsSeen + pg.rows
      out := st.out ++ pageSlots decompress col st.dict pg.hdr pg.body (start - st.rowsSeen)
        (min (pg.rows - (start - st.rowsSeen)) (nrows - st.out.length))}

theorem behindPos (st : ReadState) (pg : Page) :
    (behindPage decompress col start nrows st pg).pos = st.pos + pg.hdr.hdrBytes + pg.hdr.compressedSize.toNat := by
  rw [behindPage]
  split
  · rfl
  split
  · rfl
  split <;> rfl

/-- A round reads a page that lies there. -/
theorem readLaid (decompress : Decompress) (col : Column) (start nrows : Nat) {st : ReadState} {pg : Page} {pgs : List Page}
    (laid : Laid n file st.pos (pg :: pgs)) :
    readPage decompress col n file start nrows st = .next (behindPage decompress col start nrows st pg) ∧
      Laid n file (behindPage decompress col start nrows st pg).pos pgs := by
  cases laid with
  | cons here read sizes body whole rest =>
    refine ⟨?_,by rw [behindPos]; exact rest⟩
    have known : ¬ (pg.hdr.compressedSize < 0 ∨ pg.hdr.numValues < 0) := by omega
    rw [readPage,behindPage]
    dsimp only
    rw [if_neg here,read]
    dsimp only
    rw [if_neg known,body]
    by_cases isDict : pg.hdr.pageType = pqDictPage
    · rw [if_pos isDict,if_pos isDict,if_pos whole]
    rw [if_neg isDict,if_neg isDict]
    by_cases data : pg.isData
    · have rows : pg.rows = pg.hdr.numValues.toNat := if_pos data
      rw [if_neg (by rw [← not_or,not_not]; exact data),if_neg (not_not.mpr data),rows,if_pos whole]
      split <;> rfl
    · rw [if_pos (by rw [← not_or]; exact data),if_pos data]

/-- One page behind what is read: the same, said of the rows that are left. -/
theorem pagesIs {pages : List Page} {st : ReadState} {dict : List Cell} {rows : List (Option Cell)} {m : Nat}
    (laid : Laid n file st.pos pages) (full : fullDecode decompress col dict pages = some rows)
    (held_ : st.dict = dict.map fun c => .cell (held c)) (entries : dict ≠ [] → col.pqType ≠ .other ∧ col.pqType ≠ .boolean)
    (total : col.numValues = st.rowsSeen + rows.length)
    (fit : ∀ pg ∈ touched (start - st.rowsSeen) (nrows - st.out.length) pages, ¬ Raw col pg.hdr) (rounds : pages.length < m) :
    readPages decompress col n file start nrows m st = some (st.out ++
      shown (blind col.pqType (start - st.rowsSeen) pages rows) ((rows.drop (start - st.rowsSeen)).take (nrows - st.out.length))) := by
  induction pages generalizing st dict rows m with
  | nil =>
    cases full
    obtain ⟨m,rfl⟩ : ∃ i, m = i + 1 := ⟨m - 1,by rw [List.length_nil] at rounds; omega⟩
    rw [readPages,if_pos (.inr (by rw [total]; exact Nat.le_refl _)),List.drop_nil,List.take_nil]
    exact congrArg some (List.append_nil _).symm
  | cons pg pgs ih =>
    obtain ⟨m,rfl⟩ : ∃ i, m = i + 1 := ⟨m - 1,by omega⟩
    rw [List.length_cons] at rounds
    rw [readPages]
    by_cases done : nrows ≤ st.out.length ∨ col.numValues ≤ st.rowsSeen
    · have nothing : (rows.drop (start - st.rowsSeen)).take (nrows - st.out.length) = [] := by
        rcases done with done | done
        · rw [Nat.sub_eq_zero_of_le done,List.take_zero]
        · have none_ : rows = [] := List.eq_nil_of_length_eq_zero (by omega)
          rw [none_,List.drop_nil,List.take_nil]
      rw [if_pos done,nothing,shown,List.take_nil,List.drop_nil]
      exact congrArg some (List.append_nil _).symm
    obtain ⟨round,rest⟩ := readLaid decompress col start nrows laid
    rw [if_neg done,round]
    rw [not_or,Nat.not_le,Nat.not_le] at done
    have left : 0 < nrows - st.out.length := by omega
    rw [fullDecode] at full
    rw [behindPage] at rest ⊢
    by_cases isDict : pg.hdr.pageType = pqDictPage
    · rw [if_pos isDict,Option.bind_eq_some_iff] at full
      obtain ⟨q,unpacked,full⟩ := full
      obtain ⟨dict',values,full⟩ := Option.bind_eq_some_iff.mp full
      have noRows : pg.rows = 0 := if_neg (by rw [Page.isData,isDict]; decide)
      have past : pg.rows ≤ start - st.rowsSeen := noRows ▸ Nat.zero_le _
      rw [touchedPast left past,noRows,Nat.sub_zero] at fit
      have none_ : ([] : List (Option Cell)).length = pg.rows := noRows.symm
      rw [← List.nil_append rows,shownPast none_ past,noRows,Nat.sub_zero]
      rw [if_pos isDict,loadUnpacked (by rw [isDict]; decide) unpacked,dictEntriesIs values] at rest ⊢
      exact ih rest full rfl (plainTyped values) total fit (by omega)
    rw [if_neg isDict] at full rest ⊢
    by_cases data : pg.isData
    · rw [if_neg (not_not.mpr data),Option.bind_eq_some_iff] at full
      obtain ⟨here,decoded,full⟩ := full
      obtain ⟨later,more,rfl⟩ := Option.map_eq_some_iff.mp full
      have length := rowsData data decoded
      rw [if_neg (not_not.mpr data)] at rest ⊢
      have total' : col.numValues = st.rowsSeen + pg.rows + later.length := by rw [total,List.length_append]; omega
      dsimp only at rest ⊢
      by_cases before : st.rowsSeen + pg.rows ≤ start
      · have past : pg.rows ≤ start - st.rowsSeen := by omega
        rw [touchedPast left past,Nat.sub_sub] at fit
        rw [if_pos before] at rest ⊢
        rw [shownPast length past,Nat.sub_sub]
        exact ih rest more held_ entries total' fit (by omega)
      have first : start - (st.rowsSeen + pg.rows) = 0 := by omega
      rw [if_neg before] at rest ⊢
      by_cases noRows : pg.rows = 0
      · have past : pg.rows ≤ start - st.rowsSeen := noRows ▸ Nat.zero_le _
        rw [touchedPast left past,noRows,Nat.sub_zero] at fit
        rw [shownPast length past]
        rw [noRows,Nat.zero_sub,Nat.zero_min,takeNothing,List.append_nil] at rest ⊢
        exact ih rest more held_ entries (by rw [total',noRows]) fit (by omega)
      have inside : start - st.rowsSeen < pg.rows := by omega
      rw [touched,if_neg (Nat.ne_of_gt left),if_neg (Nat.not_le.mpr inside)] at fit
      obtain ⟨_,slots⟩ := pageSlotsIs (fit pg List.mem_cons_self) decoded entries (start - st.rowsSeen)
        (min (pg.rows - (start - st.rowsSeen)) (nrows - st.out.length))
      have taken : (here.drop (start - st.rowsSeen)).take (min (pg.rows - (start - st.rowsSeen)) (nrows - st.out.length)) =
          (here.drop (start - st.rowsSeen)).take (nrows - st.out.length) := by
        rw [List.take_eq_take_iff,List.length_drop]
        omega
      have size : ((here.drop (start - st.rowsSeen)).take (nrows - st.out.length)).length =
          min (nrows - st.out.length) (pg.rows - (start - st.rowsSeen)) := by rw [List.length_take,List.length_drop,length]
      have room : nrows - (st.out.length + min (nrows - st.out.length) (pg.rows - (start - st.rowsSeen))) =
          nrows - st.out.length - (pg.rows - (start - st.rowsSeen)) := by omega
      rw [held_,slots,taken] at rest ⊢
      have next := ih (m := m) rest more rfl entries total'
      rw [List.length_append,List.length_map,size,first,blindFirst,List.drop_zero,room] at next
      rw [shownPage length inside,← List.append_assoc]
      exact next (fun pg mem => fit pg (List.mem_cons_of_mem _ mem)) (by omega)
    · have noRows : pg.rows = 0 := if_neg data
      have past : pg.rows ≤ start - st.rowsSeen := noRows ▸ Nat.zero_le _
      rw [if_pos data] at full rest ⊢
      rw [touchedPast left past,noRows,Nat.sub_zero] at fit
      have none_ : ([] : List (Option Cell)).length = pg.rows := noRows.symm
      rw [← List.nil_append rows,shownPast none_ past,noRows,Nat.sub_zero]
      exact ih rest full held_ entries total fit (by omega)

theorem heldIff (c : Cell) : held c = c ↔ ∀ s, c = .text s → (0 : UInt8) ∉ s := by
  cases c with
  | text s =>
    constructor
    · intro same t is
      cases is
      have cut : cstr s = s := Cell.text.inj same
      rw [← cut]
      exact fun mem => by simpa using List.mem_takeWhile_imp mem
    · intro clean
      exact congrArg Cell.text (cstrSelf (clean s rfl))
  | _ => exact ⟨fun _ s is => (nomatch is),fun _ => rfl⟩

theorem slotOfInj {o o' : Option Cell} (same : slotOf o = slotOf o') : o = o' := by
  cases o <;> cases o' <;> cases same <;> rfl

theorem shownIff (b : Nat) (range : List (Option Cell)) : shown b range = range.map slotOf ↔
    (∀ c, some c ∈ range.take b → c = .int 0) ∧ ∀ c, some c ∈ range.drop b → held c = c := by
  have parts : range.map slotOf = (range.take b).map slotOf ++ (range.drop b).map slotOf := by
    rw [← List.map_append,List.take_append_drop]
  have each (f : Cell → Cell) (part : List (Option Cell)) :
      (part.map fun o => slotOf (o.map f)) = part.map slotOf ↔ ∀ c, some c ∈ part → f c = c := by
    rw [List.map_inj_left]
    constructor
    · intro same c mem
      exact Option.some.inj (slotOfInj (same (some c) mem))
    · intro same o mem
      cases o with
      | none => rfl
      | some c => exact congrArg (fun c => slotOf (some c)) (same c mem)
  have zeros := each (fun _ => .int 0) (range.take b)
  have rest := each held (range.drop b)
  rw [shown,parts]
  constructor
  · intro same
    obtain ⟨first,second⟩ := List.append_inj same (by rw [List.length_map,List.length_map])
    exact ⟨fun c mem => (zeros.mp first c mem).symm,rest.mp second⟩
  · intro ⟨first,second⟩
    rw [zeros.mpr fun c mem => (first c mem).symm,rest.mpr second]

/-- What is read is the slice of the rows exactly when what is read without bits is false anyway and no text has a zero byte, as long as no
values are taken compressed. -/
theorem rangeIff {pages : List Page} {rows : List (Option Cell)} {m : Nat} (laid : Laid n file col.startOff pages)
    (full : fullDecode decompress col [] pages = some rows) (total : col.numValues = rows.length)
    (fit : ∀ pg ∈ touched start nrows pages, ¬ Raw col pg.hdr) (rounds : pages.length < m) :
    pqReadColRange decompress col n m file start nrows = some (((rows.drop start).take nrows).map slotOf) ↔
      (∀ c, some c ∈ ((rows.drop start).take nrows).take (blind col.pqType start pages rows) → c = .int 0) ∧
        ∀ s, some (.text s) ∈ (rows.drop start).take nrows → 0 ∉ s := by
  have read : pqReadColRange decompress col n m file start nrows =
      some (shown (blind col.pqType start pages rows) ((rows.drop start).take nrows)) := by
    rw [pqReadColRange]
    split
    · rename_i zero
      rw [zero,List.take_zero,shown,List.take_nil,List.drop_nil]
      rfl
    · exact @pagesIs decompress col n file start nrows pages ⟨col.startOff,0,[],[]⟩ [] rows m laid full rfl (fun some_ => absurd rfl some_)
        (by rw [total,Nat.zero_add]) fit rounds
  rw [read,Option.some.injEq,shownIff]
  refine and_congr_right fun dark => ⟨fun same s mem => ?_,fun clean c mem => (heldIff c).mpr fun s is => ?_⟩
  · rw [← List.take_append_drop (blind col.pqType start pages rows) ((rows.drop start).take nrows)] at mem
    rcases List.mem_append.mp mem with mem | mem
    · cases dark _ mem
    · exact (heldIff _).mp (same _ mem) s rfl
  · exact clean s (is ▸ List.mem_of_mem_drop mem)

end

/-! ### A page of booleans -/

/-- A page of two booleans behind the magic number of a file. -/
def bools (values : UInt8) : Bytes :=
  ascii "PAR1" ++ [0x15,0x00,0x15,0x02,0x15,0x02,0x2C,0x15,0x04,0x15,0x00,0x15,0x06,0x15,0x06,0x00,0x00,values]

def boolColumn : Column := ⟨4,0,2,.boolean,pqUncomp,false⟩

def boolPage (values : UInt8) : Page where
  hdr := {uncompressedSize := 1, compressedSize := 1, numValues := 2, defEnc := 3, hdrBytes := 17}
  body := [values]

theorem boolsLaid {values : UInt8} (read : pqParsePageHdr 9 (((bools values).drop 4).take 512) = some (boolPage values).hdr) :
    Laid 9 (bools values) boolColumn.startOff [boolPage values] :=
  .cons (by exact List.cons_ne_nil _ _) read ⟨(by decide : (0 : Int) ≤ 1),(by decide : (0 : Int) ≤ 2)⟩ rfl rfl (.nil _)

/-- The second of two booleans that are both true is read as false. -/
theorem secondFalse : ¬ ∀ (decompress : Decompress) (col : Column) (n m : Nat) (file : Bytes) (pages : List Page) (rows : List (Option Cell))
    (start nrows : Nat), Laid n file col.startOff pages → fullDecode decompress col [] pages = some rows → col.numValues = rows.length →
    pages.length < m → pqReadColRange decompress col n m file start nrows = some (((rows.drop start).take nrows).map slotOf) := by
  intro all
  have slice := all (fun _ _ _ => none) boolColumn 9 2 (bools 3) [boolPage 3] [some (.int 1),some (.int 1)] 1 1
    (boolsLaid (by decide +kernel)) (by decide) rfl (by decide)
  have read : pqReadColRange (fun _ _ _ => none) boolColumn 9 2 (bools 3) 1 1 = some [.cell (.int 0)] := by decide +kernel
  rw [read] at slice
  cases slice

theorem rangeIffFalse : pqReadColRange (fun _ _ _ => none) boolColumn 9 2 (bools 1) 1 1 = some [.cell (.int 0)] := by
  have full : fullDecode (fun _ _ _ => none) boolColumn [] [boolPage 1] = some [some (.int 1),some (.int 0)] := by decide
  have fit : ∀ pg ∈ touched 1 1 [boolPage 1], ¬ Raw boolColumn pg.hdr := fun pg mem raw => by
    have page : touched 1 1 [boolPage 1] = [boolPage 1] := rfl
    rw [page] at mem
    cases List.mem_singleton.mp mem
    exact absurd raw.1 (by decide)
  refine (rangeIff (boolsLaid (by decide +kernel)) full rfl fit (by decide)).mpr ⟨fun c mem => ?_,fun s mem => ?_⟩
  · exact Option.some.inj (List.mem_singleton.mp (List.mem_of_mem_take mem))
  · cases Option.some.inj (List.mem_singleton.mp mem)

end Napastak.Parquet
