import Napastak.CompressExact
import Mathlib.Data.List.Chain

/-! When `compress_col` leaves a well-formed column, whatever encoding it is asked for. -/
namespace Napastak.Store
open Codec Rle Dict

/-- The runs the first pass counts and the run lengths the second one writes. -/
def passes {α : Type} [DecidableEq α] (xs : List α) : Nat × List Nat := (countRuns xs,(rle 65535 xs).map (·.1))

/-- Both passes over a column that RLE takes. -/
def rlePasses (t : ColType) (bm : Option Bytes) (values : Values) : Encoding → Option (Nat × List Nat)
  | .rle => match t, values with
    | .int64, .nums vs | .bool, .nums vs => some (passes (placedNums bm vs))
    | .text, .texts vs => some (passes (placedTexts bm vs))
    | _, _ => none
  | _ => none

section
variable {α : Type}

def Packed.codes : Packed α → List Nat
  | .rle _ => []
  | .dict _ _ codes => codes

def Packed.dictSize : Packed α → Nat
  | .rle _ => 0
  | .dict values _ _ => values.length

end

def Payload.codes : Payload → List Nat
  | .nums p => p.codes
  | .texts p => p.codes
  | _ => []

def Payload.dictSize : Payload → Nat
  | .nums p => p.dictSize
  | .texts p => p.dictSize
  | _ => 0

/-- `bytes`: whatever stands after them, the reader takes the written bytes and no more. -/
structure WellFormed (nrows : Nat) (t : ColType) (col : Column) (enc : Encoding) (c : CompressedCol) : Prop where
  runs : ∀ nruns counts, rlePasses t col.nullBitmap col.values enc = some (nruns,counts) →
    counts.length = nruns ∧ counts.sum = nrows
  codes : ∀ k ∈ c.payload.codes, k < c.payload.dictSize
  deltas : ∀ base ds, c.payload = .delta base ds → ds.length = nrows
  bytes : ∃ bs, wrCol c = some bs ∧ ∀ rest, ∃ c', rdCol nrows (bs ++ rest) = some (c',rest)

/-! ### The columns that are stored well -/

/-- With 2^32-1 bytes left after the cut to 32 bits, the reader's `sl+1` wraps to 0. -/
def Legible (s : Bytes) : Prop := s.length % 2 ^ 32 ≠ 2 ^ 32 - 1

instance (s : Bytes) : Decidable (Legible s) := by unfold Legible; infer_instance

def PlainFits (nrows : Nat) : Values → Prop
  | .null => False
  | .nums _ => nrows < 2 ^ 28
  | .texts xs => ∀ s ∈ xs, Legible (s.getD [])

/-- Every step from one value to the next that is not NULL fits the 32 bits of a delta. -/
def StepsFit (vs : List Int64) : Prop := vs.IsChain fun a b => deltaFits (b - a) = true

def DictIntFits (nrows : Nat) (bm : Option Bytes) (vs : List Int64) : Prop :=
  if distinct (present bm vs) ≤ 65535 then
    CodesFit nrows (distinct (present bm vs)) ∧ (present bm vs = [] → vs = [])
  else nrows < 2 ^ 28

def DictTextFits (nrows : Nat) (bm : Option Bytes) (vs : List (Option Bytes)) : Prop :=
  if distinct (placedTexts bm vs) ≤ 65535 then
    CodesFit nrows (distinct (placedTexts bm vs)) ∧ ∀ s ∈ placedTexts bm vs, Legible s
  else ∀ s ∈ vs, Legible (s.getD [])

def DeltaFits (nrows : Nat) (bm : Option Bytes) (vs : List Int64) : Prop :=
  (present bm vs = [] → vs = []) ∧ (¬ StepsFit (present bm vs) → nrows < 2 ^ 28)

def PayloadFits (nrows : Nat) (t : ColType) (bm : Option Bytes) (values : Values) : Encoding → Prop
  | .rle => match t, values with
    | .int64, .nums vs | .bool, .nums vs => RunsFit (placedNums bm vs)
    | .text, .texts vs => RunsFit (placedTexts bm vs) ∧ ∀ s ∈ placedTexts bm vs, Legible s
    | _, _ => PlainFits nrows values
  | .dict => match t, values with
    | .int64, .nums vs | .bool, .nums vs => DictIntFits nrows bm vs
    | .text, .texts vs => DictTextFits nrows bm vs
    | _, _ => PlainFits nrows values
  | .delta => match t, values with
    | .int64, .nums vs => DeltaFits nrows bm vs
    | _, _ => PlainFits nrows values
  | .plain => PlainFits nrows values

def Formable (nrows : Nat) (t : ColType) (col : Column) (enc : Encoding) : Prop :=
  (col.nullBitmap.isSome → nrows + 7 < 2 ^ 31) ∧ PayloadFits nrows t col.nullBitmap col.values enc

/-! ### One payload -/

structure Payload.Formed (nrows : Nat) (t : ColType) (p : Payload) : Prop where
  codes : ∀ k ∈ p.codes, k < p.dictSize
  deltas : ∀ base ds, p = .delta base ds → ds.length = nrows
  bytes : ∃ data, wrPayload nrows p = some data ∧
    ∀ rest, ∃ p', rdPayload t.code p.enc nrows (data ++ rest) = some (p',rest)

theorem rdColHead {c : CompressedCol} (bits : ∀ bs, c.nullBitmap = some bs → bs.length < 2 ^ 32) (data rest : Bytes) :
    rdCol c.nrows ([c.colType,c.payload.enc] ++ (wrNulls c.nullBitmap ++ data) ++ rest) =
      (rdPayload c.colType c.payload.enc c.nrows (data ++ rest)).map fun q => ({c with payload := q.1},q.2) := by
  have head := @readsBytes 2 [c.colType,c.payload.enc] rfl (wrNulls c.nullBitmap ++ data ++ rest)
  have nulls := readsNulls bits (data ++ rest)
  rw [← List.append_assoc] at head nulls
  simp only [List.append_assoc] at head nulls ⊢
  simp only [rdCol,bind,StateT.bind,head,nulls,Option.map_some,Option.bind_some]
  change (rdPayload c.colType c.payload.enc c.nrows (data ++ rest)).bind _ = _
  cases rdPayload c.colType c.payload.enc c.nrows (data ++ rest) <;> rfl

theorem formedCol {nrows : Nat} {t : ColType} {bm : Option Bytes} {p : Payload}
    (bits : ∀ bs, bm = some bs → bs.length < 2 ^ 32) :
    (∃ bs, wrCol ⟨t.code,nrows,bm,p⟩ = some bs ∧ ∀ rest, ∃ c', rdCol nrows (bs ++ rest) = some (c',rest)) ↔
      ∃ data, wrPayload nrows p = some data ∧
        ∀ rest, ∃ p', rdPayload t.code p.enc nrows (data ++ rest) = some (p',rest) := by
  have head := @rdColHead ⟨t.code,nrows,bm,p⟩ bits
  constructor
  · rintro ⟨bs,wr,all⟩
    obtain ⟨data,hd,rfl⟩ := Option.map_eq_some_iff.mp wr
    refine ⟨data,hd,fun rest => ?_⟩
    obtain ⟨c',hc⟩ := all rest
    obtain ⟨q,hq,e⟩ := Option.map_eq_some_iff.mp ((head data rest).symm.trans hc)
    have left : q.2 = rest := congrArg Prod.snd e
    exact ⟨q.1,hq.trans (by rw [← left])⟩
  · rintro ⟨data,hd,all⟩
    refine ⟨_,Option.map_eq_some_iff.mpr ⟨data,hd,rfl⟩,fun rest => ?_⟩
    obtain ⟨p',hp⟩ := all rest
    exact ⟨_,(head data rest).trans (by rw [hp]; rfl)⟩

section
variable {nrows : Nat} {t : ColType}

/-- The two halves of `bytes` for a payload of the kind its column's type is read by. -/
theorem soundBytes {p : Payload} (sound : p.Sound nrows t) :
    (∃ data, wrPayload nrows p = some data ∧
      ∀ rest, ∃ p', rdPayload t.code p.enc nrows (data ++ rest) = some (p',rest)) ↔
      (wrPayload nrows p).isSome ∧ (p.readBack nrows).isSome := by
  constructor
  · rintro ⟨data,hd,all⟩
    exact ⟨by simp [hd],(readsAll (readsPayload sound hd)).mp all⟩
  · rintro ⟨wr,rd⟩
    obtain ⟨data,hd⟩ := Option.isSome_iff_exists.mp wr
    exact ⟨data,hd,(readsAll (readsPayload sound hd)).mpr rd⟩

theorem legible (s : Bytes) : (readText s).isSome ↔ Legible s := by
  unfold readText Legible
  split <;> simp_all

theorem formedPlain {values : Values} (sound : (Payload.plain values).Sound nrows t) :
    (Payload.plain values).Formed nrows t ↔ PlainFits nrows values := by
  have bytes := soundBytes sound
  have rest : (Payload.plain values).Formed nrows t ↔
      (wrPayload nrows (.plain values)).isSome ∧ ((Payload.plain values).readBack nrows).isSome :=
    ⟨fun f => bytes.mp f.bytes,fun h => ⟨nofun,nofun,bytes.mpr h⟩⟩
  rw [rest]
  cases values with
  | null => exact sound.elim
  | nums xs =>
    simp only [wrPayload,Payload.readBack,PlainFits,Option.isSome_some,and_true]
    split
    · simp; omega
    · simp; omega
  | texts xs => simp [wrPayload,Payload.readBack,PlainFits,mapMIsSome,legible]

theorem formedNums {p : Packed Int64} (sound : (Payload.nums p).Sound nrows t) :
    (Payload.nums p).Formed nrows t ↔ (∀ k ∈ p.codes, k < p.dictSize) ∧ p.Steps nrows := by
  have bytes := soundBytes sound
  have read : ((Payload.nums p).readBack nrows).isSome ↔ p.Steps nrows := by
    simp only [Payload.readBack,Packed.readBack,Option.isSome_map]
    split
    · rename_i h
      rw [packedSelf fun _ _ => rfl]
      simp [h]
    · rename_i h
      simp [h]
  exact ⟨fun f => ⟨f.codes,read.mp (bytes.mp f.bytes).2⟩,fun h => ⟨h.1,by rintro _ _ ⟨⟩,bytes.mpr ⟨rfl,read.mpr h.2⟩⟩⟩

theorem entriesRead (p : Packed Bytes) : (p.mapM readText).isSome ↔ ∀ s ∈ p.entries, Legible s := by
  cases p with
  | rle runs =>
    simp only [Packed.mapM,Packed.entries,mapMIsSome,legible,Option.isSome_map,List.forall_mem_map]
  | dict values isU8 codes => simp [Packed.mapM,Packed.entries,mapMIsSome,legible]

theorem formedTexts {p : Packed Bytes} (sound : (Payload.texts p).Sound nrows t) :
    (Payload.texts p).Formed nrows t ↔
      (∀ k ∈ p.codes, k < p.dictSize) ∧ p.Steps nrows ∧ ∀ s ∈ p.entries, Legible s := by
  have bytes := soundBytes sound
  have read : ((Payload.texts p).readBack nrows).isSome ↔ p.Steps nrows ∧ ∀ s ∈ p.entries, Legible s := by
    rw [← entriesRead]
    simp only [Payload.readBack,Packed.readBack,Option.isSome_map]
    split <;> simp_all
  exact ⟨fun f => ⟨f.codes,read.mp (bytes.mp f.bytes).2⟩,fun h => ⟨h.1,by rintro _ _ ⟨⟩,bytes.mpr ⟨rfl,read.mpr h.2⟩⟩⟩

theorem formedDelta (base : Int64) {ds : List Int32} :
    (Payload.delta base ds).Formed nrows t ↔ ds.length = nrows := by
  refine ⟨fun f => f.deltas base ds rfl,fun len => ⟨nofun,fun _ _ h => by cases h; exact len,?_⟩⟩
  have one : ∀ d ∈ ds, Reads ((fun v => (UInt32.ofNat v).toInt32) <$> rdLe 4) (leBytes 4 d.toUInt32.toNat) (some d) := by
    intro d _
    have := readsMap (fun v => (UInt32.ofNat v).toInt32) (readsLe (n := 4) (v := d.toUInt32.toNat) d.toUInt32.toNat_lt)
    rwa [Option.map_some,UInt32.ofNat_toNat] at this
  have self : ds.mapM some = some ds := mapMSelf fun _ _ => rfl
  have many := self ▸ readsMany ds one
  have all := readsThen (f := fun b => (Payload.delta b ·) <$> rdMany ((fun v => (UInt32.ofNat v).toInt32) <$> rdLe 4) nrows)
    (reads64 base) (len ▸ readsMap (Payload.delta base) many)
  exact ⟨_,rfl,(readsAll all).mpr rfl⟩

end

/-! ### What the encodings make of a column -/

/-- The runs come out right wherever there is a payload, and it is well formed exactly on the condition. -/
def Decided (nrows : Nat) (t : ColType) (bm : Option Bytes) (values : Values) (enc : Encoding) (cond : Prop) : Prop :=
  (∀ p nruns counts, payloadBy t bm values enc = some p → rlePasses t bm values enc = some (nruns,counts) →
    counts.length = nruns ∧ counts.sum = nrows) ∧
  ((∃ p, payloadBy t bm values enc = some p ∧ p.Formed nrows t) ↔ cond)

section
variable {nrows : Nat} {t : ColType} {bm : Option Bytes} {values : Values} {enc : Encoding}

theorem decidedOf {p : Payload} {cond : Prop} (is : payloadBy t bm values enc = some p)
    (none_ : rlePasses t bm values enc = none) (formed : p.Formed nrows t ↔ cond) :
    Decided nrows t bm values enc cond := by
  refine ⟨fun p nruns counts _ two => ?_,by simp [is,formed]⟩
  rw [none_] at two
  cases two

/-- Where both passes agree on the number of runs, the lengths add up to the rows. -/
theorem passesAgree {α : Type} [DecidableEq α] {xs : List α} (fit : RunsFit xs) :
    (passes xs).2.length = (passes xs).1 ∧ (passes xs).2.sum = xs.length := by
  have fewer := (@rleFits α _ 65535 (by decide) xs).mpr fit
  have more := @rleAtLeast α _ 65535 (by decide) xs
  have all := congrArg List.length (expandRle 65535 xs)
  rw [expandLength] at all
  exact ⟨by simp only [passes,List.length_map]; omega,all⟩

theorem rleDecided {α : Type} [DecidableEq α] {xs : List α} {g : Packed α → Payload} {q : Prop}
    (is : payloadBy t bm values enc = (compressRle xs).map g) (two : rlePasses t bm values enc = some (passes xs))
    (len : xs.length = nrows) (formed : ∀ p, compressRle xs = some p → ((g p).Formed nrows t ↔ q)) :
    Decided nrows t bm values enc (RunsFit xs ∧ q) := by
  refine ⟨fun p nruns counts hp same => ?_,?_⟩
  · have fit : RunsFit xs := by
      obtain ⟨_,h,_⟩ := Option.map_eq_some_iff.mp (is.symm.trans hp)
      exact compressRleNone.mp (by simp [h])
    have agree := passesAgree fit
    rw [two,Option.some.injEq] at same
    rw [same,len] at agree
    exact agree
  · rw [is,← compressRleNone]
    cases h : compressRle xs with
    | none => simp
    | some p => simp [formed p h]

theorem cellsKept {α : Type} [Inhabited α] {p : Packed α} (known : ∀ k ∈ p.codes, k < p.dictSize) :
    ∀ x ∈ p.unpack, x ∈ p.entries := by
  cases p with
  | rle runs =>
    intro x hx
    obtain ⟨r,hr,hx⟩ := List.mem_flatMap.mp hx
    rw [List.eq_of_mem_replicate hx]
    exact List.mem_map_of_mem hr
  | dict entries isU8 codes =>
    intro x hx
    obtain ⟨k,hk,rfl⟩ := List.mem_map.mp hx
    have lt : k < entries.length := known k hk
    rw [List.getD_eq_getElem?_getD,List.getElem?_eq_getElem lt]
    exact List.getElem_mem lt

theorem codesKnown {α : Type} {p : Packed α}
    (codes : ∀ entries isU8 ks, p = .dict entries isU8 ks → ∀ k ∈ ks, k < entries.length) :
    ∀ k ∈ p.codes, k < p.dictSize := by
  cases p with
  | rle runs => exact nofun
  | dict entries isU8 ks => exact codes entries isU8 ks rfl

theorem compressDictIntCodes {xs : List Int64} {p : Packed Int64} (h : compressDictInt bm xs = some p) :
    (∀ k ∈ p.codes, k < p.dictSize) ↔ (present bm xs = [] → xs = []) := by
  obtain ⟨u,hu,rfl⟩ := Option.map_eq_some_iff.mp h
  obtain ⟨nodup,-,mem⟩ := uniquesSome hu
  simp only [Packed.codes,Packed.dictSize,sortByLength]
  constructor
  · intro known empty
    cases xs with
    | nil => rfl
    | cons x xs =>
      have none_ : u = [] := List.eq_nil_iff_forall_not_mem.mpr fun v hv => by simpa [empty] using (mem v).mp hv
      have first := known _ (by rw [List.mapIdx_cons]; exact List.mem_cons_self)
      rw [none_] at first
      cases first
  · intro filled k hk
    obtain ⟨i,hi,rfl⟩ := List.mem_mapIdx.mp hk
    split
    · -- the code under a NULL is 0, an entry as soon as there is one
      refine List.length_pos_iff.mpr fun none_ => ?_
      have empty : present bm xs = [] := List.eq_nil_iff_forall_not_mem.mpr fun v hv => by
        simpa [none_] using (mem v).mpr hv
      rw [filled empty] at hi
      cases hi
    · rename_i nn
      have entry := presentMem.mpr ⟨i,Bool.eq_false_iff.mpr nn,List.getElem?_eq_getElem hi⟩
      have found := bsearchFinds (sortByStrict (fun a b => Int64.toInt_inj.mp) nodup)
        ((sortByMem u _).mpr ((mem _).mpr entry))
      simpa only [sortByLength] using (List.getElem?_eq_some_iff.mp found).1

theorem deltaGoLength {prev : Int64} {i : Nat} {vs : List Int64} {ds : List Int32}
    (h : deltaGo bm prev i vs = some ds) : ds.length = vs.length := by
  induction vs generalizing prev i ds with
  | nil => cases h; rfl
  | cons v vs ih =>
    rw [deltaGo] at h
    split at h
    · obtain ⟨rest,hr,rfl⟩ := Option.map_eq_some_iff.mp h
      simp [ih hr]
    · split at h
      · obtain ⟨rest,hr,rfl⟩ := Option.map_eq_some_iff.mp h
        simp [ih hr]
      · cases h

/-- The values from position `i` on that are not NULL. -/
def presentFrom (bm : Option Bytes) (i : Nat) (xs : List Int64) : List Int64 :=
  ((xs.zipIdx i).filter fun p => !nullBit bm p.2).map (·.1)

theorem deltaGoSteps (prev : Int64) (i : Nat) (vs : List Int64) :
    (deltaGo bm prev i vs).isSome ↔ StepsFit (prev :: presentFrom bm i vs) := by
  induction vs generalizing prev i with
  | nil => simp [deltaGo,StepsFit,presentFrom]
  | cons v vs ih =>
    rw [deltaGo]
    cases null : nullBit bm i with
    | true =>
      have skip : presentFrom bm i (v :: vs) = presentFrom bm (i + 1) vs := by simp [presentFrom,null]
      simp [skip,ih]
    | false =>
      have take : presentFrom bm i (v :: vs) = v :: presentFrom bm (i + 1) vs := by simp [presentFrom,null]
      rw [take,StepsFit,List.isChain_cons_cons,← StepsFit,← ih]
      cases deltaFits (v - prev) <;> simp

theorem deltaDecided {vs : List Int64} (len : vs.length = nrows) :
    Decided nrows .int64 bm (.nums vs) .delta (DeltaFits nrows bm vs) := by
  have by_ : payloadBy .int64 bm (.nums vs) .delta = some ((compressDelta bm vs).getD (.plain (.nums vs))) := rfl
  cases here : present bm vs with
  | nil =>
    refine decidedOf (by rw [by_,compressDelta,here]; rfl) rfl ((formedDelta 0).trans ?_)
    simp only [DeltaFits,here,true_imp_iff]
    rw [List.length_nil,← len,eq_comm,List.length_eq_zero_iff]
    exact (and_iff_left fun no => absurd List.isChain_nil no).symm
  | cons first rest =>
    have self : deltaFits (first - first) = true := by rw [Int64.sub_self]; decide
    have steps : (deltaGo bm first 0 vs).isSome ↔ StepsFit (present bm vs) := by
      refine (deltaGoSteps first 0 vs).trans ?_
      change StepsFit (first :: present bm vs) ↔ _
      rw [here,StepsFit,List.isChain_cons_cons,and_iff_right self]
      rfl
    have cond : DeltaFits nrows bm vs ↔ ((deltaGo bm first 0 vs).isSome ∨ nrows < 2 ^ 28) := by
      rw [DeltaFits,and_iff_right (fun h => by rw [here] at h; cases h),← steps]
      exact Decidable.or_iff_not_imp_left.symm
    rw [cond]
    cases go : deltaGo bm first 0 vs with
    | none =>
      have plain : (Payload.plain (.nums vs)).Formed nrows .int64 ↔ nrows < 2 ^ 28 := formedPlain ⟨rfl,len⟩
      exact decidedOf (p := .plain (.nums vs)) (by simp [by_,compressDelta,here,go]) rfl (by simpa using plain)
    | some ds =>
      refine decidedOf (p := .delta first ds) (by simp [by_,compressDelta,here,go]) rfl ((formedDelta first).trans ?_)
      simp [(deltaGoLength go).trans len]

theorem dictIntDecided {xs : List Int64} (whole : isInt t.code) (numeric : t.isTextual = false) (len : xs.length = nrows)
    (is : payloadBy t bm (.nums xs) .dict = some (((compressDictInt bm xs).map Payload.nums).getD (.plain (.nums xs)))) :
    Decided nrows t bm (.nums xs) .dict (DictIntFits nrows bm xs) := by
  cases h : compressDictInt bm xs with
  | none =>
    have many := uniquesNone.mp (Option.map_eq_none_iff.mp h)
    rw [DictIntFits,if_neg (Nat.not_le.mpr many)]
    exact decidedOf (p := .plain (.nums xs)) (is.trans (by rw [h]; rfl)) rfl (formedPlain ⟨numeric,len⟩)
  | some p =>
    have few : distinct (present bm xs) ≤ 65535 := Nat.le_of_not_lt fun many => by
      simp [compressDictInt,uniquesNone.mpr many] at h
    obtain ⟨sound,steps,_⟩ := compressDictIntSome h len
    rw [DictIntFits,if_pos few,← steps,← compressDictIntCodes h,and_comm]
    exact decidedOf (is.trans (by rw [h]; rfl)) rfl (formedNums ⟨whole,sound⟩)

theorem rleNumsDecided {xs : List Int64} (whole : isInt t.code) (len : xs.length = nrows) (rows : nrows < 2 ^ 31)
    (is : payloadBy t bm (.nums xs) .rle =
      ((compressRle (placedNums bm xs)).map (some ∘ Payload.nums)).map (·.getD (.plain (.nums xs))))
    (two : rlePasses t bm (.nums xs) .rle = some (passes (placedNums bm xs))) :
    Decided nrows t bm (.nums xs) .rle (RunsFit (placedNums bm xs)) := by
  have placed : (placedNums bm xs).length = nrows := by simpa [placedNums] using len
  have plain : payloadBy t bm (.nums xs) .rle = (compressRle (placedNums bm xs)).map .nums := by
    rw [is,Option.map_map]
    rfl
  have all := rleDecided (q := True) plain two placed fun p h => by
    obtain ⟨sound,steps,_,_,codes⟩ := compressRleSome h placed rows
    exact (formedNums ⟨whole,sound⟩).trans (iff_of_true ⟨codesKnown codes,steps⟩ trivial)
  rwa [and_true] at all

theorem formedCells {xs : List (Option Bytes)} {p : Packed Bytes} (sound : (Payload.texts p).Sound nrows t)
    (cells : p.unpack = placedTexts bm xs) (entries : ∀ s ∈ p.entries, s ∈ placedTexts bm xs)
    (codes : ∀ k ∈ p.codes, k < p.dictSize) :
    (Payload.texts p).Formed nrows t ↔ p.Steps nrows ∧ ∀ s ∈ placedTexts bm xs, Legible s := by
  rw [formedTexts sound,and_iff_right codes]
  exact and_congr_right fun _ =>
    ⟨fun all s hs => all s (cellsKept codes s (cells ▸ hs)),fun all s hs => all s (entries s hs)⟩

theorem textsDecided {xs : List (Option Bytes)} (kind : t.isTextual = true) (len : xs.length = nrows)
    (rows : nrows < 2 ^ 31) (enc : Encoding) :
    Decided nrows t bm (.texts xs) enc (PayloadFits nrows t bm (.texts xs) enc) := by
  have placed : (placedTexts bm xs).length = nrows := by simpa [placedTexts] using len
  have plain : payloadBy t bm (.texts xs) enc = some (.plain (.texts xs)) → rlePasses t bm (.texts xs) enc = none →
      Decided nrows t bm (.texts xs) enc (PlainFits nrows (.texts xs)) :=
    fun is none_ => decidedOf is none_ (formedPlain ⟨kind,len⟩)
  cases enc with
  | plain => exact plain rfl rfl
  | delta => cases t <;> exact plain rfl rfl
  | rle =>
    cases t with
    | text =>
      refine rleDecided (g := .texts) ?_ rfl placed fun p h => ?_
      · simp only [payloadBy,compressPayload]
        cases compressRle (placedTexts bm xs) <;> rfl
      · obtain ⟨sound,steps,cells,entries,codes⟩ := compressRleSome h placed rows
        rw [formedCells ⟨rfl,sound⟩ cells entries (codesKnown codes),and_iff_right steps]
    | int64 | double | bool => cases kind
    | _ => exact plain rfl rfl
  | dict =>
    cases t with
    | text =>
      have is : payloadBy .text bm (.texts xs) .dict =
          some (((compressDictText bm xs).map Payload.texts).getD (.plain (.texts xs))) := rfl
      show Decided nrows .text bm (.texts xs) .dict (DictTextFits nrows bm xs)
      cases h : compressDictText bm xs with
      | none =>
        have many := uniquesNone.mp (Option.map_eq_none_iff.mp h)
        rw [DictTextFits,if_neg (Nat.not_le.mpr many)]
        exact plain (is.trans (by rw [h]; rfl)) rfl
      | some p =>
        have few : distinct (placedTexts bm xs) ≤ 65535 := Nat.le_of_not_lt fun many => by
          simp [compressDictText,uniquesNone.mpr many] at h
        obtain ⟨sound,steps,cells,entries,codes⟩ := compressDictTextSome h len
        rw [DictTextFits,if_pos few,← steps]
        exact decidedOf (is.trans (by rw [h]; rfl)) rfl (formedCells ⟨rfl,sound⟩ cells entries (codesKnown codes))
    | int64 | double | bool => cases kind
    | _ => exact plain rfl rfl

theorem numsDecided {xs : List Int64} (kind : t.isTextual = false) (len : xs.length = nrows)
    (rows : nrows < 2 ^ 31) (enc : Encoding) :
    Decided nrows t bm (.nums xs) enc (PayloadFits nrows t bm (.nums xs) enc) := by
  have plain : payloadBy t bm (.nums xs) enc = some (.plain (.nums xs)) → rlePasses t bm (.nums xs) enc = none →
      Decided nrows t bm (.nums xs) enc (PlainFits nrows (.nums xs)) :=
    fun is none_ => decidedOf is none_ (formedPlain ⟨kind,len⟩)
  cases enc with
  | plain => exact plain rfl rfl
  | delta =>
    cases t with
    | int64 => exact deltaDecided len
    | double | bool => exact plain rfl rfl
    | _ => cases kind
  | rle =>
    cases t with
    | int64 => exact rleNumsDecided rfl len rows rfl rfl
    | bool => exact rleNumsDecided rfl len rows rfl rfl
    | double => exact plain rfl rfl
    | _ => cases kind
  | dict =>
    cases t with
    | int64 => exact dictIntDecided rfl rfl len rfl
    | bool => exact dictIntDecided rfl rfl len rfl
    | double => exact plain rfl rfl
    | _ => cases kind

end

theorem fitsDecided {nrows : Nat} {t : ColType} {col : Column} (enc : Encoding) (fits : col.Fits nrows t)
    (rows : nrows < 2 ^ 31) :
    Decided nrows t col.nullBitmap col.values enc (PayloadFits nrows t col.nullBitmap col.values enc) := by
  have kind := fits.kind
  cases h : col.values with
  | null => rw [h] at kind; exact kind.elim
  | nums xs => rw [h] at kind; exact numsDecided kind.1 kind.2 rows enc
  | texts xs => rw [h] at kind; exact textsDecided kind.1 kind.2 rows enc

/-- For every column and every encoding asked for, `compress_col` leaves a well-formed column exactly
when the encoding has room for the column. -/
theorem formedIff {nrows : Nat} {t : ColType} {col : Column} (enc : Encoding) (fits : col.Fits nrows t)
    (rows : nrows < 2 ^ 31) :
    (∃ c, compressCol col nrows t enc = some c ∧ WellFormed nrows t col enc c) ↔ Formable nrows t col enc := by
  obtain ⟨runs,formed⟩ := fitsDecided enc fits rows
  have bits : ∀ bs, col.nullBitmap.map (·.take (nullBmBytes nrows)) = some bs → bs.length < 2 ^ 32 := by
    intro bs hbs
    obtain ⟨bm,_,rfl⟩ := Option.map_eq_some_iff.mp hbs
    have := List.length_take_le (nullBmBytes nrows) bm
    simp only [nullBmBytes] at this ⊢
    omega
  constructor
  · rintro ⟨c,hc,wf⟩
    obtain ⟨room,p,hp,rfl⟩ := compressColIs.mp hc
    exact ⟨room,formed.mp ⟨p,hp,wf.codes,wf.deltas,(formedCol bits).mp wf.bytes⟩⟩
  · rintro ⟨room,cond⟩
    obtain ⟨p,hp,f⟩ := formed.mpr cond
    exact ⟨_,compressColIs.mpr ⟨room,p,hp,rfl⟩,fun nruns counts => runs p nruns counts hp,f.codes,f.deltas,
      (formedCol bits).mpr f.bytes⟩

/-- Two rows, the second NULL, as deltas. -/
theorem formedIffDelta : (∃ c, compressCol ⟨some [2],.nums [7,0]⟩ 2 .int64 .delta = some c ∧
    WellFormed 2 .int64 ⟨some [2],.nums [7,0]⟩ .delta c) ↔ Formable 2 .int64 ⟨some [2],.nums [7,0]⟩ .delta :=
  formedIff .delta ⟨⟨rfl,rfl⟩,by rintro _ ⟨⟩; decide⟩ (by decide)

/-- A column of one NULL has the code 0 in an empty dictionary. -/
theorem loneNullUnformed : ∃ (nrows : Nat) (t : ColType) (col : Column) (enc : Encoding), col.Fits nrows t ∧
    nrows < 2 ^ 31 ∧ ¬ ∃ c, compressCol col nrows t enc = some c ∧ WellFormed nrows t col enc c := by
  refine ⟨1,.int64,⟨some [1],.nums [0]⟩,.dict,⟨⟨rfl,rfl⟩,by rintro _ ⟨⟩; decide⟩,by decide,?_⟩
  rintro ⟨c,hc,wf⟩
  have is : compressCol ⟨some [1],.nums [0]⟩ 1 .int64 .dict =
      some ⟨0,1,some [1],.nums (.dict [] true [0])⟩ := by decide
  rw [is] at hc
  cases hc
  exact absurd (wf.codes 0 (by decide)) (by decide)

end Napastak.Store
