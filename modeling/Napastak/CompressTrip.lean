import Napastak.Compress
import Mathlib.Data.List.TakeDrop

/-! What a batch is after `compress_batch`, `compressed_batch_serialize`,
`compressed_batch_deserialize` and `decompress_batch`. -/
namespace Napastak.Store
open Codec Rle Dict

/-! ### Reading back what was written -/

theorem reads64 (v : Int64) : Reads rd64 (wr64 v) (some v) := by
  have := readsMap (fun v => (UInt64.ofNat v).toInt64) (readsLe (n := 8) (v := v.toUInt64.toNat) v.toUInt64.toNat_lt)
  rwa [Option.map_some,UInt64.ofNat_toNat] at this

/-- What is left of a text: its length is kept modulo 2^32. -/
def readText (s : Bytes) : Option Bytes :=
  if s.length % 2 ^ 32 = 2 ^ 32 - 1 then none else some (s.take (s.length % 2 ^ 32))

theorem readsText (s : Bytes) : Reads rdText (wrText s) (readText s) := by
  have lt : s.length % 2 ^ 32 < 2 ^ 32 := Nat.mod_lt _ (by decide)
  refine readsThen (readsLe lt) ?_
  by_cases h : s.length % 2 ^ 32 = 2 ^ 32 - 1
  · rw [readText,if_pos h,if_pos (by omega)]
    intro rest; rfl
  · rw [readText,if_neg h,if_neg (by omega)]
    exact readsBytes (List.length_take_of_le (Nat.mod_le _ _))

theorem readTextSelf (s : Bytes) : readText s = some s ↔ s.length < 2 ^ 32 - 1 := by
  unfold readText
  have := Nat.mod_lt s.length (show 0 < 2 ^ 32 by decide)
  split
  · rename_i h
    refine iff_of_false (by simp) fun lt => ?_
    rw [Nat.mod_eq_of_lt (by omega)] at h
    omega
  · rename_i h
    rw [Option.some.injEq,List.take_eq_self_iff]
    constructor
    · intro le
      have := Nat.mod_le s.length (2 ^ 32)
      omega
    · intro lt
      rw [Nat.mod_eq_of_lt (by omega)]

theorem wordsWr (xs : List Int64) : words (xs.flatMap wr64) = xs := by
  induction xs with
  | nil => rfl
  | cons x xs ih =>
    have eight : leValue (wr64 x) = x.toUInt64.toNat := leValueBytes (n := 8) x.toUInt64.toNat_lt
    simp only [wr64,leBytes] at eight
    rw [List.flatMap_cons,wr64]
    simp only [leBytes,List.cons_append,List.nil_append,words,eight,ih,UInt64.ofNat_toNat]
    rfl

section
variable {α : Type}

/-- The number of values, codes and runs fits the fields they are written in. -/
def Packed.Sound (nrows : Nat) : Packed α → Prop
  | .rle runs => runs.length < 2 ^ 32 ∧ ∀ r ∈ runs, r.1 < 2 ^ 16
  | .dict values isU8 codes => values.length < 2 ^ 32 ∧ codes.length = nrows ∧
      ∀ k ∈ codes, k < if isU8 then 2 ^ 8 else 2 ^ 16

/-- Two-byte codes are stepped over in `int` arithmetic. -/
def Packed.Steps (nrows : Nat) : Packed α → Prop
  | .dict _ false _ => nrows * 2 < 2 ^ 31
  | _ => True

instance (nrows : Nat) (p : Packed α) : Decidable (p.Steps nrows) := by
  unfold Packed.Steps; split <;> infer_instance

def Packed.mapM (f : α → Option α) : Packed α → Option (Packed α)
  | .rle runs => (runs.mapM fun r => (f r.2).map (r.1,·)).map .rle
  | .dict values isU8 codes => (values.mapM f).map fun vs => .dict vs isU8 codes

def Packed.entries : Packed α → List α
  | .rle runs => runs.map (·.2)
  | .dict values _ _ => values

theorem packedSelf {f : α → Option α} {p : Packed α} (h : ∀ x ∈ p.entries, f x = some x) : p.mapM f = some p := by
  cases p with
  | rle runs =>
    have self : runs.mapM (fun r => (f r.2).map (r.1,·)) = some runs :=
      mapMSelf fun r hr => by rw [h r.2 (List.mem_map_of_mem hr)]; rfl
    rw [Packed.mapM,self]; rfl
  | dict values isU8 codes =>
    have self : values.mapM f = some values := mapMSelf h
    rw [Packed.mapM,self]; rfl

def Packed.readBack (f : α → Option α) (nrows : Nat) (p : Packed α) : Option (Packed α) :=
  if p.Steps nrows then p.mapM f else none

variable {r : Reader α} {w : α → Bytes} {f : α → Option α}

theorem readsRle (each : ∀ x, Reads r (w x) (f x)) (runs : List (Nat × α)) {nrows : Nat}
    (sound : (Packed.rle runs).Sound nrows) :
    Reads (rdRle r) (wrPacked w (.rle runs)) ((Packed.rle runs).readBack f nrows) := by
  refine readsThen (readsLe (by simpa using sound.1)) ?_
  have one : ∀ x ∈ runs, Reads (do let n ← rdLe 2; let v ← r; pure (n,v)) (leBytes 2 x.1 ++ w x.2)
      ((f x.2).map (x.1,·)) := fun x hx =>
    readsThen (readsLe (by simpa using sound.2 x hx)) (readsMap (x.1,·) (each x.2))
  have := readsMap Packed.rle (readsMany runs one)
  simpa [Packed.readBack,Packed.Steps,Packed.mapM] using this

theorem readsDict (each : ∀ x, Reads r (w x) (f x)) (values : List α) (isU8 : Bool) (codes : List Nat) {nrows : Nat}
    (sound : (Packed.dict values isU8 codes).Sound nrows) :
    Reads (rdDict r nrows) (wrPacked w (.dict values isU8 codes)) ((Packed.dict values isU8 codes).readBack f nrows) := by
  obtain ⟨size,rfl,small⟩ := sound
  refine readsThen (readsLe (by simpa using size)) (readsThen (readsLe (v := isU8.toNat) (by cases isU8 <;> decide)) ?_)
  have vals := readsMany values fun x _ => each x
  have codesRead : Reads (rdMany (rdLe (if isU8.toNat = 0 then 2 else 1)) codes.length)
      (codes.flatMap (leBytes (if isU8 then 1 else 2))) (some codes) := by
    have one : ∀ k ∈ codes, Reads (rdLe (if isU8.toNat = 0 then 2 else 1)) (leBytes (if isU8 then 1 else 2) k) (some k) := by
      intro k hk
      have := small k hk
      cases isU8 <;> exact readsLe (by simpa using this)
    exact mapMSelf (fun _ _ => rfl) ▸ readsMany codes one
  by_cases long : isU8.toNat = 0 ∧ 2 ^ 31 ≤ codes.length * 2
  · have no : (Packed.dict values isU8 codes).readBack f codes.length = none := by
      obtain ⟨wide,long⟩ := long
      cases isU8 with
      | true => cases wide
      | false => exact if_neg (Nat.not_lt.mpr long)
    rw [no]
    have stop : Reads (fun _ => none : Reader (Packed α)) (codes.flatMap (leBytes (if isU8 then 1 else 2))) none :=
      fun _ => rfl
    have := readsBind vals (g := fun _ => none) fun vs _ => stop
    simp only [if_pos long]
    simpa using this
  · have yes : (Packed.dict values isU8 codes).readBack f codes.length =
        (values.mapM f).bind fun vs => some (.dict vs isU8 codes) := by
      rw [Packed.readBack,if_pos]
      · rw [Packed.mapM,Option.map_eq_bind]; rfl
      · cases isU8 with
        | true => trivial
        | false => exact Nat.lt_of_not_le fun h => long ⟨rfl,h⟩
    rw [yes]
    refine readsBind vals fun vs _ => ?_
    simp only [if_neg long]
    have same : decide (isU8.toNat ≠ 0) = isU8 := by cases isU8 <;> rfl
    rw [same]
    exact readsMap (fun cs => Packed.dict vs isU8 cs) codesRead

end

def Payload.readBack (nrows : Nat) : Payload → Option Payload
  | .plain (.texts xs) => (xs.mapM fun s => readText (s.getD [])).map fun ys => .plain (.texts (ys.map some))
  | .nums p => (p.readBack some nrows).map .nums
  | .texts p => (p.readBack readText nrows).map .texts
  | p => some p

/-- The payload is of the kind its column's type is read by. -/
def Payload.Sound (nrows : Nat) (t : ColType) : Payload → Prop
  | .plain (.nums xs) => t.isTextual = false ∧ xs.length = nrows
  | .plain (.texts xs) => t.isTextual = true ∧ xs.length = nrows
  | .nums p => isInt t.code ∧ p.Sound nrows
  | .texts p => isInt t.code = false ∧ p.Sound nrows
  | _ => False

theorem readsPacked {α : Type} {r : Reader α} {w : α → Bytes} {f : α → Option α} (each : ∀ x, Reads r (w x) (f x))
    {g : Packed α → Payload} {p : Packed α} {nrows : Nat} (sound : p.Sound nrows) :
    Reads (if (match p with | .rle _ => true | _ => false) then g <$> rdRle r else g <$> rdDict r nrows)
      (wrPacked w p) ((p.readBack f nrows).map g) := by
  cases p with
  | rle runs => exact readsMap g (readsRle each runs sound)
  | dict values isU8 codes => exact readsMap g (readsDict each values isU8 codes sound)

theorem readsPayload {nrows : Nat} {t : ColType} {p : Payload} {data : Bytes} (sound : p.Sound nrows t)
    (wr : wrPayload nrows p = some data) : Reads (rdPayload t.code p.enc nrows) data (p.readBack nrows) := by
  cases p with
  | plain vs =>
    cases vs with
    | null => exact sound.elim
    | nums xs =>
      obtain ⟨kind,rfl⟩ := sound
      simp only [wrPayload] at wr
      split at wr
      · cases wr
      · rename_i short
        cases wr
        have wide : isInt t.code ∨ t.code = 1 := by cases t <;> simp_all [isInt,ColType.code,ColType.isTextual]
        have len : (xs.flatMap wr64).length = xs.length * 8 := by
          induction xs with
          | nil => rfl
          | cons x xs ih => simp [wr64] at ih ⊢; omega
        simp only [rdPayload,Payload.enc,if_true,if_pos wide,Payload.readBack]
        refine readsThen (readsLe (by omega)) ?_
        have := readsMap (fun raw => Payload.plain (.nums (words raw))) (readsBytes len)
        rwa [Option.map_some,wordsWr] at this
    | texts xs =>
      obtain ⟨kind,rfl⟩ := sound
      simp only [wrPayload,Option.some.injEq] at wr
      subst wr
      have narrow : ¬(isInt t.code ∨ t.code = 1) := by cases t <;> simp_all [isInt,ColType.code,ColType.isTextual]
      simp only [rdPayload,Payload.enc,if_true,if_neg narrow,Payload.readBack]
      exact readsMap (fun ys => Payload.plain (.texts (ys.map some)))
        (readsMany xs fun s _ => readsText (s.getD []))
  | nums p =>
    obtain ⟨kind,sound⟩ := sound
    simp only [wrPayload,Option.some.injEq] at wr
    subst wr
    have := readsPacked reads64 (g := .nums) sound
    cases p <;> simpa [rdPayload,Payload.enc,kind,Payload.readBack] using this
  | texts p =>
    obtain ⟨kind,sound⟩ := sound
    simp only [wrPayload,Option.some.injEq] at wr
    subst wr
    have := readsPacked readsText (g := .texts) sound
    cases p <;> simpa [rdPayload,Payload.enc,kind,Payload.readBack] using this
  | delta base ds => exact sound.elim
  | other e => exact sound.elim

theorem readsNulls {bm : Option Bytes} (h : ∀ bs, bm = some bs → bs.length < 2 ^ 32) :
    Reads rdNulls (wrNulls bm) (some bm) := by
  cases bm with
  | none =>
    rw [wrNulls,← List.append_nil (leBytes 1 0)]
    exact readsThen (readsLe (by decide)) (readsPure none)
  | some bs =>
    refine readsThen (readsLe (n := 1) (v := 1) (by decide)) ?_
    exact readsMap some (readsThen (readsLe (by simpa using h bs rfl)) (readsBytes rfl))

def CompressedCol.readBack (c : CompressedCol) : Option CompressedCol :=
  (c.payload.readBack c.nrows).map fun p => { c with payload := p }

structure CompressedCol.Sound (t : ColType) (c : CompressedCol) : Prop where
  type : c.colType = t.code
  bits : ∀ bs, c.nullBitmap = some bs → bs.length < 2 ^ 32
  payload : c.payload.Sound c.nrows t

theorem readsCol {t : ColType} {c : CompressedCol} {bs : Bytes} (sound : c.Sound t) (wr : wrCol c = some bs) :
    bs ≠ [] ∧ Reads (rdCol c.nrows) bs c.readBack := by
  obtain ⟨data,hd,rfl⟩ := Option.map_eq_some_iff.mp wr
  refine ⟨by simp,readsThen (readsBytes rfl) (readsThen (readsNulls sound.bits) ?_)⟩
  have rd := readsPayload sound.payload hd
  rw [← sound.type] at rd
  exact readsMap (fun p => { c with payload := p }) rd

theorem flattenWr {cols : List CompressedCol} {css : List Bytes} (h : cols.mapM wrCol = some css) :
    css.flatten = cols.flatMap fun col => (wrCol col).getD [] := by
  have := mapMSome.mp h
  clear h
  induction this with
  | nil => rfl
  | cons h _ ih => simp [h,ih]

theorem readsBatch {cb : CompressedBatch} {data : Bytes} (types : Nat → ColType) (wr : serialize cb = some data)
    (count : cb.cols.length = cb.ncols) (some_ : 1 ≤ cb.ncols) (limit : cb.ncols ≤ maxCols) (rows : cb.nrows < 2 ^ 31)
    (sound : ∀ c (col : CompressedCol), cb.cols[c]? = some col → col.nrows = cb.nrows ∧ col.Sound (types c)) :
    deserialize data = (cb.cols.mapM CompressedCol.readBack).map fun cols => { cb with schema := none, cols := cols } := by
  obtain ⟨css,hc,rfl⟩ := Option.map_eq_some_iff.mp wr
  have flat := flattenWr hc
  have each : ∀ col ∈ cb.cols, ∃ bs, wrCol col = some bs ∧ bs ≠ [] ∧ Reads (rdCol cb.nrows) bs col.readBack := by
    intro col hcol
    obtain ⟨c,hlt,at_⟩ := List.mem_iff_getElem.mp hcol
    obtain ⟨same,sd⟩ := sound c col (by rw [List.getElem?_eq_getElem hlt,at_])
    obtain ⟨bs,hbs⟩ : ∃ bs, wrCol col = some bs := by
      have f2 := mapMSome.mp hc
      have l2 := f2.length_eq
      exact ⟨css.get ⟨c,l2 ▸ hlt⟩,by have := List.Forall₂.get f2 hlt (l2 ▸ hlt); rwa [List.get_eq_getElem,at_] at this⟩
    exact ⟨bs,hbs,same ▸ readsCol sd hbs⟩
  have body : Reads (rdWhile (rdCol cb.nrows) cb.ncols) css.flatten (cb.cols.mapM CompressedCol.readBack) := by
    rw [flat,← count]
    refine readsWhile cb.cols (fun col h => ?_) fun col h => ?_
    · obtain ⟨bs,e,ne,_⟩ := each col h; simpa [e] using ne
    · obtain ⟨bs,e,_,rd⟩ := each col h; simpa [e] using rd
  have long : ¬ (wrHeader cb.ncols cb.nrows ++ css.flatten).length < 14 := by
    obtain ⟨col,hcol⟩ : ∃ col, col ∈ cb.cols := List.exists_mem_of_length_pos (by omega)
    obtain ⟨bs,e,ne,_⟩ := each col hcol
    have : bs ≠ [] → 0 < css.flatten.length := fun ne => by
      rw [flat,List.length_pos_iff]
      simp only [ne_eq,List.flatMap_eq_nil_iff,not_forall]
      exact ⟨col,hcol,by simpa [e] using ne⟩
    have := this ne
    simp only [wrHeader,List.length_append,leBytesLength]
    have : dcmb.length = 4 := rfl
    omega
  have whole : Reads rdBatch (wrHeader cb.ncols cb.nrows ++ css.flatten)
      ((cb.cols.mapM CompressedCol.readBack).map fun cols => { cb with schema := none, cols := cols }) := by
    simp only [wrHeader,List.append_assoc]
    refine readsThen (readsBytes rfl) ?_
    rw [if_neg (by simp)]
    refine readsThen (readsLe (by decide)) (readsThen (readsLe ?_) (readsThen (readsLe (by omega)) ?_))
    · unfold maxCols at limit; omega
    · rw [if_neg (by omega)]
      exact readsMap _ body
  have := whole []
  rw [List.append_nil] at this
  rw [deserialize,if_neg long,this]
  cases cb.cols.mapM CompressedCol.readBack <;> rfl

end Napastak.Store
