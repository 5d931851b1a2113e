import Napastak.CompressTrip

/-! Exactly which columns come back from the log with the cells they had. -/
namespace Napastak.Store
open Codec Rle Dict

/-- No 65536 equal cells in a row: a run's length is kept in 16 bits. -/
def RunsFit {α : Type} (cells : List α) : Prop := ∀ v, ¬ List.replicate 65536 v <:+: cells

/-- With more than 256 entries codes take two bytes, and the reader steps over them in `int`. -/
def CodesFit (nrows entries : Nat) : Prop := entries ≤ 256 ∨ nrows < 2 ^ 30

def NumsStorable (nrows : Nat) (bm : Option Bytes) (xs : List Int64) : ColType → Prop
  | .bool => RunsFit (placedNums bm xs)
  | .int64 =>
    if distinct (present bm xs) ≤ 65535 then CodesFit nrows (distinct (present bm xs)) else nrows < 2 ^ 28
  | _ => nrows < 2 ^ 28

/-- The texts the encoding is chosen by: the first thousand, null bits ignored. -/
def sampled (xs : List (Option Bytes)) : List Bytes := (xs.take 1000).map (·.getD [])

/-- Runs are at most a third of the sample. -/
abbrev FewRuns (xs : List (Option Bytes)) : Prop := countRuns (sampled xs) ≤ (sampled xs).length / 3

abbrev FewTexts (xs : List (Option Bytes)) : Prop := distinct (sampled xs) < 256

def TextsStorable (nrows : Nat) (bm : Option Bytes) (xs : List (Option Bytes)) (t : ColType) : Prop :=
  (∀ s ∈ placedTexts bm xs, s.length < 2 ^ 32 - 1) ∧
    if t = .text ∧ FewRuns xs then RunsFit (placedTexts bm xs)
    else if t = .text ∧ FewTexts xs ∧ distinct (placedTexts bm xs) ≤ 65535 then
      CodesFit nrows (distinct (placedTexts bm xs))
    else ∀ i s, nullBit bm i = true → xs[i]? = some (some s) → s.length % 2 ^ 32 ≠ 2 ^ 32 - 1

/-- The columns the layout has room for. -/
def Storable (nrows : Nat) (t : ColType) (col : Column) : Prop :=
  (col.nullBitmap.isSome → nrows + 7 < 2 ^ 31) ∧
    match col.values with
    | .null => False
    | .nums xs => NumsStorable nrows col.nullBitmap xs t
    | .texts xs => TextsStorable nrows col.nullBitmap xs t

/-- The payload is written, read back and unpacked to the same value in every cell that is not NULL. -/
def Payload.Survives (nrows : Nat) (bm : Option Bytes) (values : Values) (p : Payload) : Prop :=
  ∃ data p', wrPayload nrows p = some data ∧ p.readBack nrows = some p' ∧
    ∀ i < nrows, nullBit bm i = false → values.cell i = (p'.unpack (bm.map (·.take (nullBmBytes nrows))) nrows).cell i

section
variable {nrows : Nat} {bm : Option Bytes}

theorem survivesPlainNums (xs : List Int64) :
    (Payload.plain (.nums xs)).Survives nrows bm (.nums xs) ↔ nrows < 2 ^ 28 := by
  constructor
  · rintro ⟨data,_,wr,_⟩
    simp only [wrPayload] at wr
    split at wr
    · cases wr
    · omega
  · intro lt
    exact ⟨_,_,if_neg (by omega),rfl,fun _ _ _ => rfl⟩

theorem survivesNums {xs : List Int64} {p : Packed Int64}
    (cells : ∀ i < nrows, nullBit bm i = false → p.unpack[i]? = xs[i]?) :
    (Payload.nums p).Survives nrows bm (.nums xs) ↔ p.Steps nrows := by
  have self : p.mapM some = some p := packedSelf fun _ _ => rfl
  constructor
  · rintro ⟨data,p',_,rd,_⟩
    simp only [Payload.readBack,Packed.readBack] at rd
    by_contra no
    simp [no] at rd
  · intro steps
    refine ⟨_,.nums p,rfl,by simp [Payload.readBack,Packed.readBack,steps,self],fun i hi nn => ?_⟩
    simp only [Payload.unpack,Values.cell,cells i hi nn]

theorem placedAt (bm : Option Bytes) (xs : List (Option Bytes)) (i : Nat) :
    (placedTexts bm xs)[i]? = xs[i]?.map fun s => if nullBit bm i then [] else s.getD [] := by
  simp [placedTexts]

/-- Every cell there is must fit its length field once the cells that are not NULL come back unchanged. -/
theorem cellsRead {xs : List (Option Bytes)} (len : xs.length = nrows) {ys : List Bytes}
    (read : List.Forall₂ (fun s y => readText s = some y) (placedTexts bm xs) ys)
    (same : ∀ i < nrows, nullBit bm i = false → ys[i]? = (placedTexts bm xs)[i]?) :
    ∀ s ∈ placedTexts bm xs, s.length < 2 ^ 32 - 1 := by
  intro s hs
  obtain ⟨i,hi,at_⟩ := List.mem_iff_getElem.mp hs
  have lt : i < nrows := by simpa [placedTexts,len] using hi
  cases nn : nullBit bm i with
  | true =>
    have := placedAt bm xs i
    rw [List.getElem?_eq_getElem hi,at_,nn] at this
    obtain ⟨_,_,e⟩ := Option.map_eq_some_iff.mp this.symm
    rw [if_pos rfl] at e
    subst e; decide
  | false =>
    have hy : i < ys.length := read.length_eq ▸ hi
    have rd : readText s = some ys[i] := by have := read.get hi hy; rwa [List.get_eq_getElem,at_] at this
    have := same i lt nn
    rw [List.getElem?_eq_getElem hi,List.getElem?_eq_getElem hy,at_,Option.some.injEq] at this
    exact (readTextSelf s).mp (this ▸ rd)

/-- Entry for entry, what is unpacked after reading is what was read for the entry before. -/
theorem unpackRead {α : Type} [Inhabited α] {f : α → Option α} {p p' : Packed α} (read : p.mapM f = some p')
    (codes : ∀ values isU8 ks, p = .dict values isU8 ks → ∀ k ∈ ks, k < values.length) :
    List.Forall₂ (fun x y => f x = some y) p.unpack p'.unpack := by
  cases p with
  | rle runs =>
    obtain ⟨runs',h,rfl⟩ := Option.map_eq_some_iff.mp read
    have each := mapMSome.mp h
    clear read h codes
    simp only [Packed.unpack,expand]
    induction each with
    | nil => exact .nil
    | cons one _ ih =>
      obtain ⟨y,hy,rfl⟩ := Option.map_eq_some_iff.mp one
      refine List.rel_append ?_ ih
      exact List.forall₂_iff_get.mpr ⟨by simp,fun i _ _ => by simpa using hy⟩
  | dict values isU8 ks =>
    obtain ⟨values',h,rfl⟩ := Option.map_eq_some_iff.mp read
    have each := mapMSome.mp h
    simp only [Packed.unpack]
    refine List.forall₂_map_left_iff.mpr (List.forall₂_map_right_iff.mpr (List.forall₂_same.mpr fun k hk => ?_))
    have lt := codes values isU8 ks rfl k hk
    have lt' : k < values'.length := each.length_eq ▸ lt
    simp only [List.getD_eq_getElem?_getD,List.getElem?_eq_getElem lt,List.getElem?_eq_getElem lt',Option.getD_some]
    exact each.get lt lt'

theorem survivesTexts {xs : List (Option Bytes)} (len : xs.length = nrows) {p : Packed Bytes}
    (cells : p.unpack = placedTexts bm xs) (entries : ∀ s ∈ p.entries, s ∈ placedTexts bm xs)
    (codes : ∀ values isU8 ks, p = .dict values isU8 ks → ∀ k ∈ ks, k < values.length) :
    (Payload.texts p).Survives nrows bm (.texts xs) ↔
      p.Steps nrows ∧ ∀ s ∈ placedTexts bm xs, s.length < 2 ^ 32 - 1 := by
  constructor
  · rintro ⟨data,q,_,rd,same⟩
    simp only [Payload.readBack,Packed.readBack] at rd
    split at rd
    · rename_i steps
      obtain ⟨p',h,rfl⟩ := Option.map_eq_some_iff.mp rd
      refine ⟨steps,cellsRead len (cells ▸ unpackRead h codes) fun i hi nn => ?_⟩
      have := same i hi nn
      simp only [Payload.unpack,Values.cell,List.getElem?_map,Option.map_map] at this
      rw [placedAt,nn]
      cases hx : xs[i]? <;> cases hy : p'.unpack[i]? <;> simp_all
    · cases rd
  · rintro ⟨steps,short⟩
    have self : p.mapM readText = some p := packedSelf fun s hs => (readTextSelf s).mpr (short s (entries s hs))
    refine ⟨_,.texts p,rfl,by simp [Payload.readBack,Packed.readBack,steps,self],fun i hi nn => ?_⟩
    simp only [Payload.unpack,Values.cell,List.getElem?_map,cells,placedAt,nn]
    cases xs[i]? <;> simp

/-- A text stored as it stands is read whatever its null bit says. -/
theorem survivesPlainTexts {xs : List (Option Bytes)} (len : xs.length = nrows) :
    (Payload.plain (.texts xs)).Survives nrows bm (.texts xs) ↔ (∀ s ∈ placedTexts bm xs, s.length < 2 ^ 32 - 1) ∧
      ∀ i s, nullBit bm i = true → xs[i]? = some (some s) → s.length % 2 ^ 32 ≠ 2 ^ 32 - 1 := by
  constructor
  · rintro ⟨data,q,_,rd,same⟩
    obtain ⟨ys,h,rfl⟩ := Option.map_eq_some_iff.mp rd
    have each := mapMSome.mp h
    refine ⟨fun s hs => ?_,fun i s _ at_ long => ?_⟩
    · obtain ⟨i,hi,at_⟩ := List.mem_iff_getElem.mp hs
      have lt : i < nrows := by simpa [placedTexts,len] using hi
      have here := placedAt bm xs i
      rw [List.getElem?_eq_getElem hi,at_,List.getElem?_eq_getElem (len ▸ lt),Option.map_some,Option.some.injEq] at here
      cases nn : nullBit bm i with
      | true => rw [nn,if_pos rfl] at here; subst here; decide
      | false =>
        rw [nn,if_neg (by simp)] at here
        have hy : i < ys.length := each.length_eq ▸ len ▸ lt
        have rd := each.get (len ▸ lt) hy
        have := same i lt nn
        simp only [Payload.unpack,Values.cell,List.getElem?_map,List.getElem?_eq_getElem (len ▸ lt : i < xs.length),
          List.getElem?_eq_getElem hy,Option.map_some,Option.some.injEq,Cell.text.injEq,Option.getD_some] at this
        simp only [List.get_eq_getElem,← here,← this] at rd
        exact (readTextSelf s).mp rd
    · obtain ⟨hi,at_⟩ := List.getElem?_eq_some_iff.mp at_
      have hy : i < ys.length := each.length_eq ▸ hi
      have rd := each.get hi hy
      simp only [List.get_eq_getElem,at_,Option.getD_some,readText,if_pos long] at rd
      cases rd
  · rintro ⟨short,odd⟩
    let cut : Option Bytes → Bytes := fun s => (s.getD []).take ((s.getD []).length % 2 ^ 32)
    have read : ∀ s ∈ xs, readText (s.getD []) = some (cut s) := by
      intro s hs
      obtain ⟨i,hi,at_⟩ := List.mem_iff_getElem.mp hs
      have at_ := (List.getElem?_eq_getElem hi).trans (congrArg some at_)
      refine if_neg ?_
      cases nn : nullBit bm i with
      | true => cases s with
        | none => decide
        | some s => exact odd i s nn at_
      | false =>
        have := short (s.getD []) (List.mem_of_getElem? (i := i) (by rw [placedAt,at_,nn]; simp))
        rw [Nat.mod_eq_of_lt (by omega)]
        omega
    have all : xs.mapM (fun s => readText (s.getD [])) = some (xs.map cut) :=
      mapMSome.mpr (List.forall₂_map_right_iff.mpr (List.forall₂_same.mpr read))
    refine ⟨_,_,rfl,by rw [Payload.readBack,all]; rfl,fun i hi nn => ?_⟩
    have at_ := List.getElem?_eq_getElem (len ▸ hi : i < xs.length)
    have := short _ (List.mem_of_getElem? (i := i) (by rw [placedAt,at_,nn]; simp; rfl))
    have whole : cut xs[i] = xs[i].getD [] := by
      simp only [cut]
      rw [Nat.mod_eq_of_lt (by omega),List.take_length]
    simp only [Payload.unpack,Values.cell,List.getElem?_map,at_,Option.map_some,whole,Option.getD_some]

end

/-! ### What the encodings make of a column -/

theorem compressRleSome {α : Type} [DecidableEq α] [Inhabited α] {xs : List α} {p : Packed α} {nrows : Nat}
    (h : compressRle xs = some p) (len : xs.length = nrows) (rows : nrows < 2 ^ 31) :
    p.Sound nrows ∧ p.Steps nrows ∧ p.unpack = xs ∧ (∀ x ∈ p.entries, x ∈ xs) ∧
      ∀ values isU8 ks, p = .dict values isU8 ks → ∀ k ∈ ks, k < values.length := by
  simp only [compressRle] at h
  split at h
  · cases h
  · cases h
    have size := rleLength 65535 xs
    refine ⟨⟨by omega,fun r hr => ?_⟩,trivial,expandRle 65535 xs,fun x hx => ?_,by simp⟩
    · have := rleCounts (by decide) xs r hr
      omega
    · obtain ⟨r,hr,rfl⟩ := List.mem_map.mp hx
      exact rleValues 65535 xs r hr

theorem compressRleNone {α : Type} [DecidableEq α] {xs : List α} : (compressRle xs).isSome ↔ RunsFit xs := by
  rw [RunsFit,← @rleFits α _ 65535 (by decide) xs,compressRle]
  split <;> simp <;> omega

theorem stepsDict {α : Type} {nrows : Nat} {values : List α} {codes : List Nat} :
    (Packed.dict values (decide (values.length ≤ 256)) codes).Steps nrows ↔ CodesFit nrows values.length := by
  unfold CodesFit
  by_cases h : values.length ≤ 256
  · simp [h,Packed.Steps]
  · simp only [h,decide_false,Packed.Steps,false_or]
    omega

/-- A code in use fits the width chosen for the dictionary. -/
theorem codeSmall {k entries : Nat} (h : k = 0 ∨ k < entries) (le : entries ≤ 65535) :
    k < if decide (entries ≤ 256) then 2 ^ 8 else 2 ^ 16 := by
  simp only [decide_eq_true_eq]
  split <;> omega

theorem presentMem {α : Type} {bm : Option Bytes} {xs : List α} {v : α} :
    v ∈ present bm xs ↔ ∃ i, nullBit bm i = false ∧ xs[i]? = some v := by
  simp only [present,List.mem_map,List.mem_filter,Bool.not_eq_true',Prod.exists,exists_and_right,exists_eq_right,
    List.mk_mem_zipIdx_iff_getElem?]
  exact exists_congr fun i => and_comm

theorem compressDictIntSome {bm : Option Bytes} {xs : List Int64} {p : Packed Int64} {nrows : Nat}
    (h : compressDictInt bm xs = some p) (len : xs.length = nrows) :
    p.Sound nrows ∧ (p.Steps nrows ↔ CodesFit nrows (distinct (present bm xs))) ∧
      ∀ i < nrows, nullBit bm i = false → p.unpack[i]? = xs[i]? := by
  obtain ⟨u,hu,rfl⟩ := Option.map_eq_some_iff.mp h
  obtain ⟨nodup,le,mem⟩ := uniquesSome hu
  have size : (sortBy Int64.toInt u).length = distinct (present bm xs) := by
    rw [sortByLength,distinctOf nodup mem]
  have strict := sortByStrict (fun a b => Int64.toInt_inj.mp) nodup
  have search : ∀ i < nrows, nullBit bm i = false → ∃ v, xs[i]? = some v ∧
      (sortBy Int64.toInt u)[bsearch Int64.toInt (sortBy Int64.toInt u) v 0 (sortBy Int64.toInt u).length]? = some v := by
    intro i hi nn
    have at_ := List.getElem?_eq_getElem (len ▸ hi : i < xs.length)
    exact ⟨_,at_,bsearchFinds strict ((sortByMem u _).mpr ((mem _).mpr (presentMem.mpr ⟨i,nn,at_⟩)))⟩
  refine ⟨⟨by rw [sortByLength]; omega,by simpa using len,fun k hk => ?_⟩,size ▸ stepsDict,fun i hi nn => ?_⟩
  · obtain ⟨i,hi,rfl⟩ := List.mem_mapIdx.mp hk
    refine codeSmall ?_ (by rw [sortByLength]; exact le)
    split
    · exact .inl rfl
    · rename_i nn
      obtain ⟨v,at_,found⟩ := search i (len ▸ hi) (Bool.eq_false_iff.mpr nn)
      rw [List.getElem?_eq_getElem hi,Option.some.injEq] at at_
      exact .inr (at_ ▸ (List.getElem?_eq_some_iff.mp found).1)
  · obtain ⟨v,at_,found⟩ := search i hi nn
    simp only [Packed.unpack,List.getElem?_map,List.getElem?_mapIdx,at_,Option.map_some,nn,List.getD_eq_getElem?_getD]
    simp [found]

theorem compressDictTextSome {bm : Option Bytes} {xs : List (Option Bytes)} {p : Packed Bytes} {nrows : Nat}
    (h : compressDictText bm xs = some p) (len : xs.length = nrows) :
    p.Sound nrows ∧ (p.Steps nrows ↔ CodesFit nrows (distinct (placedTexts bm xs))) ∧
      p.unpack = placedTexts bm xs ∧ (∀ s ∈ p.entries, s ∈ placedTexts bm xs) ∧
      ∀ values isU8 ks, p = .dict values isU8 ks → ∀ k ∈ ks, k < values.length := by
  obtain ⟨u,hu,rfl⟩ := Option.map_eq_some_iff.mp h
  obtain ⟨nodup,le,mem⟩ := uniquesSome hu
  have known : ∀ k ∈ (placedTexts bm xs).map u.idxOf, k < u.length := by
    intro k hk
    obtain ⟨s,hs,rfl⟩ := List.mem_map.mp hk
    exact List.idxOf_lt_length_of_mem ((mem s).mpr hs)
  refine ⟨⟨by omega,by simpa [placedTexts] using len,fun k hk => codeSmall (.inr (known k hk)) le⟩,
    distinctOf nodup mem ▸ stepsDict,?_,fun s hs => (mem s).mp hs,?_⟩
  · simp only [Packed.unpack,List.map_map]
    refine (List.map_congr_left fun s hs => ?_).trans (List.map_id _)
    have lt := List.idxOf_lt_length_of_mem ((mem s).mpr hs)
    simp [List.getD_eq_getElem?_getD,List.getElem?_eq_getElem lt]
  · rintro _ _ _ e k hk
    cases e
    exact known k hk

/-! ### The choice of an encoding -/

theorem chooseIntDict (bm : Option Bytes) (vs : List Int64) {sample : Nat} (le : sample ≤ 1000) :
    chooseInt bm vs sample = .dict := by
  have few : countRuns (sortBy Int64.toInt (present bm (vs.take sample))) < 65536 := by
    have := countRunsLe (sortBy Int64.toInt (present bm (vs.take sample)))
    have : (present bm (vs.take sample)).length ≤ sample := by
      simp only [present,List.length_map]
      refine (List.length_filter_le _ _).trans ?_
      simp
    rw [sortByLength] at *
    omega
  simp only [chooseInt,few,if_true,ite_self]

/-- The count is exact below 256, the number of texts the loop remembers. -/
theorem seenCount (xs : List Bytes) {done seen : List Bytes} {n : Nat} (nodup : seen.Nodup)
    (sub : ∀ s ∈ seen, s ∈ done) (full : seen.length = min n 256) (all : n < 256 → ∀ s ∈ done, s ∈ seen) :
    (xs.foldl seenStep (seen,n)).2 < 256 ↔ distinct (done ++ xs) < 256 := by
  induction xs generalizing done seen n with
  | nil =>
    rw [List.append_nil,List.foldl_nil]
    constructor
    · intro lt
      have := distinctOf nodup fun s => ⟨sub s,all lt s⟩
      omega
    · intro lt
      have := distinctGe nodup sub
      omega
  | cons x xs ih =>
    rw [List.foldl_cons,List.append_cons]
    simp only [seenStep]
    split
    · exact ih nodup (fun s hs => List.mem_append_left _ (sub s hs)) full fun lt s hs => by grind
    · rename_i new
      split
      · refine ih ?_ ?_ ?_ ?_
        · rw [List.nodup_append]; grind
        · grind
        · simp only [List.length_append,List.length_singleton]; omega
        · intro lt s hs; grind
      · exact ih nodup (fun s hs => List.mem_append_left _ (sub s hs)) (by omega) fun lt => by omega

theorem chooseTextBy (xs : List (Option Bytes)) : chooseText xs (min xs.length 1000) =
    if FewRuns xs then .rle else if FewTexts xs then .dict else .plain := by
  have sample : (xs.take (min xs.length 1000)).map (·.getD []) = sampled xs := by
    rw [sampled,List.take_eq_take_iff.mpr]; omega
  have few : ((sampled xs).foldl seenStep ([],0)).2 < 256 ↔ FewTexts xs := by
    simpa using @seenCount (sampled xs) [] [] 0 List.nodup_nil (by simp) (by simp) (by simp)
  have len : (sampled xs).length = min xs.length 1000 := by simp [sampled,Nat.min_comm]
  simp only [chooseText,sample,few]
  rw [← len]

/-! ### One column -/

/-- What `compress_col` stores for a column with the encoding chosen for it. -/
def payloadOf (nrows : Nat) (t : ColType) (bm : Option Bytes) (values : Values) : Option Payload :=
  (compressPayload values bm t (chooseEncoding values bm nrows t)).map (·.getD (.plain values))

/-- Stored soundly, and coming back exactly on the condition. -/
def Exact (nrows : Nat) (t : ColType) (bm : Option Bytes) (values : Values) (cond : Prop) : Prop :=
  (∀ p, payloadOf nrows t bm values = some p → p.Sound nrows t) ∧
    ((∃ p, payloadOf nrows t bm values = some p ∧ p.Survives nrows bm values) ↔ cond)

theorem exactOf {nrows : Nat} {t : ColType} {bm : Option Bytes} {values : Values} {cond : Prop} {p : Payload}
    (is : payloadOf nrows t bm values = some p) (sound : p.Sound nrows t) (iff_ : p.Survives nrows bm values ↔ cond) :
    Exact nrows t bm values cond :=
  ⟨fun _ h => Option.some.inj (is.symm.trans h) ▸ sound,
    ⟨fun ⟨_,h,s⟩ => iff_.mp (Option.some.inj (is.symm.trans h) ▸ s),fun c => ⟨p,is,iff_.mpr c⟩⟩⟩

theorem Exact.congr {nrows : Nat} {t : ColType} {bm : Option Bytes} {values : Values} {c d : Prop}
    (h : Exact nrows t bm values c) (e : c ↔ d) : Exact nrows t bm values d := ⟨h.1,h.2.trans e⟩

theorem runsFitNil {α : Type} : RunsFit ([] : List α) := fun v h => by
  have := h.length_le
  rw [List.length_replicate] at this
  exact absurd this (by rw [List.length_nil]; decide)

section
variable {nrows : Nat} {bm : Option Bytes}

theorem plainTextsExact {t : ColType} {xs : List (Option Bytes)} (kind : t.isTextual = true) (len : xs.length = nrows)
    (is : payloadOf nrows t bm (.texts xs) = some (.plain (.texts xs))) :
    Exact nrows t bm (.texts xs) ((∀ s ∈ placedTexts bm xs, s.length < 2 ^ 32 - 1) ∧
      ∀ i s, nullBit bm i = true → xs[i]? = some (some s) → s.length % 2 ^ 32 ≠ 2 ^ 32 - 1) :=
  exactOf is ⟨kind,len⟩ (survivesPlainTexts len)

theorem rleExact {α : Type} [DecidableEq α] {xs : List α} {t : ColType} {values : Values} {g : Packed α → Payload}
    {q : Prop} (is : payloadOf nrows t bm values = (compressRle xs).map g)
    (sound : ∀ p, compressRle xs = some p → (g p).Sound nrows t)
    (survives : ∀ p, compressRle xs = some p → ((g p).Survives nrows bm values ↔ q)) :
    Exact nrows t bm values (q ∧ RunsFit xs) := by
  cases h : compressRle xs with
  | none =>
    have no : ¬ RunsFit xs := fun fit => by simpa [h] using compressRleNone.mpr fit
    rw [h] at is
    exact ⟨by simp [is],iff_of_false (by simp [is]) fun c => no c.2⟩
  | some p =>
    rw [h] at is
    have fit : RunsFit xs := compressRleNone.mp (by simp [h])
    exact exactOf is (sound p h) ((survives p h).trans (and_iff_left fit).symm)

theorem numsExact {t : ColType} {xs : List Int64} (kind : t.isTextual = false) (len : xs.length = nrows)
    (rows : nrows < 2 ^ 31) : Exact nrows t bm (.nums xs) (NumsStorable nrows bm xs t) := by
  have plain : payloadOf nrows t bm (.nums xs) = some (.plain (.nums xs)) →
      Exact nrows t bm (.nums xs) (nrows < 2 ^ 28) := fun is => exactOf is ⟨kind,len⟩ (survivesPlainNums xs)
  by_cases zero : nrows = 0
  · obtain rfl : xs = [] := List.eq_nil_of_length_eq_zero (len.trans zero)
    have yes : NumsStorable nrows bm [] t := by
      cases t with
      | bool => exact runsFitNil
      | int64 => exact .inl (Nat.zero_le 256)
      | _ => exact zero ▸ Nat.pow_pos (by decide)
    exact (plain (by simp [payloadOf,chooseEncoding,zero,compressPayload])).congr (iff_of_true (by omega) yes)
  · cases t with
    | bool =>
      have placed : (placedNums bm xs).length = nrows := by simpa [placedNums] using len
      have is : payloadOf nrows .bool bm (.nums xs) = (compressRle (placedNums bm xs)).map .nums := by
        simp only [payloadOf,chooseEncoding,zero,if_false,compressPayload]
        cases compressRle (placedNums bm xs) <;> rfl
      have := rleExact (q := True) is (fun p h => ⟨rfl,(compressRleSome h placed rows).1⟩) fun p h => by
        obtain ⟨_,steps,cells,_⟩ := compressRleSome h placed rows
        refine iff_true_right trivial |>.mpr ((survivesNums fun i _ nn => ?_).mpr steps)
        rw [cells,placedNums,List.getElem?_mapIdx,nn]
        simp
      rwa [true_and] at this
    | int64 =>
      have choice : chooseEncoding (.nums xs) bm nrows .int64 = .dict := by
        simp only [chooseEncoding,zero,if_false]
        exact chooseIntDict bm xs (Nat.min_le_right _ _)
      cases h : compressDictInt bm xs with
      | none =>
        have many := uniquesNone.mp (Option.map_eq_none_iff.mp h)
        simp only [NumsStorable,if_neg (Nat.not_le.mpr many)]
        exact plain (by simp [payloadOf,choice,compressPayload,h])
      | some p =>
        have few : distinct (present bm xs) ≤ 65535 := Nat.le_of_not_lt fun many => by
          simp [compressDictInt,uniquesNone.mpr many] at h
        obtain ⟨sound,steps,cells⟩ := compressDictIntSome h len
        simp only [NumsStorable,if_pos few,← steps]
        exact exactOf (p := .nums p) (by simp [payloadOf,choice,compressPayload,h]) ⟨rfl,sound⟩ (survivesNums cells)
    | double => exact plain (by simp [payloadOf,chooseEncoding,compressPayload])
    | _ => cases kind

theorem textsExact {t : ColType} {xs : List (Option Bytes)} (kind : t.isTextual = true) (len : xs.length = nrows)
    (rows : nrows < 2 ^ 31) : Exact nrows t bm (.texts xs) (TextsStorable nrows bm xs t) := by
  by_cases zero : nrows = 0
  · obtain rfl : xs = [] := List.eq_nil_of_length_eq_zero (len.trans zero)
    have yes : TextsStorable nrows bm [] t := by
      refine ⟨by simp [placedTexts],?_⟩
      split
      · exact runsFitNil
      · split
        · exact .inl (Nat.zero_le 256)
        · simp
    refine (plainTextsExact kind len (by simp [payloadOf,chooseEncoding,zero,compressPayload])).congr
      (iff_of_true ⟨by simp [placedTexts],by simp⟩ yes)
  · have placed : (placedTexts bm xs).length = nrows := by simpa [placedTexts] using len
    by_cases text : t = .text
    · subst text
      have choice : chooseEncoding (.texts xs) bm nrows .text =
          if FewRuns xs then .rle else if FewTexts xs then .dict else .plain := by
        simp only [chooseEncoding,zero,if_false]
        rw [← len,chooseTextBy]
      simp only [TextsStorable,true_and]
      by_cases runs : FewRuns xs
      · simp only [if_pos runs] at choice ⊢
        have is : payloadOf nrows .text bm (.texts xs) = (compressRle (placedTexts bm xs)).map .texts := by
          simp only [payloadOf,choice,compressPayload]
          cases compressRle (placedTexts bm xs) <;> rfl
        refine rleExact is (fun p h => ⟨rfl,(compressRleSome h placed rows).1⟩) fun p h => ?_
        obtain ⟨_,steps,cells,entries,codes⟩ := compressRleSome h placed rows
        rw [survivesTexts len cells entries codes,and_iff_right steps]
      · simp only [if_neg runs] at choice ⊢
        by_cases few : FewTexts xs
        · simp only [if_pos few] at choice
          cases h : compressDictText bm xs with
          | none =>
            have many := uniquesNone.mp (Option.map_eq_none_iff.mp h)
            rw [if_neg fun c => Nat.not_le.mpr many c.2]
            exact plainTextsExact kind len (by simp [payloadOf,choice,compressPayload,h])
          | some p =>
            have le : distinct (placedTexts bm xs) ≤ 65535 := Nat.le_of_not_lt fun many => by
              simp [compressDictText,uniquesNone.mpr many] at h
            obtain ⟨sound,steps,cells,entries,codes⟩ := compressDictTextSome h len
            rw [if_pos ⟨few,le⟩]
            refine exactOf (p := .texts p) (by simp [payloadOf,choice,compressPayload,h]) ⟨rfl,sound⟩ ?_
            rw [survivesTexts len cells entries codes,steps,and_comm]
        · simp only [if_neg few] at choice
          rw [if_neg fun c => few c.1]
          exact plainTextsExact kind len (by simp [payloadOf,choice,compressPayload])
    · simp only [TextsStorable,text,false_and,if_false]
      exact plainTextsExact kind len (by cases t <;> simp_all [payloadOf,chooseEncoding,compressPayload,ColType.isTextual])

end

/-- What `compress_col` stores for a column with the encoding asked for. -/
def payloadBy (t : ColType) (bm : Option Bytes) (values : Values) (enc : Encoding) : Option Payload :=
  (compressPayload values bm t enc).map (·.getD (.plain values))

/-- The two halves of `compress_col`'s work on a column. -/
theorem compressColIs {nrows : Nat} {t : ColType} {col : Column} {enc : Encoding} {cc : CompressedCol} :
    compressCol col nrows t enc = some cc ↔ (col.nullBitmap.isSome → nrows + 7 < 2 ^ 31) ∧
      ∃ p, payloadBy t col.nullBitmap col.values enc = some p ∧
        cc = ⟨t.code,nrows,col.nullBitmap.map (·.take (nullBmBytes nrows)),p⟩ := by
  rw [compressCol]
  by_cases long : col.nullBitmap.isSome ∧ 2 ^ 31 ≤ nrows + 7
  · simp only [if_pos long]
    exact iff_of_false (by simp) fun h => absurd (h.1 long.1) (Nat.not_lt.mpr long.2)
  · simp only [if_neg long,payloadBy]
    have room : col.nullBitmap.isSome → nrows + 7 < 2 ^ 31 := fun h => Nat.lt_of_not_le fun le => long ⟨h,le⟩
    rw [and_iff_right room]
    cases compressPayload col.values col.nullBitmap t enc <;> simp [eq_comm]

theorem compressTypedIs {nrows : Nat} {t : ColType} {col : Column} {cc : CompressedCol} :
    compressTyped nrows (t,col) = some cc ↔ (col.nullBitmap.isSome → nrows + 7 < 2 ^ 31) ∧
      ∃ p, payloadOf nrows t col.nullBitmap col.values = some p ∧
        cc = ⟨t.code,nrows,col.nullBitmap.map (·.take (nullBmBytes nrows)),p⟩ := compressColIs

theorem fitsExact {nrows : Nat} {t : ColType} {col : Column} (fits : col.Fits nrows t) (rows : nrows < 2 ^ 31) :
    Exact nrows t col.nullBitmap col.values (match col.values with
      | .null => False
      | .nums xs => NumsStorable nrows col.nullBitmap xs t
      | .texts xs => TextsStorable nrows col.nullBitmap xs t) := by
  obtain ⟨kind,bits⟩ := fits
  cases h : col.values with
  | null => rw [h] at kind; exact kind.elim
  | nums xs => rw [h] at kind; exact numsExact kind.1 kind.2 rows
  | texts xs => rw [h] at kind; exact textsExact kind.1 kind.2 rows

/-- A column goes through the log and comes out as `cc'`. -/
def Through (nrows : Nat) (p : ColType × Column) (cc' : CompressedCol) : Prop :=
  ∃ cc bs, compressTyped nrows p = some cc ∧ wrCol cc = some bs ∧ cc.readBack = some cc'

theorem colExact {nrows : Nat} {t : ColType} {col : Column} (fits : col.Fits nrows t) (rows : nrows < 2 ^ 31) :
    (∃ cc', Through nrows (t,col) cc' ∧ SameCells nrows col (decompressCol cc')) ↔ Storable nrows t col := by
  have exact_ := (fitsExact fits rows).2
  constructor
  · rintro ⟨cc',⟨cc,bs,hc,wr,rd⟩,same⟩
    obtain ⟨room,p,hp,rfl⟩ := compressTypedIs.mp hc
    obtain ⟨data,hd,rfl⟩ := Option.map_eq_some_iff.mp wr
    obtain ⟨p',hp',rfl⟩ := Option.map_eq_some_iff.mp rd
    exact ⟨room,exact_.mp ⟨p,hp,data,p',hd,hp',fun i hi nn => (same i hi).2 nn⟩⟩
  · rintro ⟨room,storable⟩
    obtain ⟨p,hp,data,p',hd,hp',same⟩ := exact_.mpr storable
    refine ⟨_,⟨_,_,compressTypedIs.mpr ⟨room,p,hp,rfl⟩,Option.map_eq_some_iff.mpr ⟨data,hd,rfl⟩,
      Option.map_eq_some_iff.mpr ⟨p',hp',rfl⟩⟩,fun i hi => ⟨?_,same i hi⟩⟩
    exact ((nullBitTake hi).trans (nullBitTake hi)).symm

theorem colSound {nrows : Nat} {t : ColType} {col : Column} (fits : col.Fits nrows t) (rows : nrows < 2 ^ 31)
    {cc : CompressedCol} (h : compressTyped nrows (t,col) = some cc) : cc.nrows = nrows ∧ cc.Sound t := by
  obtain ⟨_,p,hp,rfl⟩ := compressTypedIs.mp h
  refine ⟨rfl,rfl,fun bs hbs => ?_,(fitsExact fits rows).1 p hp⟩
  obtain ⟨bm,_,rfl⟩ := Option.map_eq_some_iff.mp hbs
  have := List.length_take_le (nullBmBytes nrows) bm
  unfold nullBmBytes at this
  show (bm.take (nullBmBytes nrows)).length < 2 ^ 32
  unfold nullBmBytes
  omega

/-! ### The batch -/

theorem typedAt (b : ColBatch) (c : Nat) : b.typed[c]? = b.cols[c]?.map fun col => (typeOf b.schema c,col) := by
  simp [ColBatch.typed]

theorem throughAll {nrows : Nat} {ps : List (ColType × Column)} {cols : List CompressedCol} :
    (∃ ccs css, List.Forall₂ (fun p cc => compressTyped nrows p = some cc) ps ccs ∧
      List.Forall₂ (fun cc bs => wrCol cc = some bs) ccs css ∧
      List.Forall₂ (fun cc cc' => cc.readBack = some cc') ccs cols) ↔ List.Forall₂ (Through nrows) ps cols := by
  constructor
  · rintro ⟨ccs,css,hc,hw,hr⟩
    induction hc generalizing css cols with
    | nil => cases hr; exact .nil
    | cons one _ ih =>
      cases hw with
      | cons w ws => cases hr with
        | cons r rs => exact .cons ⟨_,_,one,w,r⟩ (ih _ ws rs)
  · intro h
    induction h with
    | nil => exact ⟨[],[],.nil,.nil,.nil⟩
    | cons one _ ih =>
      obtain ⟨cc,bs,hc,hw,hr⟩ := one
      obtain ⟨ccs,css,hcs,hws,hrs⟩ := ih
      exact ⟨cc :: ccs,bs :: css,.cons hc hcs,.cons hw hws,.cons hr hrs⟩

theorem rereadIff {b b' : ColBatch} (wf : b.Wf) : reread b = some b' ↔
    ∃ ccs, List.Forall₂ (Through b.nrows) b.typed ccs ∧ b' = decompressBatch ⟨none,b.ncols,b.nrows,ccs⟩ := by
  have back : ∀ ccs css, b.typed.mapM (compressTyped b.nrows) = some ccs → ccs.mapM wrCol = some css →
      deserialize (wrHeader b.ncols b.nrows ++ css.flatten) =
        (ccs.mapM CompressedCol.readBack).map fun cols => ⟨none,b.ncols,b.nrows,cols⟩ := by
    intro ccs css hcc hcs
    have each := mapMSome.mp hcc
    have len : ccs.length = b.ncols := by rw [← each.length_eq,← wf.count]; simp [ColBatch.typed]
    refine @readsBatch ⟨b.schema,b.ncols,b.nrows,ccs⟩ _ (typeOf b.schema) (by rw [serialize,hcs]; rfl) len
      wf.some_ wf.limit wf.rows fun c cc at_ => ?_
    obtain ⟨lt,at_⟩ := List.getElem?_eq_some_iff.mp at_
    have lt' : c < b.typed.length := each.length_eq ▸ lt
    have step := each.get lt' lt
    simp only [List.get_eq_getElem,at_] at step
    have col := typedAt b c
    rw [List.getElem?_eq_getElem lt'] at col
    obtain ⟨col,hcol,e⟩ := Option.map_eq_some_iff.mp col.symm
    exact colSound (wf.fits c col hcol) wf.rows (e ▸ step)
  constructor
  · intro h
    simp only [reread,compressBatch,Option.bind_eq_bind,Option.bind_eq_some_iff,Option.map_eq_some_iff] at h
    obtain ⟨cb,⟨ccs,hcc,rfl⟩,data,hdata,cb',hcb,e⟩ := h
    obtain ⟨css,hcs,rfl⟩ := Option.map_eq_some_iff.mp hdata
    rw [back ccs css hcc hcs] at hcb
    obtain ⟨cols,hcols,rfl⟩ := Option.map_eq_some_iff.mp hcb
    cases e
    exact ⟨cols,throughAll.mp ⟨ccs,css,mapMSome.mp hcc,mapMSome.mp hcs,mapMSome.mp hcols⟩,rfl⟩
  · rintro ⟨cols,h,rfl⟩
    obtain ⟨ccs,css,hcc,hcs,hcols⟩ := throughAll.mpr h
    have hcc := mapMSome.mpr hcc
    have hcs := mapMSome.mpr hcs
    simp only [reread,compressBatch,serialize,hcc,hcs,Option.map_some,Option.bind_eq_bind,Option.bind_some,
      back ccs css hcc hcs,mapMSome.mpr hcols]

/-- The batch read back has the shape and the cells of the one written. -/
def SameBatch (b b' : ColBatch) : Prop :=
  b'.ncols = b.ncols ∧ b'.nrows = b.nrows ∧ List.Forall₂ (SameCells b.nrows) b.cols b'.cols

theorem typedAll {b : ColBatch} {q : ColType × Column → Prop} :
    (∀ p ∈ b.typed, q p) ↔ ∀ (c : Nat) (col : Column), b.cols[c]? = some col → q (typeOf b.schema c,col) := by
  simp only [List.mem_iff_getElem?,typedAt,Option.map_eq_some_iff]
  constructor
  · intro h c col at_
    exact h _ ⟨c,col,at_,rfl⟩
  · rintro h _ ⟨c,col,at_,rfl⟩
    exact h c col at_

theorem typedCols (b : ColBatch) : b.typed.map Prod.snd = b.cols := by
  apply List.ext_getElem?
  intro c
  rw [List.getElem?_map,typedAt,Option.map_map]
  cases b.cols[c]? <;> rfl

/-- A batch comes back with its cells exactly when each of its columns has room in the layout. -/
theorem rereadSame (b : ColBatch) (wf : b.Wf) : (∃ b', reread b = some b' ∧ SameBatch b b') ↔
    ∀ (c : Nat) (col : Column), b.cols[c]? = some col → Storable b.nrows (typeOf b.schema c) col := by
  have each := typedAll (q := fun p => (∃ cc', Through b.nrows p cc' ∧ SameCells b.nrows p.2 (decompressCol cc')) ↔
    Storable b.nrows p.1 p.2) |>.mpr fun c col at_ => colExact (wf.fits c col at_) wf.rows
  have cells : ∀ ccs, List.Forall₂ (SameCells b.nrows) b.cols (ccs.map decompressCol) ↔
      List.Forall₂ (fun p cc' => SameCells b.nrows p.2 (decompressCol cc')) b.typed ccs := fun ccs => by
    rw [← typedCols b,List.forall₂_map_left_iff,List.forall₂_map_right_iff]
  calc (∃ b', reread b = some b' ∧ SameBatch b b')
      ↔ ∃ ccs, List.Forall₂ (Through b.nrows) b.typed ccs ∧
          List.Forall₂ (SameCells b.nrows) b.cols (ccs.map decompressCol) := by
        constructor
        · rintro ⟨b',hb,_,_,same⟩
          obtain ⟨ccs,through,rfl⟩ := (rereadIff wf).mp hb
          exact ⟨ccs,through,same⟩
        · rintro ⟨ccs,through,same⟩
          exact ⟨_,(rereadIff wf).mpr ⟨ccs,through,rfl⟩,rfl,rfl,same⟩
    _ ↔ ∀ p ∈ b.typed, ∃ cc', Through b.nrows p cc' ∧ SameCells b.nrows p.2 (decompressCol cc') := by
        simp only [cells,← forallBoth,forallExists]
    _ ↔ ∀ p ∈ b.typed, Storable b.nrows p.1 p.2 := forall₂_congr each
    _ ↔ _ := typedAll (q := fun p => Storable b.nrows p.1 p.2)

def twoTexts : ColBatch where
  schema := some [.text]
  ncols := 1
  nrows := 2
  cols := [⟨some [2],.texts [some (ascii "a,b"),none]⟩]

theorem twoTextsWf : twoTexts.Wf where
  some_ := le_rfl
  limit := by decide
  count := rfl
  rows := by decide
  fits c col at_ := by
    obtain ⟨rfl,rfl⟩ : c = 0 ∧ col = ⟨some [2],.texts [some (ascii "a,b"),none]⟩ := by
      cases c <;> simp_all [twoTexts]
    exact ⟨⟨rfl,rfl⟩,fun bm h => by cases h; decide⟩

theorem rereadSameTwoTexts : ∃ b', reread twoTexts = some b' ∧ SameBatch twoTexts b' := by
  refine (rereadSame twoTexts twoTextsWf).mpr fun c col at_ => ?_
  obtain ⟨rfl,rfl⟩ : c = 0 ∧ col = ⟨some [2],.texts [some (ascii "a,b"),none]⟩ := by
    cases c <;> simp_all [twoTexts]
  refine ⟨by decide,by decide,?_⟩
  rw [if_neg (by decide),if_pos (by decide)]
  exact .inl (by decide)

/-- A BOOL column of one value, with nothing NULL. -/
def sameBools (xs : List Int64) : ColBatch where
  schema := some [.bool]
  ncols := 1
  nrows := xs.length
  cols := [⟨none,.nums xs⟩]

/-- One run of 65536 equal cells has its place, but two are written. -/
theorem rereadLosesLongRun : ∃ b : ColBatch, b.Wf ∧ ¬ ∃ b', reread b = some b' ∧ SameBatch b b' := by
  obtain ⟨xs,hx⟩ : ∃ xs, xs = List.replicate 65536 (1 : Int64) := ⟨_,rfl⟩
  have len : xs.length = 65536 := by rw [hx,List.length_replicate]
  have long : ¬ RunsFit (placedNums none xs) := fun fit => fit 1 (by
    have : placedNums none xs = xs := List.mapIdx_eq_iff.mpr fun i => by simp [nullBit]
    exact (this.trans hx).symm ▸ List.infix_refl _)
  clear hx
  refine ⟨sameBools xs,⟨le_rfl,by simp [sameBools,maxCols],rfl,by simp [sameBools,len],fun c col at_ => ?_⟩,?_⟩
  · obtain ⟨rfl,rfl⟩ : c = 0 ∧ col = ⟨none,.nums xs⟩ := by cases c <;> simp_all [sameBools]
    exact ⟨⟨rfl,rfl⟩,fun _ h => by cases h⟩
  · rintro ⟨b',h,_⟩
    have stuck : compressTyped xs.length (.bool,⟨none,.nums xs⟩) = none := by
      have : compressRle (placedNums none xs) = none :=
        Option.not_isSome_iff_eq_none.mp fun h => long (compressRleNone.mp h)
      simp [compressTyped,compressCol,chooseEncoding,len,compressPayload,this]
    simp [reread,compressBatch,ColBatch.typed,sameBools,typeOf,stuck] at h

end Napastak.Store
