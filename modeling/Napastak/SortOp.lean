import Napastak.OpInput
import Napastak.ValOrder
import Napastak.Binary64
import Napastak.Lib.Qsort
import Mathlib.Data.List.GetD
import Mathlib.Data.Prod.Lex
import Mathlib.Order.WithBot

/-! `op_sort` of `qengine.c`: indexes sorted by `qsort` and the columns copied in their order. -/
namespace Napastak.QEngine
open Binary64 (Double toDouble)
open Qsort (Lawful Consistent)

/-! ### The code -/

/-- The number that the bits of a double hold; NaN holds none. -/
def readDouble (bits : Int64) : Option Double :=
  let n : Nat := bits.toUInt64.toNat
  let minus := n / 2 ^ 63 = 1
  let e : Nat := n / 2 ^ 52 % 2 ^ 11
  let m : Nat := n % 2 ^ 52
  if e = 2047 then if m = 0 then some (.inf minus) else none
  else some (.finite ((if minus then -1 else 1) * if e = 0 then (m : ℚ) * 2 ^ (-1074 : ℤ) else (2 ^ 52 + m : ℚ) * 2 ^ ((e : ℤ) - 1075)))

/-- The doubles in their order. -/
def rung : Double → WithBot (WithTop ℚ)
  | .finite q => ((q : WithTop ℚ) : WithBot (WithTop ℚ))
  | .inf minus => if minus then ⊥ else ((⊤ : WithTop ℚ) : WithBot (WithTop ℚ))

/-- A number as a double. -/
def Scalar.asDouble : Scalar → Option Double
  | .int v => some (toDouble v.toInt)
  | .double bits => readDouble bits
  | _ => none

/-- `sort_cmp` for one key; values of other types, and NaN, are equal to everything. -/
def cmpKey : Scalar → Scalar → Int
  | .int a, .int b => (if b < a then 1 else 0) - if a < b then 1 else 0
  | .text (some s), .text (some t) => strcmp s t
  | a, b =>
    match a.asDouble, b.asDouble with
    | some p, some q => (if rung q < rung p then 1 else 0) - if rung p < rung q then 1 else 0
    | _, _ => 0

/-- A key by the places of the columns; `nulls_last` is not looked at. -/
structure OrderItem where
  expr : (Nat → Scalar) → Scalar
  desc : Bool

/-- `sort_cmp` on two rows, the columns found by `value`. -/
def sortCmp (value : Row → Nat → Scalar) : List OrderItem → Row → Row → Int
  | [], _, _ => 0
  | o :: order, x, y =>
    let cmp := cmpKey (o.expr (value x)) (o.expr (value y))
    if cmp ≠ 0 then if o.desc then -cmp else cmp else sortCmp value order x y

/-- The rows in the order of the indexes; the new bitmaps are empty. -/
def reorder (rb : Batch) (idx : List Nat) : Batch := ⟨idx.length,rb.cols.map fun c => {c with nulls := [], values := idx.map c.cell}⟩

structure SortState where
  built : Bool
  result : Option Batch
  left : List Batch

section
variable (qsort : (Nat → Nat → Int) → List Nat → List Nat) (output : Option Schema) (order : List OrderItem)

/-- The whole input is read, copied and sorted at the first call. -/
def sortBuild (bs : List Batch) : Option Batch :=
  (output.or ((seen bs).head?.map Batch.schema)).bind fun sc =>
    let rb := materialise sc bs
    if rb.nrows = 0 then none
    else some (reorder rb (qsort (fun i j => sortCmp (byName sc) order (rb.row i) (rb.row j)) (List.range rb.nrows)))

/-- `sort_next`: everything at once. -/
def sortNext (st : SortState) : Option Batch × SortState :=
  ((if st.built then st.result else sortBuild qsort output order st.left),⟨true,none,[]⟩)

end

/-! ### What is meant -/

/-- A number itself. -/
def Scalar.exact : Scalar → Option Double
  | .int v => some (.finite v.toInt)
  | .double bits => readDouble bits
  | _ => none

/-- One order of all values: numbers by their value, texts by their bytes, false before true, NULL apart. -/
structure Natural (le : Scalar → Scalar → Prop) : Prop where
  total : ∀ a b, le a b ∨ le b a
  trans : ∀ a b c, le a b → le b c → le a c
  numbers : ∀ a b p q, a.exact = some p → b.exact = some q → (le a b ↔ rung p ≤ rung q)
  texts : ∀ s t, le (.text (some s)) (.text (some t)) ↔ strcmp s t ≤ 0
  bools : ∀ a b, le (.bool a) (.bool b) ↔ (a = true → b = true)
  nulls : ∀ a, le a .null → le .null a → a = .null

/-- Lexicographic, a key with DESC the other way. -/
def lexLe (le : Scalar → Scalar → Prop) : List OrderItem → Row → Row → Prop
  | [], _, _ => True
  | o :: order, x, y =>
    let a := o.expr (byPlace (if o.desc then y else x))
    let b := o.expr (byPlace (if o.desc then x else y))
    le a b ∧ (le b a → lexLe le order x y)

/-- What `op_sort` gives. -/
def SortEmits (qsort : (Nat → Nat → Int) → List Nat → List Nat) (order : List OrderItem) (i : Input) (rows : List Row) : Prop :=
  ∃ bs, Pull.Gives (fun st => some (sortNext qsort i.output order st)) (·.nrows = 0) ⟨false,none,i.batches⟩ bs ∧
    rows = bs.flatMap Batch.rows

/-- Whatever a `qsort` makes of its freedom, the rows are those of the input, sorted by one natural order. -/
def Sorts (order : List OrderItem) (i : Input) : Prop :=
  ∃ le, Natural le ∧ ∀ qsort, Lawful qsort → ∃ rows, SortEmits qsort order i rows ∧ rows.Perm i.rows ∧ rows.Pairwise (lexLe le order)

/-- The `int`s that a BOOL column is read as, two to a cell, are all the same truth value. -/
def Steady (i : Input) : Prop := ∀ c name, i.schema[c]? = some (name,.bool) →
  ∃ b, ∀ p ∈ places (seen i.batches), ∀ k < 2, decide ((p.1.cell c p.2).word k ≠ 0) = b

/-- On the rows the comparator is a total preorder that only puts first what comes first in `le`, or all of them are equal in `le`. -/
def Ordered (le : Scalar → Scalar → Prop) (order : List OrderItem) (i : Input) : Prop :=
  (Consistent (sortCmp (byName i.schema) order) i.rows ∧
    ∀ x ∈ i.rows, ∀ y ∈ i.rows, sortCmp (byName i.schema) order x y ≤ 0 → lexLe le order x y) ∨
  ∀ x ∈ i.rows, ∀ y ∈ i.rows, lexLe le order x y

/-! ### The columns copied -/

/-- The rows of these places, column by column. -/
def lined (sc : Schema) (ps : List (Batch × Nat)) : Batch :=
  ⟨ps.length,sc.mapIdx fun c col => ⟨col.1,col.2,[],ps.map fun p => p.1.cell c p.2⟩⟩

theorem scalarAt {name name' : Bytes} {type : Store.ColType} {vs : List Raw} {k : Nat} {v : Raw} (is : vs.getD k (.bits 0) = v)
    (steady : type = .bool → decide ((vs.getD (k / 2) (.bits 0)).word (k % 2) ≠ 0) = decide (v.word 0 ≠ 0)) :
    Col.scalar ⟨name,type,[],vs⟩ k = Col.scalar ⟨name',type,[],[v]⟩ 0 := by
  subst is
  cases type <;> first | rfl | skip
  exact congrArg Scalar.bool (steady rfl)

variable {i : Input}

theorem linedRow (steady : Steady i) {ps : List (Batch × Nat)} (sub : ∀ p ∈ ps, p ∈ places (seen i.batches)) {k : Nat} (less : k < ps.length) :
    (lined i.schema ps).row k = ps[k].1.copied ps[k].2 := by
  have fits := i.fits _ (seenIn (placesIn (sub _ (List.getElem_mem less))).1)
  rw [Batch.row,Batch.copied,lined]
  refine List.ext_getElem? fun c => ?_
  rw [List.getElem?_map,List.getElem?_mapIdx,List.getElem?_map]
  have column : i.schema[c]? = ps[k].1.cols[c]?.map fun col => (col.name,col.type) := by rw [← fits,Batch.schema,List.getElem?_map]
  rw [column]
  cases at_ : ps[k].1.cols[c]? with
  | none => rfl
  | some col =>
    rw [at_] at column
    refine congrArg some (Prod.ext rfl ?_)
    have cell (j : Nat) (less : j < ps.length) : (ps.map fun p => p.1.cell c p.2).getD j (.bits 0) = ps[j].1.cell c ps[j].2 := by
      rw [List.getD_eq_getElem _ _ (by rwa [List.length_map]),List.getElem_map]
    have own : ps[k].1.cell c ps[k].2 = col.cell ps[k].2 := by rw [Batch.cell,at_]; rfl
    refine scalarAt ((cell k less).trans own) fun bool => ?_
    obtain ⟨b,all⟩ := steady c col.name (by rw [column,← bool]; rfl)
    rw [cell _ (by omega),← own,all _ (sub _ (List.getElem_mem _)) _ (by omega),all _ (sub _ (List.getElem_mem _)) _ (by omega)]

theorem linedRows (steady : Steady i) {ps : List (Batch × Nat)} (sub : ∀ p ∈ ps, p ∈ places (seen i.batches)) :
    (lined i.schema ps).rows = ps.map fun p => p.1.copied p.2 := by
  show (List.range ps.length).map (lined i.schema ps).row = _
  refine List.ext_getElem (by rw [List.length_map,List.length_map,List.length_range]) fun k less less' => ?_
  rw [List.getElem_map,List.getElem_map,List.getElem_range]
  exact linedRow steady sub (by rwa [List.length_map] at less')

/-- Reordered columns are the columns of the reordered places. -/
theorem reorderLined (sc : Schema) (ps : List (Batch × Nat)) {idx : List Nat} (within : ∀ k ∈ idx, k < ps.length) :
    reorder (lined sc ps) idx = lined sc (idx.map fun k => ps.getD k (⟨0,[]⟩,0)) := by
  rw [reorder,lined,lined,List.length_map]
  refine congrArg (Batch.mk idx.length) (List.ext_getElem? fun c => ?_)
  rw [List.getElem?_map,List.getElem?_mapIdx,List.getElem?_mapIdx,Option.map_map]
  refine congrArg (Option.map · sc[c]?) (funext fun col => congrArg (Col.mk col.1 col.2 []) ?_)
  rw [List.map_map]
  refine List.map_congr_left fun k mem => ?_
  rw [Col.cell,Function.comp_apply,List.getD_eq_getElem _ _ (by rw [List.length_map]; exact within k mem),List.getElem_map,
    List.getD_eq_getElem _ _ (within k mem)]

theorem reorderNrows (rb : Batch) (idx : List Nat) : (reorder rb idx).nrows = idx.length := rfl

theorem copiedAt {k : Nat} (less : k < (places (seen i.batches)).length) :
    i.copied.getD k [] = (places (seen i.batches))[k].1.copied (places (seen i.batches))[k].2 := by
  rw [Input.copied,List.getD_eq_getElem _ _ (by rwa [List.length_map]),List.getElem_map]

/-- The comparator that `qsort` is given. -/
def indexCmp (i : Input) (order : List OrderItem) (a b : Nat) : Int :=
  sortCmp (byName i.schema) order ((materialise i.schema i.batches).row a) ((materialise i.schema i.batches).row b)

def indexes (i : Input) : List Nat := List.range (places (seen i.batches)).length

theorem indexCmpIs (steady : Steady i) (order : List OrderItem) {a b : Nat} (inA : a ∈ indexes i) (inB : b ∈ indexes i) :
    indexCmp i order a b = sortCmp (byName i.schema) order (i.copied.getD a []) (i.copied.getD b []) := by
  have row {k : Nat} (mem : k ∈ indexes i) : (materialise i.schema i.batches).row k = i.copied.getD k [] := by
    rw [copiedAt (List.mem_range.mp mem)]
    exact linedRow steady (fun _ mem => mem) (List.mem_range.mp mem)
  rw [indexCmp,row inA,row inB]

variable {qsort : (Nat → Nat → Int) → List Nat → List Nat} {order : List OrderItem}

theorem buildIs (i : Input) (some_ : indexes i ≠ []) : sortBuild qsort i.output order i.batches =
    some (reorder (materialise i.schema i.batches) (qsort (indexCmp i order) (indexes i))) := by
  have schema : i.output.or ((seen i.batches).head?.map Batch.schema) = some i.schema := by
    rw [Input.output]
    split
    · rfl
    · cases is : seen i.batches with
      | nil => exact absurd (by rw [indexes,is]; rfl) some_
      | cons b bs => exact congrArg some (i.fits b (seenIn (is ▸ List.mem_cons_self)))
  rw [sortBuild,schema,Option.bind_some]
  exact if_neg fun none_ => some_ (by rw [indexes,show (places (seen i.batches)).length = 0 from none_]; rfl)

theorem buildNone (i : Input) (none_ : indexes i = []) : sortBuild qsort i.output order i.batches = none := by
  have empty : (places (seen i.batches)).length = 0 := List.range_eq_nil.mp none_
  rw [sortBuild]
  cases i.output.or ((seen i.batches).head?.map Batch.schema) with
  | none => rfl
  | some sc => exact if_pos empty

/-- What is left of a state's batches, the built one if it was not given yet. -/
def sortRem (qsort : (Nat → Nat → Int) → List Nat → List Nat) (output : Option Schema) (order : List OrderItem) (st : SortState) : Option (List Batch) :=
  Pull.before (·.nrows = 0) (if st.built then st.result else sortBuild qsort output order st.left) (some [])

theorem emitsRem (i : Input) (bs : List Batch) : Pull.Gives (fun st => some (sortNext qsort i.output order st)) (·.nrows = 0)
    ⟨false,none,i.batches⟩ bs ↔ sortRem qsort i.output order ⟨false,none,i.batches⟩ = some bs := by
  have keeps (st : SortState) (item : Option Batch) (st' : SortState) (_ : st.built = true → st.result = none)
      (call : some (sortNext qsort i.output order st) = some (item,st')) : st'.built = true → st'.result = none := by
    cases call
    exact fun _ => rfl
  exact Pull.givesIff keeps (fun _ _ => rfl) (fun built => absurd built Bool.false_ne_true) bs

theorem emitsBuild (i : Input) (rows : List Row) : SortEmits qsort order i rows ↔
    rows = (Pull.before (·.nrows = 0) (sortBuild qsort i.output order i.batches) (some [])).elim [] (List.flatMap Batch.rows) := by
  have gives := @emitsRem qsort order i
  rw [SortEmits]
  constructor
  · rintro ⟨bs,given,rfl⟩
    have is := (gives bs).mp given
    rw [sortRem,if_neg Bool.false_ne_true] at is
    rw [is]
    rfl
  · intro is
    obtain ⟨bs,built⟩ : ∃ bs, Pull.before (·.nrows = 0) (sortBuild qsort i.output order i.batches) (some []) = some bs := by
      cases sortBuild qsort i.output order i.batches with
      | none => exact ⟨[],rfl⟩
      | some b =>
        rw [Pull.before]
        split
        · exact ⟨[],rfl⟩
        · exact ⟨[b],rfl⟩
    rw [built] at is
    exact ⟨bs,(gives bs).mpr (by rw [sortRem,if_neg Bool.false_ne_true]; exact built),is⟩

/-- The rows in the order that `qsort` gives their indexes. -/
theorem emitsIs (steady : Steady i) (lawful : Lawful qsort) (rows : List Row) : SortEmits qsort order i rows ↔
    rows = (qsort (indexCmp i order) (indexes i)).map fun k => i.copied.getD k [] := by
  have perm := lawful.perm (indexCmp i order) (indexes i)
  rw [emitsBuild]
  by_cases none_ : indexes i = []
  · rw [buildNone i none_]
    rw [none_] at perm
    rw [none_,perm.eq_nil]
    rfl
  · have some_ : ¬(qsort (indexCmp i order) (indexes i)).length = 0 := fun zero =>
      none_ (List.length_eq_zero_iff.mp (perm.length_eq.symm.trans zero))
    have within : ∀ k ∈ qsort (indexCmp i order) (indexes i), k < (places (seen i.batches)).length := fun k mem =>
      List.mem_range.mp (perm.mem_iff.mp mem)
    have shown : (reorder (materialise i.schema i.batches) (qsort (indexCmp i order) (indexes i))).rows =
        (qsort (indexCmp i order) (indexes i)).map fun k => i.copied.getD k [] := by
      have same := reorderLined i.schema (places (seen i.batches)) within
      have sub (p : Batch × Nat) (mem : p ∈ (qsort (indexCmp i order) (indexes i)).map fun k => (places (seen i.batches)).getD k (⟨0,[]⟩,0)) :
          p ∈ places (seen i.batches) := by
        obtain ⟨k,here,rfl⟩ := List.mem_map.mp mem
        rw [List.getD_eq_getElem _ _ (within k here)]
        exact List.getElem_mem _
      refine (congrArg Batch.rows same).trans ((linedRows steady sub).trans ?_)
      rw [List.map_map]
      refine List.map_congr_left fun k mem => ?_
      rw [copiedAt (within k mem),Function.comp_apply,List.getD_eq_getElem _ _ (within k mem)]
    rw [buildIs i none_,Pull.before,reorderNrows,if_neg (by rw [decide_eq_true_eq]; exact some_),Option.map_some,Option.elim_some,
      List.flatMap_singleton,shown]

theorem copiedAll (i : Input) : (indexes i).map (fun k => i.copied.getD k []) = i.copied := by
  refine List.ext_getElem (by rw [List.length_map,indexes,List.length_range,Input.copied,List.length_map]) fun k less less' => ?_
  simp only [indexes,List.getElem_map,List.getElem_range]
  exact List.getD_eq_getElem _ _ less'

theorem lexSelf {le : Scalar → Scalar → Prop} (natural : Natural le) (order : List OrderItem) (x : Row) : lexLe le order x x := by
  induction order with
  | nil => trivial
  | cons o order ih => exact ⟨by rw [ite_self]; exact (natural.total _ _).elim id id,fun _ => ih⟩

/-- What every `qsort` makes sorted. -/
theorem orderedIs (steady : Steady i) (kept : i.copied.Perm i.rows) {le : Scalar → Scalar → Prop} (natural : Natural le) :
    (∀ qsort, Lawful qsort → ((qsort (indexCmp i order) (indexes i)).map fun k => i.copied.getD k []).Pairwise (lexLe le order)) ↔
      Ordered le order i := by
  have into : ∀ k ∈ indexes i, i.copied.getD k [] ∈ i.rows := fun k mem =>
    kept.mem_iff.mp ((List.Perm.of_eq (copiedAll i)).mem_iff.mp (List.mem_map_of_mem mem))
  have onto : ∀ y ∈ i.rows, ∃ k ∈ indexes i, i.copied.getD k [] = y := fun y mem =>
    List.mem_map.mp ((List.Perm.of_eq (copiedAll i)).mem_iff.mpr (kept.mem_iff.mpr mem))
  have refl := lexSelf natural order
  have distinct : (indexes i).Nodup := List.nodup_range
  simp only [List.pairwise_map]
  rw [Qsort.pairwiseIff distinct,Ordered]
  refine or_congr (and_congr (Qsort.consistentImage into onto fun a inA b inB => indexCmpIs steady order inA inB) ?_) ?_
  · have image (a : Nat) (inA : a ∈ indexes i) (b : Nat) (inB : b ∈ indexes i) :
        (indexCmp i order a b ≤ 0 → lexLe le order (i.copied.getD a []) (i.copied.getD b [])) ↔
          (sortCmp (byName i.schema) order (i.copied.getD a []) (i.copied.getD b []) ≤ 0 →
            lexLe le order (i.copied.getD a []) (i.copied.getD b [])) := by
      rw [indexCmpIs steady order inA inB]
    exact @Qsort.pairsImage _ _ _ _ _ _ (fun x y => sortCmp (byName i.schema) order x y ≤ 0 → lexLe le order x y) into onto image
      fun y _ => refl y
  · exact @Qsort.pairsImage _ _ _ _ _ _ (lexLe le order) into onto (fun a _ b _ => Iff.rfl) refl

theorem sortsOrdered (steady : Steady i) : Sorts order i ↔ i.copied.Perm i.rows ∧ ∃ le, Natural le ∧ Ordered le order i := by
  have emitted {qsort : (Nat → Nat → Int) → List Nat → List Nat} (lawful : Lawful qsort) :
      ((qsort (indexCmp i order) (indexes i)).map fun k => i.copied.getD k []).Perm i.copied :=
    ((lawful.perm (indexCmp i order) (indexes i)).map _).trans (.of_eq (copiedAll i))
  constructor
  · rintro ⟨le,natural,all⟩
    have kept : i.copied.Perm i.rows := by
      obtain ⟨rows,given,perm,_⟩ := all _ Qsort.lawfulRank
      rw [emitsIs steady Qsort.lawfulRank] at given
      exact (given ▸ emitted Qsort.lawfulRank).symm.trans perm
    refine ⟨kept,le,natural,(orderedIs steady kept natural).mp fun qsort lawful => ?_⟩
    obtain ⟨rows,given,_,sorted⟩ := all qsort lawful
    rw [emitsIs steady lawful] at given
    exact given ▸ sorted
  · rintro ⟨kept,le,natural,ordered⟩
    exact ⟨le,natural,fun qsort lawful => ⟨_,(emitsIs steady lawful _).mpr rfl,(emitted lawful).trans kept,
      (orderedIs steady kept natural).mpr ordered qsort lawful⟩⟩

/-! ### A natural order -/

def Scalar.kind : Scalar → Nat
  | .null => 0
  | .bool b => if b then 2 else 1
  | .text s => if s.isSome then 4 else 3
  | .int _ => 6
  | .double bits => if (readDouble bits).isSome then 6 else 5

def Scalar.spot (a : Scalar) : ℕ ×ₗ WithBot (WithTop ℚ) := toLex (a.kind,(a.exact.map rung).getD ⊥)

def Scalar.bytes : Scalar → Bytes
  | .text (some s) => s
  | _ => []

/-- NULL, the truth values, texts, NaN, numbers. -/
def sqlLe (a b : Scalar) : Prop := a.spot < b.spot ∨ a.spot = b.spot ∧ strcmp a.bytes b.bytes ≤ 0

theorem exactSpot {a : Scalar} {p : Double} (is : a.exact = some p) : a.spot = toLex (6,rung p) ∧ a.bytes = [] := by
  cases a with
  | int v => cases is; exact ⟨rfl,rfl⟩
  | double bits =>
    have held : readDouble bits = some p := is
    rw [Scalar.spot,Scalar.kind,is,held]
    exact ⟨rfl,rfl⟩
  | _ => cases is

theorem sqlNatural : Natural sqlLe where
  total a b := by
    rcases lt_trichotomy a.spot b.spot with less | same | more
    · exact .inl (.inl less)
    · rcases Int.le_total (strcmp a.bytes b.bytes) 0 with le | ge
      · exact .inl (.inr ⟨same,le⟩)
      · exact .inr (.inr ⟨same.symm,by rw [strcmpFlip]; omega⟩)
    · exact .inr (.inl more)
  trans a b c up up' := by
    rcases up with less | ⟨same,le⟩
    · rcases up' with less' | ⟨same',_⟩
      · exact .inl (lt_trans less less')
      · exact .inl (same' ▸ less)
    · rcases up' with less' | ⟨same',le'⟩
      · exact .inl (same ▸ less')
      · exact .inr ⟨same.trans same',ValOrder.strcmpLeTrans le le'⟩
  numbers a b p q first second := by
    obtain ⟨spot,bytes⟩ := exactSpot first
    obtain ⟨spot',bytes'⟩ := exactSpot second
    rw [sqlLe,spot,spot',bytes,bytes',Prod.Lex.toLex_lt_toLex]
    simp [strcmp,le_iff_lt_or_eq (a := rung p)]
  texts s t := by
    have spot : (Scalar.text (some s)).spot = (Scalar.text (some t)).spot := rfl
    rw [sqlLe,spot]
    simp [Scalar.bytes]
  bools a b := by cases a <;> cases b <;> simp [sqlLe,Scalar.spot,Scalar.kind,Scalar.exact,Scalar.bytes,Prod.Lex.toLex_lt_toLex,strcmp]
  nulls a up _ := by
    have least : a.kind = 0 := by
      rcases up with less | ⟨same,_⟩
      · rw [Scalar.spot,Scalar.spot,Prod.Lex.toLex_lt_toLex] at less
        rcases less with less | ⟨same,_⟩
        · exact absurd less (Nat.not_lt_zero _)
        · exact same
      · exact congrArg (fun p => (ofLex p).1) same
    cases a with
    | null => rfl
    | bool b => cases b <;> cases least
    | int v => cases least
    | text s => cases s <;> cases least
    | double bits =>
      rw [Scalar.kind] at least
      split at least <;> cases least

/-! ### Keys of one type -/

variable {le : Scalar → Scalar → Prop}

/-- The keys of all rows are integers, or doubles that are numbers, or texts. -/
def Typed (rows : List Row) (o : OrderItem) : Prop :=
  (∀ x ∈ rows, ∃ v, o.expr (byPlace x) = .int v) ∨
  (∀ x ∈ rows, ∃ bits p, o.expr (byPlace x) = .double bits ∧ readDouble bits = some p) ∨
  ∀ x ∈ rows, ∃ s, o.expr (byPlace x) = .text (some s)

/-- The comparator is that of `le`. -/
def Agrees (le : Scalar → Scalar → Prop) (a b : Scalar) : Prop := (cmpKey a b ≤ 0 ↔ le a b) ∧ (0 ≤ cmpKey a b ↔ le b a)

theorem signsAgree {p q : Prop} [Decidable p] [Decidable q] (apart : ¬(p ∧ q)) :
    (((if p then 1 else 0) - if q then 1 else 0 : Int) ≤ 0 ↔ ¬p) ∧ (0 ≤ ((if p then 1 else 0) - if q then 1 else 0 : Int) ↔ ¬q) := by
  by_cases hp : p <;> by_cases hq : q <;> simp_all

theorem typedAgrees (natural : Natural le) {rows : List Row} {o : OrderItem} (typed : Typed rows o) {x y : Row} (inX : x ∈ rows) (inY : y ∈ rows) :
    Agrees le (o.expr (byPlace x)) (o.expr (byPlace y)) := by
  rcases typed with ints | doubles | texts
  · obtain ⟨v,is⟩ := ints x inX
    obtain ⟨w,is'⟩ := ints y inY
    rw [is,is']
    have order (a b : Int64) : le (.int a) (.int b) ↔ ¬b < a := by
      rw [natural.numbers _ _ _ _ rfl rfl,rung,rung,WithBot.coe_le_coe,WithTop.coe_le_coe,Int.cast_le,Int64.lt_iff_toInt_lt,Int.not_lt]
    have signs := signsAgree (p := w < v) (q := v < w) fun both => by
      rw [Int64.lt_iff_toInt_lt,Int64.lt_iff_toInt_lt] at both
      omega
    exact ⟨signs.1.trans (order v w).symm,signs.2.trans (order w v).symm⟩
  · obtain ⟨bits,p,is,held⟩ := doubles x inX
    obtain ⟨bits',q,is',held'⟩ := doubles y inY
    rw [is,is']
    have signs := signsAgree (p := rung q < rung p) (q := rung p < rung q) fun both => lt_asymm both.1 both.2
    have cmp : cmpKey (.double bits) (.double bits') = (if rung q < rung p then 1 else 0) - if rung p < rung q then 1 else 0 := by
      simp only [cmpKey,Scalar.asDouble,held,held']
    rw [Agrees,cmp,natural.numbers (.double bits) (.double bits') p q held held',natural.numbers (.double bits') (.double bits) q p held' held]
    exact ⟨signs.1.trans not_lt,signs.2.trans not_lt⟩
  · obtain ⟨s,is⟩ := texts x inX
    obtain ⟨t,is'⟩ := texts y inY
    rw [is,is',Agrees,natural.texts,natural.texts,cmpKey,strcmpFlip s t]
    exact ⟨Iff.rfl,by omega⟩

/-- Where every key agrees, so do the rows. -/
theorem rowsAgree (natural : Natural le) {x y : Row} (agree : ∀ o ∈ order, Agrees le (o.expr (byPlace x)) (o.expr (byPlace y))) :
    (sortCmp byPlace order x y ≤ 0 ↔ lexLe le order x y) ∧ (0 ≤ sortCmp byPlace order x y ↔ lexLe le order y x) := by
  induction order with
  | nil => exact ⟨⟨fun _ => trivial,fun _ => Int.le_refl _⟩,⟨fun _ => trivial,fun _ => Int.le_refl _⟩⟩
  | cons o order ih =>
    obtain ⟨below,up⟩ := agree o List.mem_cons_self
    have rest := ih fun o mem => agree o (List.mem_cons_of_mem _ mem)
    rw [sortCmp,lexLe,lexLe]
    have strict : cmpKey (o.expr (byPlace x)) (o.expr (byPlace y)) = 0 ↔
        le (o.expr (byPlace x)) (o.expr (byPlace y)) ∧ le (o.expr (byPlace y)) (o.expr (byPlace x)) := by
      rw [← below,← up]
      omega
    by_cases zero : cmpKey (o.expr (byPlace x)) (o.expr (byPlace y)) = 0
    · obtain ⟨first,second⟩ := strict.mp zero
      rw [if_neg (not_not.mpr zero)]
      cases o.desc <;> simpa [first,second] using rest
    · have one := natural.total (o.expr (byPlace x)) (o.expr (byPlace y))
      rw [if_pos zero]
      rw [← below,← up] at one
      cases o.desc
      · simp only [Bool.false_eq_true,if_false,← below,← up]
        exact ⟨⟨fun neg => ⟨neg,fun pos => absurd (Int.le_antisymm neg pos) zero⟩,And.left⟩,
          ⟨fun pos => ⟨pos,fun neg => absurd (Int.le_antisymm neg pos) zero⟩,And.left⟩⟩
      · simp only [if_true,← below,← up]
        exact ⟨⟨fun neg => ⟨by omega,fun pos => absurd (by omega) zero⟩,fun h => by have := h.1; omega⟩,
          ⟨fun pos => ⟨by omega,fun neg => absurd (by omega) zero⟩,fun h => by have := h.1; omega⟩⟩

theorem lexTrans (natural : Natural le) {x y z : Row} (first : lexLe le order x y) (second : lexLe le order y z) : lexLe le order x z := by
  induction order with
  | nil => trivial
  | cons o order ih =>
    obtain ⟨up,rest⟩ := first
    obtain ⟨up',rest'⟩ := second
    rw [lexLe]
    cases desc : o.desc with
    | false =>
      simp only [desc,Bool.false_eq_true,if_false] at up up' rest rest' ⊢
      exact ⟨natural.trans _ _ _ up up',fun down => ih (rest (natural.trans _ _ _ up' down)) (rest' (natural.trans _ _ _ down up))⟩
    | true =>
      simp only [desc,if_true] at up up' rest rest' ⊢
      exact ⟨natural.trans _ _ _ up' up,fun down => ih (rest (natural.trans _ _ _ down up')) (rest' (natural.trans _ _ _ up down))⟩

theorem sortCmpValue {value : Row → Nat → Scalar} {x y : Row} (left : value x = byPlace x) (right : value y = byPlace y) :
    sortCmp value order x y = sortCmp byPlace order x y := by
  induction order with
  | nil => rfl
  | cons o order ih => rw [sortCmp,sortCmp,left,right,ih]

theorem typedOrdered (natural : Natural le) (found : ∀ row ∈ i.rows, byName i.schema row = byPlace row)
    (typed : ∀ o ∈ order, Typed i.rows o) : Ordered le order i := by
  have agree {x y : Row} (inX : x ∈ i.rows) (inY : y ∈ i.rows) : (sortCmp byPlace order x y ≤ 0 ↔ lexLe le order x y) ∧
      (0 ≤ sortCmp byPlace order x y ↔ lexLe le order y x) := rowsAgree natural fun o mem => typedAgrees natural (typed o mem) inX inY
  have cmp {x y : Row} (inX : x ∈ i.rows) (inY : y ∈ i.rows) : sortCmp (byName i.schema) order x y = sortCmp byPlace order x y :=
    sortCmpValue (found x inX) (found y inY)
  refine .inl ⟨⟨fun x inX y inY => ?_,fun x inX y inY z inZ first second => ?_⟩,fun x inX y inY first => ?_⟩
  · rw [cmp inX inY,cmp inY inX]
    have le := (agree inX inY).1.trans (agree inY inX).2.symm
    have ge := (agree inX inY).2.trans (agree inY inX).1.symm
    rcases Int.lt_trichotomy (sortCmp byPlace order x y) 0 with neg | zero | pos
    · rw [Int.sign_eq_neg_one_of_neg neg,Int.sign_eq_one_of_pos (by omega)]
      rfl
    · rw [zero,show sortCmp byPlace order y x = 0 by omega]
      rfl
    · rw [Int.sign_eq_one_of_pos pos,Int.sign_eq_neg_one_of_neg (by omega)]
  · rw [cmp inX inY] at first
    rw [cmp inY inZ] at second
    rw [cmp inX inZ,(agree inX inZ).1]
    exact lexTrans natural ((agree inX inY).1.mp first) ((agree inY inZ).1.mp second)
  · rw [cmp inX inY] at first
    exact (agree inX inY).1.mp first

/-! ### Inputs that are sorted -/

theorem steadyPlain (plain : ∀ col ∈ i.schema, col.2 ≠ .bool) : Steady i := fun _ _ column => absurd rfl (plain _ (List.mem_of_getElem? column))

theorem flaggedSome (name : Bytes) : ([(name,.int64)] : Schema) ≠ [] := List.cons_ne_nil _ _

/-- One INT64 column with these values and NULL flags. -/
def flagged (name : Bytes) (nulls : List Bool) (vs : List UInt64) : Input :=
  ⟨[(name,.int64)],true,[⟨vs.length,[⟨name,.int64,nulls,vs.map .bits⟩]⟩],flaggedSome name,fun b mem => by rw [List.mem_singleton.mp mem]; rfl⟩

theorem flaggedRows {name : Bytes} {vs : List UInt64} {row : Row} (mem : row ∈ (flagged name [] vs).rows) : ∃ v, row = [(name,.int v)] := by
  obtain ⟨b,inBatches,mem⟩ := List.mem_flatMap.mp mem
  cases List.mem_singleton.mp inBatches
  obtain ⟨k,_,rfl⟩ := List.mem_map.mp mem
  exact ⟨_,rfl⟩

end Napastak.QEngine
