import Napastak.ColBatch

/-! `op_limit` and `qengine_exec_json` of `qengine.c`. Values are eight bytes a row for every operator, but those of a BOOL
column are read as `int`s, two to the eight bytes. -/
namespace Napastak.QEngine
open Store (ColType)

/-- Eight bytes of `values[c]`: raw, or a pointer to a text. -/
inductive Raw where
  | bits (v : UInt64)
  | ptr (s : Option Bytes)
  deriving DecidableEq

def Raw.int : Raw → Int64
  | .bits v => v.toInt64
  | .ptr _ => 0

def Raw.text : Raw → Option Bytes
  | .bits _ => none
  | .ptr s => s

/-- The first and the second `int` of the eight bytes. -/
def Raw.word (v : Raw) (k : Nat) : Nat :=
  match v with
  | .bits v => v.toNat / 2 ^ (32 * k) % 2 ^ 32
  | .ptr _ => 0

/-- A column of a batch; no flags at all where the bitmap is missing. -/
structure Col where
  name : Bytes
  type : ColType
  nulls : List Bool
  values : List Raw
  deriving DecidableEq

structure Batch where
  nrows : Nat
  cols : List Col
  deriving DecidableEq

def Col.isNull (c : Col) (r : Nat) : Bool := c.nulls.getD r false

def Col.cell (c : Col) (r : Nat) : Raw := c.values.getD r (.bits 0)

/-- `((int*)values[c])[r] != 0` -/
def Col.bool (c : Col) (r : Nat) : Bool := (c.cell (r / 2)).word (r % 2) ≠ 0

inductive Scalar where
  | null
  | int (v : Int64)
  | double (bits : Int64)
  | text (s : Option Bytes)
  | bool (b : Bool)
  deriving DecidableEq

def qeDenull : Scalar → Scalar
  | .text s => if s = some nullSentinel then .null else .text s
  | s => s

/-- The types that `qengine_exec_json` has no case for are shown as null. -/
def Col.scalar (c : Col) (r : Nat) : Scalar :=
  if c.isNull r then .null
  else
    match c.type with
    | .int64 => .int (c.cell r).int
    | .double => .double (c.cell r).int
    | .text => qeDenull (.text (c.cell r).text)
    | .bool => .bool (c.bool r)
    | _ => .null

abbrev Row := List (Bytes × Scalar)

def Batch.row (b : Batch) (r : Nat) : Row := b.cols.map fun c => (c.name,c.scalar r)

/-- What a consumer is shown of a batch. -/
def Batch.rows (b : Batch) : List Row := (List.range b.nrows).map b.row

/-- The loop of `qengine_exec_json` over an operator; none only where the rounds run out. -/
def execJson {σ : Type} (next : σ → Option Batch × σ) : Nat → σ → Option (List Row)
  | 0, _ => none
  | n + 1, s =>
    match next s with
    | (none,_) => some []
    | (some b,s) => if b.nrows = 0 then some [] else (execJson next n s).map (b.rows ++ ·)

structure LimitState where
  limit : Int
  offset : Int
  emitted : Int := 0
  skipped : Int := 0

section
variable (junk : Nat → Nat → Raw)

/-- A value of a NULL row is not copied; `junk` is what the fresh memory of a column holds. -/
def copyCol (i : Nat) (c : Col) (start avail : Nat) : Col :=
  {c with
    nulls := (List.range avail).map fun r => c.isNull (start + r)
    values := (List.range avail).map fun r => if c.isNull (start + r) then junk i r else c.cell (start + r)}

def copyRows (src : Batch) (start avail : Nat) : Batch := ⟨avail,src.cols.mapIdx fun i c => copyCol junk i c start avail⟩

/-- `limit_next`, where the batches still to come from the child are the list. -/
def limitNext : LimitState × List Batch → Option Batch × LimitState × List Batch
  | (st,child) =>
    if 0 ≤ st.limit ∧ st.limit ≤ st.emitted then (none,st,child)
    else
      match child with
      | [] => (none,st,[])
      | src :: child =>
        if st.skipped < st.offset ∧ src.nrows ≤ st.offset - st.skipped then
          (some {src with nrows := 0},{st with skipped := st.skipped + src.nrows},child)
        else
          let start := if st.skipped < st.offset then (st.offset - st.skipped).toNat else 0
          let avail := src.nrows - start
          let avail := if 0 ≤ st.limit ∧ st.limit < st.emitted + avail then (st.limit - st.emitted).toNat else avail
          (some (copyRows junk src start avail),
            {st with skipped := max st.skipped st.offset, emitted := st.emitted + avail},child)

/-- `filter_next`; batches none of whose rows pass are left out. -/
def filterNext (pred : Batch → Nat → Bool) : List Batch → Option Batch × List Batch
  | [] => (none,[])
  | src :: child =>
    let kept := (List.range src.nrows).filter (pred src)
    if 0 < kept.length then
      (some ⟨kept.length,src.cols.mapIdx fun i c =>
        {c with
          nulls := kept.map c.isNull
          values := kept.mapIdx fun r sr => if c.isNull sr then junk i r else c.cell sr}⟩,child)
    else filterNext pred child

/-- What is delivered of `op_limit(child, limit, offset)`. -/
def Delivers (child : List Batch) (limit offset : Int) (rows : List Row) : Prop :=
  ∃ n, execJson (limitNext junk) n (⟨limit,offset,0,0⟩,child) = some rows

end

/-- The rows from `offset` on, `limit` at most; a negative limit is none. -/
def window (limit offset : Int) (rows : List Row) : List Row :=
  if 0 ≤ limit then (rows.drop offset.toNat).take limit.toNat else rows.drop offset.toNat

/-- Whatever the fresh memory held, the rows are those of the child in the window. -/
def Windowed (child : List Batch) (limit offset : Int) : Prop :=
  ∀ junk, Delivers junk child limit offset (window limit offset (child.flatMap Batch.rows))

/-! ### One batch -/

theorem copyNull (junk : Nat → Nat → Raw) (i : Nat) (c : Col) {start avail r : Nat} (less : r < avail) :
    (copyCol junk i c start avail).isNull r = c.isNull (start + r) := by
  rw [Col.isNull,copyCol,List.getD_eq_getElem?_getD,List.getElem?_map,List.getElem?_range less]
  rfl

theorem copyCell (junk : Nat → Nat → Raw) (i : Nat) (c : Col) {start avail r : Nat} (less : r < avail) :
    (copyCol junk i c start avail).cell r = if c.isNull (start + r) then junk i r else c.cell (start + r) := by
  rw [Col.cell,copyCol,List.getD_eq_getElem?_getD,List.getElem?_map,List.getElem?_range less]
  rfl

/-- What a row of a BOOL column is shown as lies in the eight bytes of the row half as far in. -/
def Col.Straight (c : Col) (start avail : Nat) : Prop :=
  c.type = .bool → ∀ r < avail, c.isNull (start + r) = false →
    c.isNull (start + r / 2) = false ∧ (decide ((c.cell (start + r / 2)).word (r % 2) ≠ 0)) = c.bool (start + r)

instance (c : Col) (start avail : Nat) : Decidable (c.Straight start avail) :=
  inferInstanceAs (Decidable (_ → ∀ r < avail, _ → _))

/-- Memory in which every `int` is the opposite of `b`. -/
def opposite (b : Bool) : Raw := .bits (if b then 0 else 0xFFFFFFFFFFFFFFFF)

theorem oppositeWord (b : Bool) {k : Nat} (less : k < 2) : decide ((opposite b).word k ≠ 0) = !b := by
  obtain rfl | rfl : k = 0 ∨ k = 1 := by omega
  · cases b <;> decide
  · cases b <;> decide

theorem copyScalar (junk : Nat → Nat → Raw) (i : Nat) {c : Col} {start avail r : Nat} (straight : c.Straight start avail)
    (less : r < avail) : (copyCol junk i c start avail).scalar r = c.scalar (start + r) := by
  rw [Col.scalar,copyNull junk i c less,Col.scalar]
  cases null : c.isNull (start + r) with
  | true => rfl
  | false =>
    have cell : (copyCol junk i c start avail).cell r = c.cell (start + r) := by
      rw [copyCell junk i c less,null]
      rfl
    rw [if_neg (by decide),if_neg (by decide),cell,show (copyCol junk i c start avail).type = c.type from rfl]
    cases type : c.type <;> try rfl
    obtain ⟨half,same⟩ := straight type r less null
    have word : (copyCol junk i c start avail).bool r = c.bool (start + r) := by
      rw [← same,Col.bool,copyCell junk i c (by omega),half]
      rfl
    exact congrArg Scalar.bool word

theorem scalarStraight {i : Nat} {c : Col} {start avail : Nat}
    (all : ∀ junk, ∀ r < avail, (copyCol junk i c start avail).scalar r = c.scalar (start + r)) : c.Straight start avail := by
  intro type r less null
  have shown (junk : Nat → Nat → Raw) : (copyCol junk i c start avail).bool r = c.bool (start + r) := by
    have same := all junk r less
    rw [Col.scalar,copyNull junk i c less,Col.scalar,null,show (copyCol junk i c start avail).type = c.type from rfl,type] at same
    exact Scalar.bool.inj same
  have half : r / 2 < avail := by omega
  cases empty : c.isNull (start + r / 2) with
  | true =>
    -- what is shown is the fresh memory
    have same := shown fun _ _ => opposite (c.bool (start + r))
    rw [Col.bool,copyCell _ i c half,empty,if_pos rfl,oppositeWord _ (Nat.mod_lt r (by decide))] at same
    exact absurd same (by cases c.bool (start + r) <;> decide)
  | false =>
    have same := shown fun _ _ => .bits 0
    rw [Col.bool,copyCell _ i c half,empty] at same
    exact ⟨rfl,same⟩

def Batch.Straight (b : Batch) (start avail : Nat) : Prop := ∀ c ∈ b.cols, c.Straight start avail

instance (b : Batch) (start avail : Nat) : Decidable (b.Straight start avail) :=
  inferInstanceAs (Decidable (∀ c ∈ b.cols, _))

theorem copyRowsCount (junk : Nat → Nat → Raw) (b : Batch) (start avail : Nat) : (copyRows junk b start avail).nrows = avail := rfl

theorem copyRowsLength (junk : Nat → Nat → Raw) (b : Batch) (start avail : Nat) : (copyRows junk b start avail).rows.length = avail := by
  rw [Batch.rows,List.length_map,List.length_range]
  rfl

theorem rowsWindow (b : Batch) {start avail : Nat} (fits : start + avail ≤ b.nrows) :
    (b.rows.drop start).take avail = (List.range avail).map fun r => b.row (start + r) := by
  refine List.ext_getElem? fun r => ?_
  rw [List.getElem?_take,List.getElem?_drop,Batch.rows,List.getElem?_map,List.getElem?_map]
  by_cases less : r < avail
  · rw [if_pos less,List.getElem?_range (by omega),List.getElem?_range less]
    rfl
  · rw [if_neg less,List.getElem?_eq_none (by rw [List.length_range]; omega)]
    rfl

theorem copyRowsIff {b : Batch} {start avail : Nat} (fits : start + avail ≤ b.nrows) :
    (∀ junk, (copyRows junk b start avail).rows = (b.rows.drop start).take avail) ↔ b.Straight start avail := by
  have eachRow (junk : Nat → Nat → Raw) : (copyRows junk b start avail).rows = (b.rows.drop start).take avail ↔
      ∀ r < avail, (copyRows junk b start avail).row r = b.row (start + r) := by
    rw [rowsWindow b fits,Batch.rows]
    exact List.map_inj_left.trans ⟨fun all r less => all r (List.mem_range.mpr less),fun all r mem => all r (List.mem_range.mp mem)⟩
  simp only [eachRow]
  constructor
  · intro all c mem
    obtain ⟨i,here⟩ := List.mem_iff_getElem?.mp mem
    refine scalarStraight (i := i) fun junk r less => ?_
    have same := congrArg (·[i]?) (all junk r less)
    simp only [Batch.row,copyRows,List.getElem?_map,List.getElem?_mapIdx,here,Option.map_some,Option.some.injEq,Prod.mk.injEq] at same
    exact same.2
  · intro straight junk r less
    refine List.ext_getElem? fun i => ?_
    simp only [Batch.row,copyRows,List.getElem?_map,List.getElem?_mapIdx,Option.map_map]
    cases here : b.cols[i]? with
    | none => rfl
    | some c => exact congrArg (fun s => some (c.name,s)) (copyScalar junk i (straight c (List.mem_of_getElem? here)) less)

/-! ### All batches -/

/-- The rows still to be emitted; none without a limit. -/
abbrev Left := Option Nat

def Left.cut (left : Left) (n : Nat) : Nat := left.elim n (min · n)

def Left.take (left : Left) (rows : List Row) : List Row := left.elim rows (rows.take ·)

def Left.behind (left : Left) (n : Nat) : Left := left.map (· - n)

/-- The rows delivered where no whole batch is skipped. -/
def delivered (junk : Nat → Nat → Raw) : Nat → Left → List Batch → List Row
  | _, _, [] => []
  | start, left, b :: bs =>
    (copyRows junk b start (left.cut (b.nrows - start))).rows ++ delivered junk 0 (left.behind (b.nrows - start)) bs

/-- The BOOL columns of the rows taken from each batch. -/
def BoolsStraight : Nat → Left → List Batch → Prop
  | _, _, [] => True
  | start, left, b :: bs => b.Straight start (left.cut (b.nrows - start)) ∧ BoolsStraight 0 (left.behind (b.nrows - start)) bs

instance BoolsStraight.decide : ∀ (start : Nat) (left : Left) (bs : List Batch), Decidable (BoolsStraight start left bs)
  | _, _, [] => isTrue trivial
  | start, left, b :: bs =>
    have := BoolsStraight.decide 0 (left.behind (b.nrows - start)) bs
    inferInstanceAs (Decidable (_ ∧ _))

theorem cutLe (left : Left) (n : Nat) : left.cut n ≤ n := by
  cases left with
  | none => exact Nat.le_refl _
  | some k => exact Nat.min_le_right k n

theorem takeAppend (left : Left) (xs ys : List Row) :
    left.take (xs ++ ys) = xs.take (left.cut xs.length) ++ (left.behind xs.length).take ys := by
  cases left with
  | none => exact congrArg (· ++ ys) List.take_length.symm
  | some k =>
    show (xs ++ ys).take k = xs.take (min k xs.length) ++ ys.take (k - xs.length)
    rw [List.take_append,← List.take_take,List.take_length]

theorem rowsLength (b : Batch) : b.rows.length = b.nrows := by
  rw [Batch.rows,List.length_map,List.length_range]

theorem deliveredIff {start : Nat} {left : Left} {bs : List Batch} (inside : ∀ b ∈ bs.head?, start ≤ b.nrows) :
    (∀ junk, delivered junk start left bs = left.take ((bs.flatMap Batch.rows).drop start)) ↔ BoolsStraight start left bs := by
  induction bs generalizing start left with
  | nil =>
    refine ⟨fun _ => trivial,fun _ junk => ?_⟩
    cases left with
    | none => exact List.drop_nil.symm
    | some k => exact ((congrArg (List.take k) List.drop_nil).trans List.take_nil).symm
  | cons b bs ih =>
    have fits : start ≤ b.rows.length := (rowsLength b).symm ▸ inside b rfl
    have size : (b.rows.drop start).length = b.nrows - start := by rw [List.length_drop,rowsLength]
    have split : left.take (((b :: bs).flatMap Batch.rows).drop start) =
        (b.rows.drop start).take (left.cut (b.nrows - start)) ++ (left.behind (b.nrows - start)).take (bs.flatMap Batch.rows) := by
      rw [List.flatMap_cons,List.drop_append_of_le_length fits,takeAppend,size]
    have same (junk : Nat → Nat → Raw) : (copyRows junk b start (left.cut (b.nrows - start))).rows.length =
        ((b.rows.drop start).take (left.cut (b.nrows - start))).length := by
      rw [copyRowsLength,List.length_take,size,Nat.min_eq_left (cutLe ..)]
    have next := @ih 0 (left.behind (b.nrows - start)) fun _ _ => Nat.zero_le _
    have room := cutLe left (b.nrows - start)
    have here := @copyRowsIff b start (left.cut (b.nrows - start))
      (by rw [rowsLength] at fits; omega)
    rw [BoolsStraight,← next,← here,← forall_and]
    refine forall_congr' fun junk => ?_
    rw [delivered,split]
    refine ⟨fun whole => ?_,fun ⟨first,rest⟩ => by rw [first,← List.drop_zero (l := bs.flatMap Batch.rows),rest]⟩
    obtain ⟨first,rest⟩ := List.append_inj whole (same junk)
    exact ⟨first,by rw [List.drop_zero]; exact rest⟩

/-! ### A run -/

def leftOf (limit emitted : Int) : Left := if 0 ≤ limit then some (limit - emitted).toNat else none

theorem windowLeft (limit offset : Int) (rows : List Row) :
    window limit offset rows = (leftOf limit 0).take (rows.drop offset.toNat) := by
  rw [window,leftOf]
  split
  · rw [Int.sub_zero]
    rfl
  · rfl

theorem deliveredNone (junk : Nat → Nat → Raw) (start : Nat) (bs : List Batch) : delivered junk start (some 0) bs = [] := by
  induction bs generalizing start with
  | nil => rfl
  | cons b bs ih =>
    have none_ : Left.cut (some 0) (b.nrows - start) = 0 := Nat.zero_min _
    have rest : Left.behind (some 0) (b.nrows - start) = some 0 := congrArg some (Nat.zero_sub _)
    rw [delivered,none_,rest,ih,List.append_nil]
    exact List.eq_nil_of_length_eq_zero (copyRowsLength ..)

theorem straightNone (start : Nat) (bs : List Batch) : BoolsStraight start (some 0) bs := by
  induction bs generalizing start with
  | nil => trivial
  | cons b bs ih =>
    have none_ : Left.cut (some 0) (b.nrows - start) = 0 := Nat.zero_min _
    have rest : Left.behind (some 0) (b.nrows - start) = some 0 := congrArg some (Nat.zero_sub _)
    rw [BoolsStraight,none_,rest]
    exact ⟨fun _ _ _ r less => absurd less (Nat.not_lt_zero r),ih 0⟩

/-- A call that neither ends nor skips a whole batch. -/
theorem limitStep (junk : Nat → Nat → Raw) {st : LimitState} {src : Batch} {child : List Batch}
    (more : ¬ (0 ≤ st.limit ∧ st.limit ≤ st.emitted)) (inside : st.offset - st.skipped < src.nrows) :
    ∃ st', limitNext junk (st,src :: child) = (some (copyRows junk src (st.offset - st.skipped).toNat
        ((leftOf st.limit st.emitted).cut (src.nrows - (st.offset - st.skipped).toNat))),st',child) ∧
      st'.limit = st.limit ∧ st'.offset - st'.skipped ≤ 0 ∧
      leftOf st'.limit st'.emitted = (leftOf st.limit st.emitted).behind (src.nrows - (st.offset - st.skipped).toNat) := by
  have start : (if st.skipped < st.offset then (st.offset - st.skipped).toNat else 0) = (st.offset - st.skipped).toNat := by
    split <;> omega
  have avail : (if 0 ≤ st.limit ∧ st.limit < st.emitted + (src.nrows - (st.offset - st.skipped).toNat : Nat) then
        (st.limit - st.emitted).toNat else src.nrows - (st.offset - st.skipped).toNat) =
      (leftOf st.limit st.emitted).cut (src.nrows - (st.offset - st.skipped).toNat) := by
    rw [leftOf]
    split
    · rw [if_pos (by omega)]
      exact (Nat.min_eq_left (by omega)).symm
    · by_cases bounded : 0 ≤ st.limit
      · rw [if_pos bounded]
        exact (Nat.min_eq_right (by omega)).symm
      · rw [if_neg bounded]
        rfl
  refine ⟨⟨st.limit,st.offset,st.emitted + (leftOf st.limit st.emitted).cut (src.nrows - (st.offset - st.skipped).toNat),
    max st.skipped st.offset⟩,?_,rfl,?_,?_⟩
  · rw [limitNext,if_neg more]
    dsimp only
    rw [if_neg (by omega),start,avail]
  · show st.offset - max st.skipped st.offset ≤ 0
    omega
  · show leftOf st.limit (st.emitted + _) = _
    rw [leftOf,leftOf]
    by_cases bounded : 0 ≤ st.limit
    · rw [if_pos bounded,if_pos bounded]
      refine congrArg some ?_
      show (st.limit - (st.emitted + (min (st.limit - st.emitted).toNat (src.nrows - (st.offset - st.skipped).toNat) : Nat))).toNat =
        (st.limit - st.emitted).toNat - (src.nrows - (st.offset - st.skipped).toNat)
      omega
    · rw [if_neg bounded,if_neg bounded]
      rfl

theorem runIs (junk : Nat → Nat → Raw) {st : LimitState} {child : List Batch} (positive : ∀ b ∈ child, 0 < b.nrows)
    (inside : ∀ b ∈ child.head?, st.offset - st.skipped < b.nrows) (n : Nat) :
    execJson (limitNext junk) (child.length + 1 + n) (st,child) =
      some (delivered junk (st.offset - st.skipped).toNat (leftOf st.limit st.emitted) child) := by
  induction child generalizing st with
  | nil =>
    rw [show ([] : List Batch).length + 1 + n = n + 1 by rw [List.length_nil]; omega,execJson,limitNext,ite_self]
    rfl
  | cons src child ih =>
    have rounds : (src :: child).length + 1 + n = child.length + 1 + n + 1 := by
      rw [List.length_cons]
      omega
    by_cases more : 0 ≤ st.limit ∧ st.limit ≤ st.emitted
    · have none_ : leftOf st.limit st.emitted = some 0 := by
        rw [leftOf,if_pos more.1]
        exact congrArg some (by omega)
      rw [rounds,execJson,limitNext,if_pos more,none_,deliveredNone]
    · obtain ⟨st',step,limit,skipped,left⟩ := @limitStep junk st src child more (inside src rfl)
      have rest := @ih st' (fun b mem => positive b (List.mem_cons_of_mem _ mem))
        fun b here => Int.lt_of_le_of_lt skipped (Int.natCast_pos.mpr (positive b (List.mem_cons_of_mem _ (List.mem_of_mem_head? here))))
      have some_ : 0 < (leftOf st.limit st.emitted).cut (src.nrows - (st.offset - st.skipped).toNat) := by
        have room := inside src rfl
        have first := positive src List.mem_cons_self
        rw [leftOf]
        split
        · refine Nat.lt_min.mpr ⟨?_,?_⟩ <;> omega
        · show 0 < src.nrows - (st.offset - st.skipped).toNat
          omega
      rw [rounds,execJson,step]
      dsimp only
      rw [copyRowsCount,if_neg (Nat.ne_of_gt some_),rest,left,Int.toNat_of_nonpos skipped]
      rfl

/-- The result does not depend on how many rounds there are. -/
theorem execSame {σ : Type} {next : σ → Option Batch × σ} {n m : Nat} {s : σ} {rows rows' : List Row}
    (one : execJson next n s = some rows) (two : execJson next m s = some rows') : rows = rows' := by
  induction n generalizing m s rows rows' with
  | zero => cases one
  | succ n ih =>
    cases m with
    | zero => cases two
    | succ m =>
      rw [execJson] at one two
      split at one
      · rename_i call
        rw [call] at two
        exact Option.some.inj (one.symm.trans two)
      · rename_i call
        rw [call] at two
        dsimp only at two
        split at one
        · rename_i empty
          rw [if_pos empty] at two
          exact Option.some.inj (one.symm.trans two)
        · rename_i some_
          rw [if_neg some_] at two
          obtain ⟨rest,ran,rfl⟩ := Option.map_eq_some_iff.mp one
          obtain ⟨rest',ran',rfl⟩ := Option.map_eq_some_iff.mp two
          rw [ih ran ran']

theorem deliversIff (junk : Nat → Nat → Raw) {child : List Batch} {limit offset : Int} (positive : ∀ b ∈ child, 0 < b.nrows)
    (inside : ∀ b ∈ child.head?, offset < b.nrows) (rows : List Row) :
    Delivers junk child limit offset rows ↔ delivered junk offset.toNat (leftOf limit 0) child = rows := by
  have ran := @runIs junk ⟨limit,offset,0,0⟩ child positive (by simpa using inside) 0
  rw [show (⟨limit,offset,0,0⟩ : LimitState).offset - (⟨limit,offset,0,0⟩ : LimitState).skipped = offset from Int.sub_zero offset] at ran
  exact ⟨fun ⟨_,some_⟩ => execSame ran some_,fun same => ⟨_,same ▸ ran⟩⟩

/-- A first batch that is skipped whole is handed on empty, and that ends the consumer's loop. -/
theorem deliversSkipped (junk : Nat → Nat → Raw) {src : Batch} {child : List Batch} {limit offset : Int} (some_ : 0 < src.nrows)
    (above : src.nrows ≤ offset) (rows : List Row) : Delivers junk (src :: child) limit offset rows ↔ rows = [] := by
  have ran : execJson (limitNext junk) 1 (⟨limit,offset,0,0⟩,src :: child) = some [] := by
    rw [execJson,limitNext]
    by_cases none_ : 0 ≤ limit ∧ limit ≤ 0
    · rw [if_pos none_]
    · rw [if_neg none_]
      dsimp only
      rw [if_pos (by omega)]
      rfl
  exact ⟨fun ⟨_,some_⟩ => execSame some_ ran,fun same => ⟨1,same ▸ ran⟩⟩

theorem windowedIff {child : List Batch} {limit offset : Int} (positive : ∀ b ∈ child, 0 < b.nrows) :
    Windowed child limit offset ↔ window limit offset (child.flatMap Batch.rows) = [] ∨
      (∀ b ∈ child.head?, offset < b.nrows) ∧ BoolsStraight offset.toNat (leftOf limit 0) child := by
  by_cases inside : ∀ b ∈ child.head?, offset < b.nrows
  · have straight : Windowed child limit offset ↔ BoolsStraight offset.toNat (leftOf limit 0) child := by
      rw [← deliveredIff fun b here => by have := inside b here; omega]
      exact forall_congr' fun junk => by rw [deliversIff junk positive inside,windowLeft]
    rw [straight]
    refine ⟨fun all => .inr ⟨inside,all⟩,fun h => h.elim (fun empty => ?_) (·.2)⟩
    cases child with
    | nil => trivial
    | cons src child =>
      have first := inside src rfl
      have here := positive src List.mem_cons_self
      have long : 0 < (((src :: child).flatMap Batch.rows).drop offset.toNat).length := by
        rw [List.length_drop,List.flatMap_cons,List.length_append,rowsLength]
        omega
      rw [windowLeft,leftOf] at empty
      rw [leftOf]
      split at empty
      · rename_i bounded
        have size := congrArg List.length empty
        rw [show ∀ k rows, Left.take (some k) rows = rows.take k from fun _ _ => rfl,List.length_take,List.length_nil] at size
        rw [if_pos bounded,show (limit - 0).toNat = 0 by omega]
        exact straightNone _ _
      · exact absurd (congrArg List.length empty) (Nat.ne_of_gt long)
  · cases child with
    | nil => exact absurd (fun b here => nomatch here) inside
    | cons src child =>
      have above : src.nrows ≤ offset := by
        by_contra less
        exact inside fun b here => by cases here; omega
      have first := positive src List.mem_cons_self
      refine ⟨fun all => .inl ((deliversSkipped _ first above _).mp (all fun _ _ => .bits 0)),fun h junk => ?_⟩
      exact (deliversSkipped junk first above _).mpr (h.elim id fun both => absurd both.1 inside)

/-- What a filter emits is a child with rows in every batch. -/
theorem filterPositive {junk : Nat → Nat → Raw} {pred : Batch → Nat → Bool} {child rest : List Batch} {b : Batch}
    (call : filterNext junk pred child = (some b,rest)) : 0 < b.nrows := by
  induction child with
  | nil => cases call
  | cons src child ih =>
    rw [filterNext] at call
    split at call
    · rename_i some_
      cases call
      exact some_
    · exact ih call

def groupRow (v : UInt64) : Batch := ⟨1,[⟨ascii "n",.int64,[],[.bits v]⟩]⟩

/-- Of the groups 7 and 8 behind the first one nothing is delivered. -/
theorem windowedFails : ¬ ∀ (child : List Batch) (limit offset : Int), (∀ b ∈ child, 0 < b.nrows) → Windowed child limit offset := by
  intro all
  have empty := (deliversSkipped (fun _ _ => .bits 0) (by decide) (by decide) _).mp
    (all [groupRow 7,groupRow 8] (-1) 1 (by decide) _)
  exact absurd empty (by decide)

theorem windowedPage : Windowed [⟨2,[⟨ascii "n",.int64,[],[.bits 7,.bits 8]⟩]⟩,groupRow 9] 1 1 :=
  (windowedIff (by decide)).mpr (.inr ⟨by decide,by decide⟩)

end Napastak.QEngine
