import Napastak.Lib.InsertSort
import Napastak.Project
import Napastak.ValOrder

/-! ORDER BY: the rows are sorted by the texts of their keys. When the result has the order that was asked for. -/
namespace Napastak.OrderBy
open Query Access Project InsertSort ValOrder

/-- A row of the result with its sort keys; `vals` are the values that the expressions of ORDER BY have in it. -/
structure OutRow (F : Type) where
  cells : List Bytes
  skeys : List Bytes
  vals : List (Val F)
  deriving DecidableEq

/-- The first key that differs decides; a key that is missing is `dflt`. -/
def lexCmp {κ α : Type} (cmp : κ → α → α → Int) (dflt : α) : List κ → List α → List α → Int
  | [], _, _ => 0
  | k :: keys, as, bs =>
    let c := cmp k (as.headD dflt) (bs.headD dflt)
    if c = 0 then lexCmp cmp dflt keys as.tail bs.tail else c

section
variable {F : Type} [Doubles F]

/-- Two texts that are both numbers compare as doubles. -/
def keyCmp (o : OrderItem F) (ka kb : Bytes) : Int :=
  let cmp := match (pnum (some ka) : Option F), (pnum (some kb) : Option F) with
    | some na, some nb => numCmp na nb
    | _, _ => strcmp ka kb
  if o.desc then -cmp else cmp

def ordCmp (orderBy : List (OrderItem F)) (ak bk : List Bytes) : Int := lexCmp keyCmp [] orderBy ak bk

def greater (orderBy : List (OrderItem F)) (e x : OutRow F) : Bool := decide (0 < ordCmp orderBy e.skeys x.skeys)

def orderRows (orderBy : List (OrderItem F)) (rows : List (OutRow F)) : List (OutRow F) :=
  if 0 < orderBy.length ∧ 1 < rows.length then sort (greater orderBy) rows else rows

/-- The rows of a SELECT without grouping, as `collect_row` adds them. -/
def selectRows (env : Env F (Node F)) (tables : List (TblData × FromItem F)) (where_ : Option (SqlExpr F)) (list : SelectList F)
    (orderBy : List (OrderItem F)) : List (OutRow F) :=
  ((joinRecurse env true [] tables).filter fun ctx => passes env ctx where_).map fun ctx =>
    ⟨projectCells env list ctx,sortKeys env list orderBy ctx,orderBy.map fun o => evalVal env (some ctx) (orderExpr list o.expr)⟩

theorem selectRowsOut (env : Env F (Node F)) (tables : List (TblData × FromItem F)) (where_ : Option (SqlExpr F))
    (list : SelectList F) (orderBy : List (OrderItem F)) :
    (selectRows env tables where_ list orderBy).map (fun row => (row.cells,row.skeys)) = outRows env tables where_ list orderBy := by
  rw [selectRows,outRows,List.map_map]
  rfl

/-- The sort keys are the texts of the values. -/
theorem selectRowsKeys {env : Env F (Node F)} {tables : List (TblData × FromItem F)} {where_ : Option (SqlExpr F)}
    {list : SelectList F} {orderBy : List (OrderItem F)} {row : OutRow F} (mem : row ∈ selectRows env tables where_ list orderBy) :
    row.skeys = row.vals.map valStr := by
  obtain ⟨ctx,-,rfl⟩ := List.mem_map.1 mem
  rw [List.map_map]
  rfl

/-! ### The order that was asked for -/

/-- `vcmp`, the other way for DESC; NULL stands where the item puts it. -/
def valCmp (o : OrderItem F) (a b : Val F) : Int :=
  if a.isNull && b.isNull then 0
  else if a.isNull then if o.nullsLast then 1 else -1
  else if b.isNull then if o.nullsLast then -1 else 1
  else if o.desc then -(vcmp a b) else vcmp a b

def rowCmp (orderBy : List (OrderItem F)) (a b : OutRow F) : Int := lexCmp valCmp vnull orderBy a.vals b.vals

/-- `rowCmp` is one order of these rows. -/
def Consistent (orderBy : List (OrderItem F)) (rows : List (OutRow F)) : Prop :=
  ∀ a ∈ rows, ∀ b ∈ rows, ∀ c ∈ rows, rowCmp orderBy a b ≤ 0 → rowCmp orderBy b c ≤ 0 → rowCmp orderBy a c ≤ 0

/-- Of two numbered rows, the one in front: by the keys, then by the place in the unordered result. -/
def Before (orderBy : List (OrderItem F)) (a b : OutRow F × Nat) : Prop :=
  rowCmp orderBy a.1 b.1 < 0 ∨ rowCmp orderBy a.1 b.1 = 0 ∧ a.2 < b.2

structure Ordered (orderBy : List (OrderItem F)) (rows result : List (OutRow F)) : Prop where
  consistent : Consistent orderBy rows
  sorted : ∃ numbered : List (OutRow F × Nat), numbered.Perm rows.zipIdx ∧ numbered.map Prod.fst = result ∧
    numbered.Pairwise (Before orderBy)

/-! ### Comparisons -/

omit [Doubles F] in
theorem lexFlip {κ α : Type} {cmp : κ → α → α → Int} {dflt : α} (flip : ∀ k a b, (cmp k a b).sign = -(cmp k b a).sign)
    (keys : List κ) (as bs : List α) : (lexCmp cmp dflt keys as bs).sign = -(lexCmp cmp dflt keys bs as).sign := by
  induction keys generalizing as bs with
  | nil => rfl
  | cons k keys ih =>
    have here := flip k (as.headD dflt) (bs.headD dflt)
    rw [lexCmp,lexCmp]
    by_cases zero : cmp k (as.headD dflt) (bs.headD dflt) = 0
    · have zero' : cmp k (bs.headD dflt) (as.headD dflt) = 0 := by
        rw [zero] at here
        exact Int.sign_eq_zero_iff_zero.1 (by simpa using here)
      rw [zero,zero',if_pos rfl,if_pos rfl]
      exact ih as.tail bs.tail
    · have zero' : cmp k (bs.headD dflt) (as.headD dflt) ≠ 0 := fun zero' => by
        rw [zero'] at here
        exact zero (Int.sign_eq_zero_iff_zero.1 (by simpa using here))
      rw [if_neg zero,if_neg zero']
      exact here

theorem lexSelf {κ α : Type} {cmp : κ → α → α → Int} {dflt : α} (self : ∀ k a, cmp k a a = 0) (keys : List κ) (as : List α) :
    lexCmp cmp dflt keys as as = 0 := by
  induction keys generalizing as with
  | nil => rfl
  | cons k keys ih => simp only [lexCmp,self,if_true,ih]

theorem vcmpSign (ieee : Ieee F) (a b : Val F) : (vcmp a b).sign = -(vcmp b a).sign := by
  cases an : a.isNull <;> cases bn : b.isNull
  · cases as : a.str <;> cases bs : b.str
    case some.some s t =>
      have texts := vcmpFlip ieee s t
      simpa [vcmp,vstrS,an,bn,as,bs] using texts
    all_goals
      simp only [vcmp,an,bn,as,bs]
      cases a.isNum <;> cases b.isNum <;> simp [strcmpFlip (text b) (text a),numCmpFlip ieee b.num a.num]
  all_goals simp [vcmp,an,bn]

theorem valCmpSign (ieee : Ieee F) (o : OrderItem F) (a b : Val F) : (valCmp o a b).sign = -(valCmp o b a).sign := by
  have flip := vcmpSign ieee a b
  cases an : a.isNull <;> cases bn : b.isNull <;> cases desc : o.desc <;> cases last : o.nullsLast <;>
    simp [valCmp,an,bn,desc,last,flip]

theorem rowCmpSign (ieee : Ieee F) (orderBy : List (OrderItem F)) (a b : OutRow F) :
    (rowCmp orderBy a b).sign = -(rowCmp orderBy b a).sign := lexFlip (valCmpSign ieee) orderBy a.vals b.vals

theorem keyCmpSelf (ieee : Ieee F) (o : OrderItem F) (k : Bytes) : keyCmp o k k = 0 := by
  have irrefl (x : F) : Doubles.lt x x = false := by
    cases less : Doubles.lt x x with
    | false => rfl
    | true => exact less.symm.trans (ieee.asymm less)
  rw [keyCmp]
  cases (pnum (some k) : Option F) with
  | none => simp [strcmpSelf]
  | some x => simp [numCmp,irrefl]

/-! ### The sort -/

theorem orderRowsSort (orderBy : List (OrderItem F)) (rows : List (OutRow F)) :
    orderRows orderBy rows = sort (greater orderBy) rows := by
  rw [orderRows]
  split
  · rfl
  · rename_i few
    cases orderBy with
    | nil => exact (sortStill (greater []) fun _ _ => rfl).symm
    | cons o orderBy =>
      match rows with
      | [] => rfl
      | [_] => rfl
      | _ :: _ :: _ => exact absurd ⟨Nat.succ_pos _,by simp⟩ few

/-- The sort of the rows with their places in the unordered result. -/
def numberRows (orderBy : List (OrderItem F)) (rows : List (OutRow F)) : List (OutRow F × Nat) :=
  sort (fun e x => greater orderBy e.1 x.1) rows.zipIdx

theorem numberRowsFst (orderBy : List (OrderItem F)) (rows : List (OutRow F)) :
    (numberRows orderBy rows).map Prod.fst = orderRows orderBy rows := by
  rw [numberRows,sortMap (greater orderBy) Prod.fst,List.zipIdx_map_fst,orderRowsSort]

omit [Doubles F] in
theorem zipIdxLess (rows : List (OutRow F)) : rows.zipIdx.Pairwise fun a b => a.2 < b.2 := by
  have numbers : (rows.zipIdx.map Prod.snd).Pairwise (· < ·) := by
    rw [List.zipIdx_map_snd]
    exact List.pairwise_lt_range'
  exact List.pairwise_map.1 numbers

omit [Doubles F] in
theorem zipIdxNodup (rows : List (OutRow F)) : rows.zipIdx.Nodup :=
  (zipIdxLess rows).imp fun less same => absurd (congrArg Prod.snd same) (Nat.ne_of_lt less)

omit [Doubles F] in
theorem zipIdxApart {rows : List (OutRow F)} {a b : OutRow F × Nat} (left : a ∈ rows.zipIdx) (right : b ∈ rows.zipIdx)
    (differ : a ≠ b) : a.2 ≠ b.2 := by
  intro same
  have numbers : (rows.zipIdx.map Prod.snd).Nodup := by
    rw [List.zipIdx_map_snd]
    exact List.nodup_range'
  exact differ (List.inj_on_of_nodup_map numbers left right same)

omit [Doubles F] in
theorem zipIdxRow {rows : List (OutRow F)} {a : OutRow F × Nat} (mem : a ∈ rows.zipIdx) : a.1 ∈ rows := by
  rw [← List.zipIdx_map_fst 0 rows]
  exact List.mem_map_of_mem mem

theorem rowCmpOver (ieee : Ieee F) (orderBy : List (OrderItem F)) (a b : OutRow F) :
    rowCmp orderBy a b < 0 ↔ 0 < rowCmp orderBy b a := by
  have flip := rowCmpSign ieee orderBy a b
  rw [← Int.sign_eq_one_iff_pos,← Int.sign_eq_neg_one_iff_neg]
  omega

theorem beforeLe {orderBy : List (OrderItem F)} {a b : OutRow F × Nat} (before : Before orderBy a b) :
    rowCmp orderBy a.1 b.1 ≤ 0 := before.elim Int.le_of_lt fun same => Int.le_of_eq same.1

theorem beforeStrict (ieee : Ieee F) {orderBy : List (OrderItem F)} {rows : List (OutRow F)}
    (consistent : Consistent orderBy rows) : Strict (Before orderBy) rows.zipIdx where
  asymm a _ b _ first second := by
    have flip := rowCmpOver ieee orderBy a.1 b.1
    have flip' := rowCmpOver ieee orderBy b.1 a.1
    rcases first with less | ⟨same,lt⟩ <;> rcases second with less' | ⟨same',lt'⟩ <;> omega
  trans a ha b hb c hc first second := by
    have ab := beforeLe first
    have bc := beforeLe second
    have through (p q r : OutRow F × Nat) (hp : p ∈ rows.zipIdx) (hq : q ∈ rows.zipIdx) (hr : r ∈ rows.zipIdx) :=
      consistent p.1 (zipIdxRow hp) q.1 (zipIdxRow hq) r.1 (zipIdxRow hr)
    have ac := through a b c ha hb hc ab bc
    rcases Int.lt_or_eq_of_le ac with less | same
    · exact .inl less
    · -- all three are alike, so that the places decide
      have ca : rowCmp orderBy c.1 a.1 ≤ 0 := by
        have := rowCmpOver ieee orderBy a.1 c.1
        omega
      have cb := through c a b hc ha hb ca ab
      have ba := through b c a hb hc ha bc ca
      have flip := rowCmpOver ieee orderBy a.1 b.1
      have flip' := rowCmpOver ieee orderBy b.1 c.1
      refine .inr ⟨same,?_⟩
      rcases first with less | ⟨-,lt⟩
      · omega
      rcases second with less | ⟨-,lt'⟩
      · omega
      exact Nat.lt_trans lt lt'
  total a ha b hb differ := by
    have flip := rowCmpOver ieee orderBy a.1 b.1
    have flip' := rowCmpOver ieee orderBy b.1 a.1
    have apart := zipIdxApart ha hb differ
    rw [Before,Before]
    omega

theorem numberRowsKept (ieee : Ieee F) (orderBy : List (OrderItem F)) (rows : List (OutRow F)) :
    (numberRows orderBy rows).Pairwise fun a b => a.1 = b.1 → a.2 < b.2 := by
  have stays (a b : OutRow F × Nat) (same : a.1 = b.1) : greater orderBy a.1 b.1 = false := by
    rw [greater,same,ordCmp,lexSelf (keyCmpSelf ieee)]
    rfl
  have places : rows.zipIdx.Pairwise fun a b => a.1 = b.1 → a.2 < b.2 :=
    (zipIdxLess rows).imp fun {a b} less (_ : a.1 = b.1) => less
  exact sortKept _ stays places fun a b same => same.symm

theorem beforeNumbers (ieee : Ieee F) {orderBy : List (OrderItem F)} {a b : OutRow F × Nat} (before : Before orderBy a b)
    (same : a.1 = b.1) : a.2 < b.2 := by
  have flip := rowCmpSign ieee orderBy b.1 b.1
  have zero : rowCmp orderBy b.1 b.1 = 0 := Int.sign_eq_zero_iff_zero.1 (by omega)
  rw [Before,same,zero] at before
  exact (before.resolve_left (Int.lt_irrefl 0)).2

/-- The result of ORDER BY is the unordered result in the order that was asked for, just where that is an order on the rows
and each row in turn, compared by the texts of the keys, finds its place among the rows in front of it. -/
theorem orderedIff (ieee : Ieee F) (orderBy : List (OrderItem F)) (rows : List (OutRow F)) :
    Ordered orderBy rows (orderRows orderBy rows) ↔
      Consistent orderBy rows ∧ ∀ pre x post, rows.zipIdx = pre ++ x :: post →
        Placed (Before orderBy) (fun e x => greater orderBy e.1 x.1) pre x := by
  have places (consistent : Consistent orderBy rows) :=
    @sortPlaced _ (fun e x => greater orderBy e.1 x.1) _ _ (beforeStrict ieee consistent) (zipIdxNodup rows)
  constructor
  · rintro ⟨consistent,numbered,perm,fst,sorted⟩
    refine ⟨consistent,(places consistent).1 ?_⟩
    have same : numbered = numberRows orderBy rows := by
      refine numberedUnique (perm.trans (sortPerm _ _).symm) (fst.trans (numberRowsFst orderBy rows).symm) ?_
        (numberRowsKept ieee orderBy rows)
      exact sorted.imp (beforeNumbers ieee)
    rwa [same] at sorted
  · rintro ⟨consistent,placed⟩
    exact ⟨consistent,numberRows orderBy rows,sortPerm _ _,numberRowsFst orderBy rows,(places consistent).2 placed⟩

end

/-- `9` before `10`. -/
theorem orderedInts : Ordered [(⟨.col none [110],false,true⟩ : OrderItem Int)]
    [⟨[[49,48]],[[49,48]],[vstrS [49,48]]⟩,⟨[[57]],[[57]],[vstrS [57]]⟩]
    [⟨[[57]],[[57]],[vstrS [57]]⟩,⟨[[49,48]],[[49,48]],[vstrS [49,48]]⟩] := by
  refine (orderedIff ieeeInt _ [⟨[[49,48]],[[49,48]],[vstrS [49,48]]⟩,⟨[[57]],[[57]],[vstrS [57]]⟩]).2 ⟨?_,?_⟩
  · unfold Consistent
    decide
  · rintro pre x post is
    match pre with
    | [] => exact ⟨fun _ mem => (List.not_mem_nil mem).elim,fun _ mem => (List.not_mem_nil mem).elim⟩
    | [e] =>
      obtain ⟨rfl,rest_⟩ := List.cons.inj is
      obtain ⟨rfl,-⟩ := List.cons.inj rest_
      refine ⟨fun e mem _ => ?_,fun e mem less => ?_⟩
      · rw [List.mem_singleton.1 mem]
        decide
      · rw [List.mem_singleton.1 mem] at less
        exact absurd less (by unfold Before; decide)
    | _ :: _ :: pre =>
      obtain ⟨-,rest_⟩ := List.cons.inj is
      obtain ⟨-,rest_⟩ := List.cons.inj rest_
      cases pre <;> cases rest_

/-- NULL comes first under NULLS LAST. -/
theorem nullFirst : ¬Ordered [(⟨.col none [110],false,true⟩ : OrderItem Int)]
    [⟨[[97]],[[97]],[vstrS [97]]⟩,⟨[nullSentinel],[[]],[vnull]⟩]
    (orderRows [(⟨.col none [110],false,true⟩ : OrderItem Int)]
      [⟨[[97]],[[97]],[vstrS [97]]⟩,⟨[nullSentinel],[[]],[vnull]⟩]) := by
  rintro ⟨-,numbered,-,fst,sorted⟩
  have result : orderRows [(⟨.col none [110],false,true⟩ : OrderItem Int)]
      [⟨[[97]],[[97]],[vstrS [97]]⟩,⟨[nullSentinel],[[]],[vnull]⟩] =
        [⟨[nullSentinel],[[]],[vnull]⟩,⟨[[97]],[[97]],[vstrS [97]]⟩] := by decide
  rw [result] at fst
  obtain ⟨a,rest_,rfl,first,fst⟩ := List.map_eq_cons_iff.1 fst
  obtain ⟨b,rest_,rfl,second,-⟩ := List.map_eq_cons_iff.1 fst
  have before := (List.pairwise_cons.1 sorted).1 b List.mem_cons_self
  rw [Before,first,second] at before
  have after : rowCmp [(⟨.col none [110],false,true⟩ : OrderItem Int)] ⟨[nullSentinel],[[]],[vnull]⟩
      ⟨[[97]],[[97]],[vstrS [97]]⟩ = 1 := by decide
  omega

end Napastak.OrderBy
