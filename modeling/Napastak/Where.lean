import Napastak.Expr
import Napastak.Lib.Kleene

/-! Which rows a filter keeps, against SQL's three-valued logic. The evaluator answers
every condition with a Boolean; it is a completion of the logic, and the rows it keeps
beyond the TRUE ones are those on which some part slips. -/
namespace Napastak.Query
open Kleene

section
variable {F X : Type} [Doubles F]

/-- A condition with an operand that may be NULL. -/
def known (v : Val F) (b : Bool) : Truth := if v.isNull then none else some b

def known2 (v w : Val F) (b : Bool) : Truth := if v.isNull || w.isNull then none else some b

def sqlGe (a b : Val F) : Truth := known2 a b (vcmp a b ≥ 0)
def sqlLe (a b : Val F) : Truth := known2 a b (vcmp a b ≤ 0)
def sqlEq (a b : Val F) : Truth := known2 a b (veq a b)

def sqlCmp (op : BinOp) (a b : Val F) : Truth :=
  match op with
  | .eq => sqlEq a b
  | .ne => not3 (sqlEq a b)
  | .lt => known2 a b (vcmp a b < 0)
  | .le => sqlLe a b
  | .gt => known2 a b (vcmp a b > 0)
  | .ge => sqlGe a b
  | .like => known2 a b (likeMatch (valStr a) (valStr b) false)
  | .notLike => not3 (known2 a b (likeMatch (valStr a) (valStr b) false))
  | .ilike => known2 a b (likeMatch (valStr a) (valStr b) true)
  | .notIlike => not3 (known2 a b (likeMatch (valStr a) (valStr b) true))
  | _ => none

/-- The truth value SQL gives a condition. Operands are cells and literals; on values that are not
NULL the comparisons are the engine's own. -/
def sqlTruth (env : Env F X) (ctx : Option JoinCtx) : Expr F X → Truth
  | .unop .not e => not3 (sqlTruth env ctx e)
  | .unop .isNull e => some (evalVal env ctx e).isNull
  | .unop .isNotNull e => some (!(evalVal env ctx e).isNull)
  | .binop .and l r => and3 (sqlTruth env ctx l) (sqlTruth env ctx r)
  | .binop .or l r => or3 (sqlTruth env ctx l) (sqlTruth env ctx r)
  | .binop op l r => sqlCmp op (evalVal env ctx l) (evalVal env ctx r)
  | .between neg e lo hi =>
    let L := evalVal env ctx e
    let inside := and3 (sqlGe L (evalVal env ctx lo)) (sqlLe L (evalVal env ctx hi))
    if neg then not3 inside else inside
  | .inList neg e items =>
    let member := any3 ((evalItems env ctx items).map (sqlEq (evalVal env ctx e)))
    if neg then not3 member else member
  | e => known (evalVal env ctx e) (vt (evalVal env ctx e))

end

/-- Columns and literals. -/
def Expr.operand {F X : Type} : Expr F X → Bool
  | .col _ _ | .int _ _ | .float _ | .str _ | .null | .bool _ => true
  | _ => false

def BinOp.comparison : BinOp → Bool
  | .eq | .ne | .lt | .le | .gt | .ge | .like | .ilike | .notLike | .notIlike => true
  | _ => false

/-- Conditions built from comparisons, IN, BETWEEN, LIKE and IS NULL over columns and literals with
AND, OR and NOT. -/
def Expr.condition {F X : Type} : Expr F X → Bool
  | .unop .not e => e.condition
  | .unop .isNull e | .unop .isNotNull e => e.operand
  | .unop .neg _ => false
  | .binop .and l r | .binop .or l r => l.condition && r.condition
  | .binop op l r => op.comparison && l.operand && r.operand
  | .between _ e lo hi => e.operand && lo.operand && hi.operand
  | .inList _ e items => e.operand && items.all Expr.operand
  | e => e.operand

section
variable {F X : Type} [Doubles F]

/-- Where a comparison with a NULL operand comes out true. -/
def slipCmp (op : BinOp) (a b : Val F) : Bool :=
  match op with
  | .ne => a.isNull || b.isNull
  | .lt => a.isNull && !b.isNull
  | .le => a.isNull
  | .gt => b.isNull && !a.isNull
  | .ge => b.isNull
  | _ => false

/-- The condition is UNKNOWN for SQL and some NULL operand of its comparisons makes it pass. -/
def slips (env : Env F X) (ctx : Option JoinCtx) : Expr F X → Bool
  | .unop .not e => sqlTruth env ctx e = none && !slips env ctx e
  | .unop _ _ => false
  | .binop .and l r =>
    (slips env ctx l || slips env ctx r) &&
      (slips env ctx l || sqlTruth env ctx l = some true) && (slips env ctx r || sqlTruth env ctx r = some true)
  | .binop .or l r =>
    or3 (sqlTruth env ctx l) (sqlTruth env ctx r) = none && (slips env ctx l || slips env ctx r)
  | .binop op l r => slipCmp op (evalVal env ctx l) (evalVal env ctx r)
  | .between neg e lo hi =>
    let L := evalVal env ctx e
    let lo := evalVal env ctx lo
    let hi := evalVal env ctx hi
    if neg then !L.isNull && hi.isNull && (lo.isNull || vcmp L lo ≥ 0)
    else !L.isNull && lo.isNull && !hi.isNull && vcmp L hi ≤ 0
  | .inList neg e items =>
    let L := evalVal env ctx e
    let vs := evalItems env ctx items
    neg && !vs.isEmpty && (L.isNull || vs.any fun v => v.isNull) && !vs.any fun v => veq L v
  | _ => false

attribute [local simp] sqlTruth slips

theorem knownCompletes (v : Val F) : Completes (vt v) (known v (vt v)) := by
  unfold known
  split
  · exact completesNone _
  · exact completesSome _

theorem knownNoSlip (v : Val F) : ¬ Slip (vt v) (known v (vt v)) := by
  rintro ⟨unknown,kept⟩
  unfold known at unknown
  split at unknown
  · rename_i null
    rw [vtNull null] at kept
    contradiction
  · contradiction

variable (env : Env F X) (ctx : Option JoinCtx)

theorem cmpCompletes {op : BinOp} (comparison : op.comparison = true) (l r : Expr F X) :
    Completes (vt (evalVal env ctx (.binop op l r))) (sqlCmp op (evalVal env ctx l) (evalVal env ctx r)) := by
  cases op <;> first | contradiction | skip
  all_goals
    simp only [evalVal,sqlCmp,sqlEq,sqlLe,sqlGe,known2]
    intro b hb
    split at hb <;> rename_i nulls
    · simp [not3] at hb
    · simp_all [not3]

theorem cmpSlips {op : BinOp} (comparison : op.comparison = true) (l r : Expr F X) :
    slipCmp op (evalVal env ctx l) (evalVal env ctx r) = true ↔
      Slip (vt (evalVal env ctx (.binop op l r))) (sqlCmp op (evalVal env ctx l) (evalVal env ctx r)) := by
  generalize hL : evalVal env ctx l = L
  generalize hR : evalVal env ctx r = R
  cases op <;> first | contradiction | skip
  all_goals
    simp only [evalVal,sqlCmp,sqlEq,sqlLe,sqlGe,known2,slipCmp,Slip,hL,hR]
    cases nl : L.isNull <;> cases nr : R.isNull <;>
      simp [not3,vcmpNulls,vcmpNullLeft,vcmpNullRight,veqNull,nl,nr]

theorem geCompletes (a b : Val F) : Completes (decide (vcmp a b ≥ 0)) (sqlGe a b) := by
  intro x hx
  unfold sqlGe known2 at hx
  split at hx <;> simp_all

theorem leCompletes (a b : Val F) : Completes (decide (vcmp a b ≤ 0)) (sqlLe a b) := by
  intro x hx
  unfold sqlLe known2 at hx
  split at hx <;> simp_all

theorem eqCompletes (a : Val F) (vs : List (Val F)) :
    Completes (vs.any fun v => veq a v) (any3 (vs.map (sqlEq a))) := by
  induction vs with
  | nil => exact completesSome _
  | cons v vs ih =>
    refine completesOr (fun b hb => ?_) ih
    unfold sqlEq known2 at hb
    split at hb <;> simp_all

theorem betweenCompletes (neg : Bool) (e lo hi : Expr F X) :
    Completes (vt (evalVal env ctx (.between neg e lo hi))) (sqlTruth env ctx (.between neg e lo hi)) := by
  simp only [evalVal,sqlTruth]
  generalize evalVal env ctx e = L
  generalize evalVal env ctx lo = l
  generalize evalVal env ctx hi = h
  cases null : L.isNull with
  | true => cases neg <;> simp [sqlGe,sqlLe,known2,null,and3,not3,completesNone]
  | false =>
    have inside := completesAnd (geCompletes L l) (leCompletes L h)
    cases neg with
    | false => simpa using inside
    | true => simpa [Bool.not_and,← decide_not,Int.not_le] using completesNot inside

theorem betweenSlips (neg : Bool) (e lo hi : Expr F X) :
    slips env ctx (.between neg e lo hi) = true ↔
      Slip (vt (evalVal env ctx (.between neg e lo hi))) (sqlTruth env ctx (.between neg e lo hi)) := by
  simp only [evalVal,sqlTruth,slips]
  generalize evalVal env ctx e = L
  generalize evalVal env ctx lo = l
  generalize evalVal env ctx hi = h
  cases nL : L.isNull with
  | true => cases neg <;> simp [Slip]
  | false =>
    have ge : decide (vcmp L l ≥ 0) = !decide (vcmp L l < 0) := by simp [← decide_not]
    have le : decide (vcmp L h ≤ 0) = !decide (vcmp L h > 0) := by simp [← decide_not]
    have low : l.isNull = true → decide (vcmp L l < 0) = false := fun n => by simp [vcmpNullRight nL n]
    have high : h.isNull = true → decide (vcmp L h > 0) = true := fun n => by simp [vcmpNullRight nL n]
    simp only [sqlGe,sqlLe,known2,nL,ge,le]
    clear ge le
    generalize decide (vcmp L l < 0) = below at *
    generalize decide (vcmp L h > 0) = above at *
    generalize l.isNull = nl at *
    generalize h.isNull = nh at *
    clear nL
    cases nl with
    | true =>
      obtain rfl := low rfl
      cases nh with
      | true => obtain rfl := high rfl; cases neg <;> simp [Slip,and3,not3]
      | false => cases neg <;> cases above <;> simp [Slip,and3,not3]
    | false =>
      cases nh with
      | true => obtain rfl := high rfl; cases neg <;> cases below <;> simp [Slip,and3,not3]
      | false => cases neg <;> cases below <;> cases above <;> simp [Slip,and3,not3]

theorem inListCompletes (neg : Bool) (e : Expr F X) (items : List (Expr F X)) :
    Completes (vt (evalVal env ctx (.inList neg e items))) (sqlTruth env ctx (.inList neg e items)) := by
  have member := eqCompletes (evalVal env ctx e) (evalItems env ctx items)
  simp only [evalVal,sqlTruth,vtVbool]
  cases neg with
  | false => exact member
  | true => exact completesNot member

theorem inListSlips (neg : Bool) (e : Expr F X) (items : List (Expr F X)) :
    slips env ctx (.inList neg e items) = true ↔
      Slip (vt (evalVal env ctx (.inList neg e items))) (sqlTruth env ctx (.inList neg e items)) := by
  simp only [evalVal,sqlTruth,vtVbool,slips]
  generalize evalVal env ctx e = L
  generalize evalItems env ctx items = vs
  have missing : some true ∉ vs.map (sqlEq L) ↔ (vs.any fun v => veq L v) = false := by
    simp only [List.mem_map,not_exists,not_and,List.any_eq_false]
    refine forall₂_congr fun v _ => ?_
    cases nulls : L.isNull || v.isNull <;> simp_all [sqlEq,known2,veq]
  have unknown : none ∈ vs.map (sqlEq L) ↔ vs.isEmpty = false ∧ (L.isNull = true ∨ ∃ v ∈ vs, v.isNull = true) := by
    simp only [List.mem_map,sqlEq,known2,ite_eq_left_iff]
    cases vs <;> cases nL : L.isNull <;> simp
  have none3 := anyNone (vs.map (sqlEq L))
  rw [missing,unknown] at none3
  cases neg with
  | false =>
    simp only [Slip,Bool.false_and,Bool.false_eq_true,false_iff,not_and]
    intro none kept
    rw [if_neg (by simp),none3] at none
    simp [none.1] at kept
  | true =>
    have flip : ∀ t : Truth, not3 t = none ↔ t = none := fun t => by cases t <;> simp [not3]
    rw [Slip,if_pos rfl,if_pos rfl,flip,none3]
    simp only [Bool.true_and,Bool.and_eq_true,Bool.or_eq_true,Bool.not_eq_true',List.any_eq_true]
    exact ⟨fun h => ⟨⟨h.2,h.1⟩,h.2⟩,fun h => ⟨h.1.2,h.2⟩⟩

theorem operandTruth {e : Expr F X} (h : e.operand = true) :
    sqlTruth env ctx e = known (evalVal env ctx e) (vt (evalVal env ctx e)) ∧ slips env ctx e = false := by
  cases e <;> first | contradiction | exact ⟨rfl,rfl⟩

theorem operandCompletes {e : Expr F X} (h : e.operand = true) :
    Completes (vt (evalVal env ctx e)) (sqlTruth env ctx e) ∧
      (slips env ctx e = true ↔ Slip (vt (evalVal env ctx e)) (sqlTruth env ctx e)) := by
  obtain ⟨truth,slip⟩ := operandTruth env ctx h
  rw [truth,slip]
  exact ⟨knownCompletes _,by simpa using knownNoSlip _⟩

/-- The evaluator completes the three-valued reading of a condition, and `slips` says where it takes
UNKNOWN for true. -/
theorem evalCompletes : ∀ e : Expr F X, e.condition = true →
    Completes (vt (evalVal env ctx e)) (sqlTruth env ctx e) ∧
      (slips env ctx e = true ↔ Slip (vt (evalVal env ctx e)) (sqlTruth env ctx e))
  | .unop .not e, h => by
    obtain ⟨done,slip⟩ := evalCompletes e h
    simp only [evalVal,sqlTruth,slips,vtVbool]
    refine ⟨completesNot done,?_⟩
    rw [slipNot,← slip]
    simp
  | .unop .isNull e, _ => ⟨by simp [evalVal,sqlTruth,completesSome],by simp [slips,sqlTruth,Slip]⟩
  | .unop .isNotNull e, _ => ⟨by simp [evalVal,sqlTruth,completesSome],by simp [slips,sqlTruth,Slip]⟩
  | .unop .neg e, h => by simp [Expr.condition] at h
  | .binop op l r, h => by
    by_cases comparison : op.comparison = true
    · have truth : sqlTruth env ctx (.binop op l r) = sqlCmp op (evalVal env ctx l) (evalVal env ctx r) := by
        cases op <;> first | contradiction | rfl
      have slip : slips env ctx (.binop op l r) = slipCmp op (evalVal env ctx l) (evalVal env ctx r) := by
        cases op <;> first | contradiction | rfl
      rw [truth,slip]
      exact ⟨cmpCompletes env ctx comparison l r,cmpSlips env ctx comparison l r⟩
    · cases op <;> first | contradiction | skip
      case and =>
        simp only [Expr.condition,Bool.and_eq_true] at h
        obtain ⟨doneL,slipL⟩ := evalCompletes l h.1
        obtain ⟨doneR,slipR⟩ := evalCompletes r h.2
        rw [vtAnd]
        refine ⟨completesAnd doneL doneR,?_⟩
        rw [sqlTruth,slipAnd doneL doneR,← slipL,← slipR]
        simp [slips,and_assoc]
      case or =>
        simp only [Expr.condition,Bool.and_eq_true] at h
        obtain ⟨doneL,slipL⟩ := evalCompletes l h.1
        obtain ⟨doneR,slipR⟩ := evalCompletes r h.2
        rw [vtOr]
        refine ⟨completesOr doneL doneR,?_⟩
        rw [sqlTruth,slipOr doneL doneR,← slipL,← slipR]
        simp [slips]
  | .between neg e lo hi, _ => ⟨betweenCompletes env ctx neg e lo hi,betweenSlips env ctx neg e lo hi⟩
  | .inList neg e items, _ => ⟨inListCompletes env ctx neg e items,inListSlips env ctx neg e items⟩
  | .col t n, _ => operandCompletes env ctx rfl
  | .int i s, _ => operandCompletes env ctx rfl
  | .float f, _ => operandCompletes env ctx rfl
  | .str s, _ => operandCompletes env ctx rfl
  | .null, _ => operandCompletes env ctx rfl
  | .bool b, _ => operandCompletes env ctx rfl

/-- A row is kept exactly when its condition is TRUE for SQL, as long as the condition does not slip. -/
theorem whereKeeps {e : Expr F X} (h : e.condition = true) :
    (vt (evalVal env ctx e) = true ↔ sqlTruth env ctx e = some true) ↔ slips env ctx e = false := by
  obtain ⟨done,slip⟩ := evalCompletes env ctx e h
  rw [completesExact done,← slip,Bool.not_eq_true]

end

/-- The row of a one-column table. -/
def oneCell (name : String) (cell : Cell) : Option JoinCtx := some [⟨some [ascii name],some [cell],none,none⟩]

/-- No enclosing query, no function. -/
def plainEnv : Env Int Empty := ⟨none,fun _ _ _ _ => vnull,fun _ _ _ => vnull,fun _ => vnull,nofun⟩

/-- `NOT balance = 100`. -/
def notHundred : Expr Int Empty :=
  .unop .not (.binop .eq (.col none (ascii "balance")) (.int 100 (some (ascii "100"))))

theorem whereKeepsFilledRow : (vt (evalVal plainEnv (oneCell "balance" (some (ascii "7"))) notHundred) = true ↔
    sqlTruth plainEnv (oneCell "balance" (some (ascii "7"))) notHundred = some true) ↔
      slips plainEnv (oneCell "balance" (some (ascii "7"))) notHundred = false :=
  whereKeeps plainEnv _ rfl

/-- A NULL balance: SQL says UNKNOWN, the engine keeps the row. -/
theorem whereKeepsNullRow : notHundred.condition = true ∧
    sqlTruth plainEnv (oneCell "balance" none) notHundred = none ∧
    vt (evalVal plainEnv (oneCell "balance" none) notHundred) = true ∧
    ¬ (vt (evalVal plainEnv (oneCell "balance" none) notHundred) = true ↔
      sqlTruth plainEnv (oneCell "balance" none) notHundred = some true) := by
  decide

end Napastak.Query
