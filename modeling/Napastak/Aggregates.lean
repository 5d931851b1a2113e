import Napastak.GroupKeys
import Napastak.ValOrder
import Napastak.Lib.Champion

/-! The values of COUNT, MIN and MAX over the rows of a group, by themselves and inside an expression. -/
namespace Napastak.Grouping
open Query Access ValOrder Champion

section
variable {F : Type} [Doubles F]

/-! ### What SQL says -/

def entry (ev : Evaluator F) (args : List (SqlExpr F)) (r : JoinCtx) : Option Bytes :=
  if (argVal ev r args).isNull then none else some (valStr (argVal ev r args))

/-- The texts of the values that are not NULL. -/
def texts (ev : Evaluator F) (args : List (SqlExpr F)) (rs : List JoinCtx) : List Bytes := rs.filterMap (entry ev args)

def sqlCount (ev : Evaluator F) (rs : List JoinCtx) (c : AggCall F) : Nat :=
  if c.isStar then rs.length else if c.distinct then (texts ev c.args rs).dedup.length else (texts ev c.args rs).length

/-- Numbers by their value, other texts byte by byte. -/
def SqlLess (F : Type) [Doubles F] (a b : Bytes) : Prop :=
  match (pnum (some a) : Option F), (pnum (some b) : Option F) with
  | some _, some _ => NumLess F a b
  | _, _ => strcmp a b < 0

def Least (F : Type) [Doubles F] (xs : List Bytes) (m : Bytes) : Prop := m ∈ xs ∧ ∀ y ∈ xs, ¬SqlLess F y m

def Greatest (F : Type) [Doubles F] (xs : List Bytes) (m : Bytes) : Prop := m ∈ xs ∧ ∀ y ∈ xs, ¬SqlLess F m y

/-! ### Comparisons -/

/-- Below, as a double where both are numbers and byte by byte elsewhere. -/
def lower (F : Type) [Doubles F] (a b : Bytes) : Bool := aggValCmp F a b < 0

def higher (F : Type) [Doubles F] (a b : Bytes) : Bool := aggValCmp F a b > 0

theorem aggValCmpFlip (ieee : Ieee F) (a b : Bytes) : aggValCmp F b a = -aggValCmp F a b := by
  rw [aggValCmp,aggValCmp]
  cases (pnum (some a) : Option F) with
  | none => cases (pnum (some b) : Option F) <;> exact strcmpFlip a b
  | some x =>
    cases (pnum (some b) : Option F) with
    | none => exact strcmpFlip a b
    | some y => exact numCmpFlip ieee x y

theorem higherLower (ieee : Ieee F) (a b : Bytes) : higher F a b = lower F b a := by
  rw [higher,lower,aggValCmpFlip ieee a b]
  exact decide_eq_decide.mpr (by omega)

theorem lowerAsymm (ieee : Ieee F) (a b : Bytes) (is : lower F a b = true) : lower F b a = false := by
  rw [lower,decide_eq_true_eq] at is
  rw [lower,decide_eq_false_iff_not,aggValCmpFlip ieee a b]
  omega

theorem higherAsymm (ieee : Ieee F) (a b : Bytes) (is : higher F a b = true) : higher F b a = false := by
  rw [higherLower ieee] at is ⊢
  exact lowerAsymm ieee b a is

theorem lowerNotLess (ieee : Ieee F) {a b : Bytes} (is : lower F a b = true) : ¬SqlLess F b a := by
  rw [lower,decide_eq_true_eq,aggValCmp] at is
  rw [SqlLess]
  cases left : (pnum (some a) : Option F) with
  | none =>
    have less : strcmp a b < 0 := by
      rw [left] at is
      cases right : (pnum (some b) : Option F) <;> rw [right] at is <;> exact is
    have above_ : ¬strcmp b a < 0 := by
      rw [strcmpFlip a b]
      omega
    cases right : (pnum (some b) : Option F) <;> exact above_
  | some x =>
    cases right : (pnum (some b) : Option F) with
    | none =>
      rw [left,right] at is
      dsimp only at is ⊢
      rw [strcmpFlip a b]
      omega
    | some y =>
      rw [left,right] at is
      dsimp only at is ⊢
      have le : ¬numCmp y x ≤ 0 := by
        rw [numCmpFlip ieee x y]
        omega
      rw [numCmpLe ieee] at le
      rw [NumLess]
      split
      · rename_i ints
        obtain ⟨bInt,aInt⟩ := Bool.and_eq_true_iff.mp ints
        exact fun less => le (ieee.intMono bInt aInt right left (Int.le_of_lt less))
      · rintro ⟨y',x',right',left',less⟩
        rw [right] at right'
        rw [left] at left'
        cases right'
        cases left'
        exact le (ieee.asymm less)

theorem lowerSelf (ieee : Ieee F) (a : Bytes) : ¬SqlLess F a a := by
  rw [SqlLess]
  cases own : (pnum (some a) : Option F) with
  | none =>
    dsimp only
    rw [strcmpSelf]
    omega
  | some x =>
    dsimp only
    rw [NumLess]
    split
    · exact Int.lt_irrefl _
    · rintro ⟨y,z,left,right,less⟩
      rw [own] at left right
      cases left
      cases right
      have := ieee.asymm less
      rw [less] at this
      cases this

theorem strictLeast (ieee : Ieee F) {xs : List Bytes} {r : Bytes} (strict : Strict (lower F) xs r) : Least F xs r :=
  ⟨strict.1,fun y mem => if same : y = r then same ▸ lowerSelf ieee y else lowerNotLess ieee (strict.2 y mem same)⟩

theorem strictGreatest (ieee : Ieee F) {xs : List Bytes} {r : Bytes} (strict : Strict (higher F) xs r) : Greatest F xs r :=
  ⟨strict.1,fun y mem => if same : y = r then same ▸ lowerSelf ieee y
    else lowerNotLess ieee (by rw [← higherLower ieee]; exact strict.2 y mem same)⟩

/-! ### Accumulators -/

/-- The texts that go on the accumulator. -/
def comesUp (once : Bool) (seen ts : List Bytes) : List Bytes := if once then fresh seen ts else ts

theorem accumulateNone (ev : Evaluator F) {c : AggCall F} (notStar : (named c.name "COUNT" && c.isStar) = false) {r : JoinCtx}
    (none_ : entry ev c.args r = none) (s : Slot F) : aggAccumulate ev r c s = s := by
  have null : (argVal ev r c.args).isNull = true := by
    rw [entry] at none_
    split at none_
    · assumption
    · cases none_
  have admits : c.admits s (argVal ev r c.args) = none := by rw [AggCall.admits,if_pos null]
  rw [aggAccumulate]
  split
  · rename_i count
    rw [count,Bool.true_and] at notStar
    rw [if_neg (by rw [notStar]; exact Bool.false_ne_true),admits]
  · dsimp only
    rw [admits]

theorem accumulateSeen (ev : Evaluator F) {c : AggCall F} (notStar : (named c.name "COUNT" && c.isStar) = false) {r : JoinCtx} {t : Bytes}
    (some_ : entry ev c.args r = some t) {s : Slot F} (once : c.distinct = true) (seen : t ∈ s.dvals) : aggAccumulate ev r c s = s := by
  have admits : c.admits s (argVal ev r c.args) = none := by
    rw [entry] at some_
    split at some_
    · cases some_
    · rename_i solid
      cases some_
      rw [AggCall.admits,if_neg solid,if_pos once,aggDistinctFirstSeen,if_pos seen]
  rw [aggAccumulate]
  split
  · rename_i count
    rw [count,Bool.true_and] at notStar
    rw [if_neg (by rw [notStar]; exact Bool.false_ne_true),admits]
  · dsimp only
    rw [admits]

theorem accumulateNew (ev : Evaluator F) {c : AggCall F} (notStar : (named c.name "COUNT" && c.isStar) = false) {r : JoinCtx} {t : Bytes}
    (some_ : entry ev c.args r = some t) {s : Slot F} (new : c.distinct = true → t ∉ s.dvals) :
    (aggAccumulate ev r c s).cnt = s.cnt + 1 ∧ (aggAccumulate ev r c s).dvals = (if c.distinct then s.dvals ++ [t] else s.dvals) ∧
      (aggAccumulate ev r c s).minStr = (if named c.name "COUNT" then s.minStr else champ (lower F) s.minStr [t]) ∧
      (aggAccumulate ev r c s).maxStr = (if named c.name "COUNT" then s.maxStr else champ (higher F) s.maxStr [t]) := by
  rw [entry] at some_
  split at some_
  · cases some_
  · rename_i solid
    cases some_
    have admits : c.admits s (argVal ev r c.args) =
        some (if c.distinct then {s with dvals := s.dvals ++ [valStr (argVal ev r c.args)]} else s) := by
      rw [AggCall.admits,if_neg solid]
      split
      · rename_i once
        rw [aggDistinctFirstSeen,if_neg (new once)]
      · rfl
    rw [aggAccumulate]
    split
    · rename_i count
      rw [count,Bool.true_and] at notStar
      rw [if_neg (by rw [notStar]; exact Bool.false_ne_true),admits]
      cases c.distinct <;> exact ⟨rfl,rfl,rfl,rfl⟩
    · dsimp only
      rw [admits]
      refine ⟨?_,?_,?_,?_⟩
      · cases c.distinct <;> rfl
      · cases c.distinct <;> rfl
      · cases c.distinct <;> cases low : s.minStr <;> simp [low,champ,lower]
      · cases c.distinct <;> cases high : s.maxStr <;> simp [high,champ,higher]

/-- A run of rows over an accumulator that is not COUNT(*). -/
theorem accumulateRun (ev : Evaluator F) {c : AggCall F} (notStar : (named c.name "COUNT" && c.isStar) = false) (rs : List JoinCtx) (s : Slot F) :
    (rs.foldl (fun s r => aggAccumulate ev r c s) s).cnt = s.cnt + Int32.ofNat (comesUp c.distinct s.dvals (texts ev c.args rs)).length ∧
      (rs.foldl (fun s r => aggAccumulate ev r c s) s).minStr =
        (if named c.name "COUNT" then s.minStr else champ (lower F) s.minStr (comesUp c.distinct s.dvals (texts ev c.args rs))) ∧
      (rs.foldl (fun s r => aggAccumulate ev r c s) s).maxStr =
        (if named c.name "COUNT" then s.maxStr else champ (higher F) s.maxStr (comesUp c.distinct s.dvals (texts ev c.args rs))) := by
  induction rs generalizing s with
  | nil =>
    have none_ : comesUp c.distinct s.dvals (texts ev c.args []) = [] := by
      rw [comesUp]
      split <;> rfl
    rw [none_]
    refine ⟨(Int32.add_zero _).symm,?_,?_⟩ <;> split <;> rfl
  | cons r rs ih =>
    rw [List.foldl_cons]
    cases is : entry ev c.args r with
    | none =>
      have rest : texts ev c.args (r :: rs) = texts ev c.args rs := List.filterMap_cons_none is
      rw [accumulateNone ev notStar is,rest]
      exact ih s
    | some t =>
      have more : texts ev c.args (r :: rs) = t :: texts ev c.args rs := List.filterMap_cons_some is
      rw [more]
      by_cases old : c.distinct = true ∧ t ∈ s.dvals
      · have same : comesUp c.distinct s.dvals (t :: texts ev c.args rs) = comesUp c.distinct s.dvals (texts ev c.args rs) := by
          rw [comesUp,comesUp,old.1,if_pos rfl,if_pos rfl,fresh,if_pos old.2]
        rw [accumulateSeen ev notStar is old.1 old.2,same]
        exact ih s
      · have new : c.distinct = true → t ∉ s.dvals := fun once mem => old ⟨once,mem⟩
        obtain ⟨cnt,dvals,low,high⟩ := accumulateNew ev notStar is new
        obtain ⟨cnts,lows,highs⟩ := ih (aggAccumulate ev r c s)
        have up : comesUp c.distinct s.dvals (t :: texts ev c.args rs) =
            t :: comesUp c.distinct (aggAccumulate ev r c s).dvals (texts ev c.args rs) := by
          rw [dvals,comesUp,comesUp]
          cases once : c.distinct with
          | false => rfl
          | true => exact if_neg (new once)
        rw [up,cnts,lows,highs,cnt,low,high,List.length_cons,Int32.ofNat_add,Int32.add_assoc,Int32.add_comm 1]
        refine ⟨rfl,?_,?_⟩ <;> split <;> rfl

/-- How many rows an accumulator has counted. -/
def gatheredCount (ev : Evaluator F) (rs : List JoinCtx) (c : AggCall F) : Nat :=
  if named c.name "COUNT" && c.isStar then rs.length else (rounds c.distinct (texts ev c.args rs)).length

/-- The texts among which an accumulator keeps the least and the greatest. -/
def gatheredTexts (ev : Evaluator F) (rs : List JoinCtx) (c : AggCall F) : List Bytes :=
  if named c.name "COUNT" then [] else texts ev c.args rs

theorem gathered (ev : Evaluator F) (c : AggCall F) (rs : List JoinCtx) :
    (rs.foldl (fun s r => aggAccumulate ev r c s) emptySlot).cnt = Int32.ofNat (gatheredCount ev rs c) ∧
      (rs.foldl (fun s r => aggAccumulate ev r c s) emptySlot).minStr = champ (lower F) none (rounds c.distinct (gatheredTexts ev rs c)) ∧
      (rs.foldl (fun s r => aggAccumulate ev r c s) emptySlot).maxStr = champ (higher F) none (rounds c.distinct (gatheredTexts ev rs c)) := by
  cases star : named c.name "COUNT" && c.isStar with
  | false =>
    obtain ⟨cnt,low,high⟩ := accumulateRun ev star rs emptySlot
    rw [cnt,low,high,gatheredCount,star,if_neg Bool.false_ne_true,gatheredTexts]
    refine ⟨Int32.zero_add _,?_,?_⟩ <;> split <;> first | rfl | (cases c.distinct <;> rfl)
  | true =>
    obtain ⟨count,isStar⟩ := Bool.and_eq_true_iff.mp star
    have step : ∀ (r : JoinCtx) (s : Slot F), aggAccumulate ev r c s = {s with cnt := s.cnt + 1} := fun r s => by
      rw [aggAccumulate,if_pos count,if_pos isStar]
    have run : ∀ s : Slot F, rs.foldl (fun s r => aggAccumulate ev r c s) s = {s with cnt := s.cnt + Int32.ofNat rs.length} := by
      induction rs with
      | nil => exact fun s => by rw [List.length_nil]; exact congrArg (fun n => {s with cnt := n}) (Int32.add_zero _).symm
      | cons r rs ih =>
        intro s
        rw [List.foldl_cons,step,ih,List.length_cons,Int32.ofNat_add,Int32.add_comm (Int32.ofNat rs.length),← Int32.add_assoc]
        rfl
    rw [run,gatheredCount,star,if_pos rfl,gatheredTexts,if_pos count]
    refine ⟨Int32.zero_add _,?_,?_⟩ <;> cases c.distinct <;> rfl

/-! ### Groups -/

/-- A group that has seen these rows. -/
def groupFold (ev : Evaluator F) (sel : AggSelect F) (k : Bytes) (rs : List JoinCtx) : Grp F :=
  rs.foldl (fun g r => aggRow ev sel r g) (newGrp sel k)

/-- The aggregate that an accumulator gathers. -/
def accumulated (sel : AggSelect F) (i : Nat) : Option (AggCall F) :=
  match sel.items[i]? with
  | some item => findFirstAgg item
  | none => sel.xagg[i - sel.items.length]?

/-- Where the value of a call comes from: an accumulator, the rows of the group, or no group at all. -/
inductive Source (F : Type) where
  | slot (gathers : Option (AggCall F))
  | total
  | scalar

def sourceOf (sel : AggSelect F) (j : Nat) (item : SqlExpr F) (c : AggCall F) (reached : Bool) : Source F :=
  if exprHasAgg item then
    match slotOf sel (if reached then some j else none) c.name c.args with
    | some i => .slot (accumulated sel i)
    | none => .total
  else .scalar

def Source.count (ev : Evaluator F) (rs : List JoinCtx) : Source F → Nat
  | .slot (some c) => gatheredCount ev rs c
  | .total => rs.length
  | .slot none | .scalar => 0

def Source.texts (ev : Evaluator F) (rs : List JoinCtx) : Source F → List Bytes
  | .slot (some c) => gatheredTexts ev rs c
  | .slot none | .total | .scalar => []

def Source.once : Source F → Bool
  | .slot (some c) => c.distinct
  | .slot none | .total | .scalar => false

/-- The value of a call that stands in an item. -/
def callValue (ev : Evaluator F) (sel : AggSelect F) (g : Grp F) (j : Nat) (item : SqlExpr F) (c : AggCall F) (reached : Bool) : Val F :=
  if exprHasAgg item then groupAgg ev sel g (if reached then some j else none) c.name c.args else scalarAgg c.name

structure CellIs (ev : Evaluator F) (rs : List JoinCtx) (c : AggCall F) (cell : Bytes) : Prop where
  count : named c.name "COUNT" = true → cell = decimal (sqlCount ev rs c)
  least : named c.name "MIN" = true → if texts ev c.args rs = [] then cell = nullSentinel else Least F (texts ev c.args rs) cell
  greatest : named c.name "MAX" = true → if texts ev c.args rs = [] then cell = nullSentinel else Greatest F (texts ev c.args rs) cell

structure ValIs (ev : Evaluator F) (rs : List JoinCtx) (c : AggCall F) (v : Val F) : Prop where
  count : named c.name "COUNT" = true → v = vnum (Doubles.ofInt (sqlCount ev rs c))
  least : named c.name "MIN" = true →
    if texts ev c.args rs = [] then v.isNull = true else v.isNull = false ∧ Least F (texts ev c.args rs) (valStr v)
  greatest : named c.name "MAX" = true →
    if texts ev c.args rs = [] then v.isNull = true else v.isNull = false ∧ Greatest F (texts ev c.args rs) (valStr v)

/-- By itself: one cell in every order of the rows, and it is the value. -/
def PlainRight (ev : Evaluator F) (sel : AggSelect F) (k : Bytes) (rs : List JoinCtx) (j : Nat) (item : SqlExpr F) (c : AggCall F) : Prop :=
  ∃ cell, (∀ rs', rs'.Perm rs → itemCell ev sel (groupFold ev sel k rs') j item = cell) ∧ CellIs ev rs c cell

/-- Inside an expression: one value in every order of the rows, and it is the right one. -/
def WrappedRight (ev : Evaluator F) (sel : AggSelect F) (k : Bytes) (rs : List JoinCtx) (j : Nat) (item : SqlExpr F) (c : AggCall F)
    (reached : Bool) : Prop :=
  ∃ v, (∀ rs', rs'.Perm rs → callValue ev sel (groupFold ev sel k rs') j item c reached = v) ∧ ValIs ev rs c v

/-- COUNT, MIN or MAX. -/
def AggCall.claimed (c : AggCall F) : Prop := named c.name "COUNT" = true ∨ named c.name "MIN" = true ∨ named c.name "MAX" = true

structure AggregatesRight (ev : Evaluator F) (sel : AggSelect F) (rows : List JoinCtx) : Prop where
  oneRow : sel.groupBy = [] → sel.having = none → ∃ cells, selectRows ev sel rows = [cells]
  plain : ∀ k ∈ keysOf ev sel rows, ∀ (j : Nat) (item : SqlExpr F) (c : AggCall F), sel.items[j]? = some item → plainAgg item = some c →
    c.claimed → PlainRight ev sel k (rowsOf ev sel rows k) j item c
  wrapped : ∀ k ∈ keysOf ev sel rows, ∀ (j : Nat) (item : SqlExpr F), sel.items[j]? = some item → plainAgg item = none →
    ∀ (c : AggCall F) (reached : Bool), (c,reached) ∈ aggCalls true item → c.claimed →
      WrappedRight ev sel k (rowsOf ev sel rows k) j item c reached

/-- Fewer than `2^31` are counted; some value beats all others. -/
structure PlainHolds (ev : Evaluator F) (rs : List JoinCtx) (c : AggCall F) : Prop where
  count : named c.name "COUNT" = true → sqlCount ev rs c < 2 ^ 31
  least : named c.name "MIN" = true → ∃ r, Strict (lower F) (texts ev c.args rs) r
  greatest : named c.name "MAX" = true → ∃ r, Strict (higher F) (texts ev c.args rs) r

/-- What the source has gathered gives the same count; it has a value that beats all its others and is the right one,
or neither it nor the call has any. -/
structure WrappedHolds (ev : Evaluator F) (rs : List JoinCtx) (c : AggCall F) (source : Source F) : Prop where
  count : named c.name "COUNT" = true → (Doubles.ofInt (Int32.ofNat (source.count ev rs)).toInt : F) = Doubles.ofInt (sqlCount ev rs c)
  least : named c.name "MIN" = true → source.texts ev rs = [] ∧ texts ev c.args rs = [] ∨
    ∃ r, Strict (lower F) (source.texts ev rs) r ∧ Least F (texts ev c.args rs) r
  greatest : named c.name "MAX" = true → source.texts ev rs = [] ∧ texts ev c.args rs = [] ∨
    ∃ r, Strict (higher F) (source.texts ev rs) r ∧ Greatest F (texts ev c.args rs) r

structure AggregatesHold (ev : Evaluator F) (sel : AggSelect F) (rows : List JoinCtx) : Prop where
  oneRow : sel.groupBy = [] → sel.having = none → kept ev sel rows ≠ []
  plain : ∀ k ∈ keysOf ev sel rows, ∀ (j : Nat) (item : SqlExpr F) (c : AggCall F), sel.items[j]? = some item → plainAgg item = some c →
    c.claimed → PlainHolds ev (rowsOf ev sel rows k) c
  wrapped : ∀ k ∈ keysOf ev sel rows, ∀ (j : Nat) (item : SqlExpr F), sel.items[j]? = some item → plainAgg item = none →
    ∀ (c : AggCall F) (reached : Bool), (c,reached) ∈ aggCalls true item → c.claimed →
      WrappedHolds ev (rowsOf ev sel rows k) c (sourceOf sel j item c reached)

/-! ### One row -/

theorem oneRowIff (ev : Evaluator F) {sel : AggSelect F} (rows : List JoinCtx) (noGroups : sel.groupBy = []) (noHaving : sel.having = none) :
    (∃ cells, selectRows ev sel rows = [cells]) ↔ kept ev sel rows ≠ [] := by
  have key : ∀ r, groupKey ev sel r = [] := fun r => by
    rw [groupKey,groupVals,noGroups]
    rfl
  have emits : ∀ gs : List (Grp F), (emitGroups ev sel gs).length = gs.length := fun gs => by
    have always : ∀ g, ∃ cells, emitGroup ev sel g = some cells := fun g => ⟨_,by rw [emitGroup,noHaving]⟩
    induction gs with
    | nil => rfl
    | cons g gs ih =>
      obtain ⟨cells,is⟩ := always g
      rw [emitGroups,List.filterMap_cons_some is,List.length_cons,List.length_cons]
      exact congrArg Nat.succ ih
  have length : (selectRows ev sel rows).length = (keysOf ev sel rows).length := by
    rw [selectRows,emits,collectAll,groupsAfter,List.length_map]
  have one : (∃ cells, selectRows ev sel rows = [cells]) ↔ (keysOf ev sel rows).length = 1 := by
    rw [← length,List.length_eq_one_iff]
  rw [one]
  constructor
  · intro single none_
    rw [keysOf,none_] at single
    cases single
  · intro some_
    obtain ⟨r,mem⟩ := List.exists_mem_of_ne_nil _ some_
    have inside : [] ∈ keysOf ev sel rows := memKeysOf.mpr ⟨r,mem,key r⟩
    have all : ∀ k ∈ keysOf ev sel rows, k = [] := fun k mem => by
      obtain ⟨r,_,rfl⟩ := memKeysOf.mp mem
      exact key r
    have le : (keysOf ev sel rows).length ≤ 1 := by
      have repeats := List.eq_replicate_iff.mpr ⟨rfl,all⟩
      have nodup := keysNodup ev sel rows
      rw [repeats] at nodup
      exact List.nodup_replicate.mp nodup
    exact Nat.le_antisymm le (List.length_pos_of_mem inside)

/-! ### Values -/

theorem namedApart {n : Bytes} {s t : String} (differ : (ascii s).map tolower ≠ (ascii t).map tolower) (is : named n s = true) :
    named n t = false := by
  cases other : named n t with
  | false => rfl
  | true =>
    have first : n.map tolower = (ascii s).map tolower := strcmpZero (of_decide_eq_true is)
    have second : n.map tolower = (ascii t).map tolower := strcmpZero (of_decide_eq_true other)
    exact absurd (first.symm.trans second) differ

theorem slotUnused (ev : Evaluator F) {item : SqlExpr F} (none_ : findFirstAgg item = none) (rs : List JoinCtx) (t : Slot F) :
    (rs.foldl (fun s r => slotStep ev r item s) t).cnt = t.cnt ∧ (rs.foldl (fun s r => slotStep ev r item s) t).minStr = t.minStr ∧
      (rs.foldl (fun s r => slotStep ev r item s) t).maxStr = t.maxStr := by
  induction rs generalizing t with
  | nil => exact ⟨rfl,rfl,rfl⟩
  | cons r rs ih =>
    have step : (slotStep ev r item t).cnt = t.cnt ∧ (slotStep ev r item t).minStr = t.minStr ∧ (slotStep ev r item t).maxStr = t.maxStr := by
      rw [slotStep,none_]
      dsimp only
      split <;> exact ⟨rfl,rfl,rfl⟩
    obtain ⟨cnt,low,high⟩ := ih (slotStep ev r item t)
    exact ⟨cnt.trans step.1,low.trans step.2.1,high.trans step.2.2⟩

/-- Rows add no accumulators. -/
theorem slotsStay (ev : Evaluator F) (sel : AggSelect F) {i : Nat} (rs : List JoinCtx) (g : Grp F) (le : g.slots.length ≤ i) :
    (rs.foldl (fun g r => aggRow ev sel r g) g).slots.length ≤ i := by
  induction rs generalizing g with
  | nil => exact le
  | cons r rs ih =>
    refine ih _ ?_
    show (List.zipWith (fun f s => f s) (slotSteps ev sel r) g.slots).length ≤ i
    rw [List.length_zipWith]
    omega

/-- What an accumulator holds after the rows. -/
theorem slotGathers (ev : Evaluator F) (sel : AggSelect F) (k : Bytes) (rs : List JoinCtx) (i : Nat) :
    let s := (groupFold ev sel k rs).slots[i]?.getD emptySlot
    let source : Source F := .slot (accumulated sel i)
    s.cnt = Int32.ofNat (source.count ev rs) ∧ s.minStr = champ (lower F) none (rounds source.once (source.texts ev rs)) ∧
      s.maxStr = champ (higher F) none (rounds source.once (source.texts ev rs)) := by
  intro s source
  cases is : sel.items[i]? with
  | some item =>
    have own : s = rs.foldl (fun s r => slotStep ev r item s) emptySlot := by
      show ((groupFold ev sel k rs).slots[i]?).getD emptySlot = _
      rw [groupFold,itemSlot ev is]
      rfl
    cases agg : findFirstAgg item with
    | none =>
      have none_ : source = .slot none := by simp only [source,accumulated,is,agg]
      obtain ⟨cnt,low,high⟩ := slotUnused ev agg rs emptySlot
      rw [own,none_,cnt,low,high]
      exact ⟨rfl,rfl,rfl⟩
    | some c =>
      have some_ : source = .slot (some c) := by simp only [source,accumulated,is,agg]
      have same : (fun (s : Slot F) (r : JoinCtx) => slotStep ev r item s) = fun s r => aggAccumulate ev r c s := by
        funext s r
        rw [slotStep,agg]
      rw [own,some_,same]
      exact gathered ev c rs
  | none =>
    have beyond := List.getElem?_eq_none_iff.mp is
    cases extra : sel.xagg[i - sel.items.length]? with
    | some c =>
      have some_ : source = .slot (some c) := by simp only [source,accumulated,is,extra]
      have less := (List.getElem?_eq_some_iff.mp extra).1
      have own : s = rs.foldl (fun s r => aggAccumulate ev r c s) emptySlot := by
        show ((groupFold ev sel k rs).slots[i]?).getD emptySlot = _
        rw [groupFold,slotRun ev (f := fun r => aggAccumulate ev r c) (fun r => ?_) rs (newSlot sel (by omega) k)]
        · rfl
        · rw [slotSteps,List.getElem?_append_right (by rw [List.length_map]; exact beyond),List.length_map,List.getElem?_map,extra]
          rfl
      rw [own,some_]
      exact gathered ev c rs
    | none =>
      have none_ : source = .slot none := by simp only [source,accumulated,is,extra]
      have length : (newGrp sel k).slots.length ≤ i := by
        have := List.getElem?_eq_none_iff.mp extra
        rw [newGrp,List.length_replicate]
        omega
      have own : s = emptySlot := by
        show ((groupFold ev sel k rs).slots[i]?).getD emptySlot = _
        rw [groupFold,List.getElem?_eq_none_iff.mpr (slotsStay ev sel rs _ length)]
        rfl
      rw [own,none_]
      exact ⟨rfl,rfl,rfl⟩

theorem gatheredSql (ev : Evaluator F) (rs : List JoinCtx) {c : AggCall F} (count : named c.name "COUNT" = true) :
    gatheredCount ev rs c = sqlCount ev rs c := by
  rw [gatheredCount,sqlCount,count,Bool.true_and]
  split
  · rfl
  · rw [rounds]
    split
    · exact freshLength _
    · rfl

theorem textsPerm (ev : Evaluator F) (args : List (SqlExpr F)) {rs rs' : List JoinCtx} (perm : rs'.Perm rs) :
    (texts ev args rs').Perm (texts ev args rs) := perm.filterMap _

theorem gatheredPerm (ev : Evaluator F) (c : AggCall F) {rs rs' : List JoinCtx} (perm : rs'.Perm rs) :
    gatheredCount ev rs' c = gatheredCount ev rs c := by
  rw [gatheredCount,gatheredCount,perm.length_eq,roundsLength (textsPerm ev c.args perm)]

theorem sourcePerm (ev : Evaluator F) (source : Source F) {rs rs' : List JoinCtx} (perm : rs'.Perm rs) :
    source.count ev rs' = source.count ev rs ∧ (source.texts ev rs').Perm (source.texts ev rs) := by
  match source with
  | .slot (some c) =>
    refine ⟨gatheredPerm ev c perm,?_⟩
    show (gatheredTexts ev rs' c).Perm (gatheredTexts ev rs c)
    rw [gatheredTexts,gatheredTexts]
    split
    · exact List.Perm.refl _
    · exact textsPerm ev c.args perm
  | .slot none => exact ⟨rfl,List.Perm.refl _⟩
  | .total => exact ⟨perm.length_eq,List.Perm.refl _⟩
  | .scalar => exact ⟨rfl,List.Perm.refl _⟩

theorem sourceLift (ev : Evaluator F) (source : Source F) {rs : List JoinCtx} {ys : List Bytes} (perm : ys.Perm (source.texts ev rs)) :
    ∃ rs', rs'.Perm rs ∧ source.texts ev rs' = ys := by
  match source with
  | .slot (some c) =>
    change ys.Perm (gatheredTexts ev rs c) at perm
    show ∃ rs', rs'.Perm rs ∧ gatheredTexts ev rs' c = ys
    simp only [gatheredTexts] at perm ⊢
    cases count : named c.name "COUNT" with
    | true =>
      rw [count,if_pos rfl] at perm
      exact ⟨rs,List.Perm.refl _,by rw [if_pos rfl,perm.eq_nil]⟩
    | false =>
      rw [count,if_neg Bool.false_ne_true] at perm
      obtain ⟨rs',order,is⟩ := liftPerm (entry ev c.args) perm rfl
      exact ⟨rs',order,by rw [if_neg Bool.false_ne_true]; exact is⟩
  | .slot none | .total | .scalar => exact ⟨rs,List.Perm.refl _,perm.eq_nil.symm⟩

/-- One text is left in every order just when it beats all others. -/
theorem leftAlways {beats : Bytes → Bytes → Bool} (asymm : ∀ x y, beats x y = true → beats y x = false) (ev : Evaluator F)
    (source : Source F) (rs : List JoinCtx) (r : Bytes) :
    (∀ rs', rs'.Perm rs → champ beats none (rounds source.once (source.texts ev rs')) = some r) ↔ Strict beats (source.texts ev rs) r := by
  constructor
  · refine fun always => @leftStrict _ _ _ asymm source.once _ _ fun ys perm => ?_
    obtain ⟨rs',order,rfl⟩ := sourceLift ev source perm
    exact always rs' order
  · intro strict rs' order
    have perm := (sourcePerm ev source order).2
    exact strictLeft asymm source.once ⟨perm.mem_iff.mpr strict.1,fun y mem => strict.2 y (perm.mem_iff.mp mem)⟩

/-- Nothing is left just where there was nothing. -/
theorem leftNone {beats : Bytes → Bytes → Bool} (ev : Evaluator F) (source : Source F) (rs : List JoinCtx) :
    champ beats none (rounds source.once (source.texts ev rs)) = none ↔ source.texts ev rs = [] := by
  rw [champNone]
  constructor
  · intro none_
    refine List.eq_nil_iff_forall_not_mem.mpr fun x mem => ?_
    have inside : x ∈ rounds source.once (source.texts ev rs) := memRounds.mpr mem
    rw [none_] at inside
    cases inside
  · intro none_
    rw [none_,rounds]
    split <;> rfl

/-! ### By itself -/

theorem lldCount (n : Nat) : lld (Int32.ofNat n).toInt64 = decimal n ↔ n < 2 ^ 31 := by
  have value : (Int32.ofNat n).toInt64.toInt = (Int32.ofNat n).toInt := Int32.toInt_toInt64 _
  obtain ⟨le,same⟩ := int32Nat n
  rw [lld,value]
  constructor
  · intro is
    by_contra large
    have differ : (Int32.ofNat n).toInt ≠ n := fun eq => large (same.mp eq)
    split at is
    · rename_i neg
      have first : (45 : UInt8) ∈ decimal n := is ▸ List.mem_cons_self
      exact absurd (decimalBytes _ _ _ first).1 (by decide)
    · have digits := congrArg (digitsValue 0) is
      rw [decimal,decimal,digitsDecimal (Nat.le_refl _),digitsDecimal (Nat.le_refl _)] at digits
      omega
  · intro small
    have eq := same.mpr small
    rw [eq,if_neg (by omega)]
    rfl

theorem plainCell (ev : Evaluator F) {sel : AggSelect F} {j : Nat} {item : SqlExpr F} {c : AggCall F} (is : sel.items[j]? = some item)
    (plain : plainAgg item = some c) (k : Bytes) (rs : List JoinCtx) :
    (named c.name "COUNT" = true → itemCell ev sel (groupFold ev sel k rs) j item = lld (Int32.ofNat (gatheredCount ev rs c)).toInt64) ∧
      (named c.name "MIN" = true → itemCell ev sel (groupFold ev sel k rs) j item =
        (champ (lower F) none (rounds c.distinct (gatheredTexts ev rs c))).getD []) ∧
      (named c.name "MAX" = true → itemCell ev sel (groupFold ev sel k rs) j item =
        (champ (higher F) none (rounds c.distinct (gatheredTexts ev rs c))).getD []) := by
  obtain ⟨cnt,low,high⟩ := slotGathers ev sel k rs j
  have own : accumulated sel j = some c := by
    rw [accumulated,is]
    exact plainFirst plain
  rw [own] at cnt low high
  have cell : itemCell ev sel (groupFold ev sel k rs) j item = aggCell ev c.name ((groupFold ev sel k rs).slots[j]?.getD emptySlot) := by
    rw [itemCell,plain]
  rw [cell,aggCell]
  refine ⟨fun count => ?_,fun least => ?_,fun greatest => ?_⟩
  · rw [if_pos count,cnt]
    rfl
  · rw [namedApart (t := "COUNT") (by decide) least,namedApart (t := "SUM") (by decide) least,namedApart (t := "AVG") (by decide) least,least]
    simp only [Bool.false_eq_true,if_false,if_true]
    rw [low]
    rfl
  · rw [namedApart (t := "COUNT") (by decide) greatest,namedApart (t := "SUM") (by decide) greatest,
      namedApart (t := "AVG") (by decide) greatest,namedApart (t := "MIN") (by decide) greatest,greatest]
    simp only [Bool.false_eq_true,if_false,if_true]
    rw [high]
    rfl

/-- The least or the greatest by itself: the same cell in every order, which is the value. -/
theorem plainExtreme {beats : Bytes → Bytes → Bool} (asymm : ∀ x y, beats x y = true → beats y x = false) (ev : Evaluator F)
    {Best : List Bytes → Bytes → Prop} (best : ∀ {xs : List Bytes} {r : Bytes}, Strict beats xs r → Best xs r)
    (c : AggCall F) (notCount : named c.name "COUNT" = false) (rs : List JoinCtx) :
    (∃ cell, (∀ rs', rs'.Perm rs → (champ beats none (rounds c.distinct (gatheredTexts ev rs' c))).getD [] = cell) ∧
      if texts ev c.args rs = [] then cell = nullSentinel else Best (texts ev c.args rs) cell) ↔
    ∃ r, Strict beats (texts ev c.args rs) r := by
  have same : ∀ qs, (Source.slot (some c)).texts ev qs = texts ev c.args qs := fun qs => by
    show gatheredTexts ev qs c = _
    rw [gatheredTexts,notCount]
    rfl
  have always := leftAlways asymm ev (.slot (some c)) rs
  rw [same] at always
  constructor
  · rintro ⟨cell,each,right⟩
    by_cases none_ : texts ev c.args rs = []
    · rw [if_pos none_] at right
      have nothing := (@leftNone _ _ beats ev (.slot (some c)) rs).mpr ((same rs).trans none_)
      have empty := each rs (List.Perm.refl rs)
      change (champ beats none (rounds c.distinct (gatheredTexts ev rs c))) = none at nothing
      rw [nothing,right] at empty
      cases empty
    · refine ⟨cell,(always cell).mp fun rs' order => ?_⟩
      have cellIs := each rs' order
      change (champ beats none (rounds (Source.slot (some c)).once ((Source.slot (some c)).texts ev rs'))).getD [] = cell at cellIs
      cases left : champ beats none (rounds (Source.slot (some c)).once ((Source.slot (some c)).texts ev rs')) with
      | none =>
        have nothing := (leftNone ev (.slot (some c)) rs').mp left
        rw [same] at nothing
        have perm := textsPerm ev c.args order
        rw [nothing] at perm
        exact absurd perm.symm.eq_nil none_
      | some r =>
        rw [left] at cellIs
        exact congrArg some cellIs
  · rintro ⟨r,strict⟩
    refine ⟨r,fun rs' order => ?_,?_⟩
    · have left := (always r).mpr strict rs' order
      change champ beats none (rounds c.distinct (gatheredTexts ev rs' c)) = some r at left
      rw [left]
      rfl
    · rw [if_neg (List.ne_nil_of_mem strict.1)]
      exact best strict

/-- The names are different, so only one of three statements is about a call. -/
theorem onlyNamed {n : Bytes} {s : String} (is : named n s = true) {t : String} (differ : (ascii s).map tolower ≠ (ascii t).map tolower)
    {p : Prop} : named n t = true → p := fun other => by
  rw [namedApart differ is] at other
  cases other

theorem plainIff (ieee : Ieee F) (ev : Evaluator F) {sel : AggSelect F} {j : Nat} {item : SqlExpr F} {c : AggCall F}
    (is : sel.items[j]? = some item) (plain : plainAgg item = some c) (k : Bytes) (rs : List JoinCtx) (claimed : c.claimed) :
    PlainRight ev sel k rs j item c ↔ PlainHolds ev rs c := by
  have cells := fun rs' => plainCell ev is plain k rs'
  rcases claimed with count | least | greatest
  · have cell : ∀ rs', rs'.Perm rs → itemCell ev sel (groupFold ev sel k rs') j item = lld (Int32.ofNat (sqlCount ev rs c)).toInt64 :=
      fun rs' order => by rw [(cells rs').1 count,gatheredPerm ev c order,gatheredSql ev rs count]
    constructor
    · rintro ⟨cell',each,right⟩
      refine ⟨fun _ => (lldCount _).mp ?_,onlyNamed count (by decide),onlyNamed count (by decide)⟩
      rw [← cell rs (List.Perm.refl rs),each rs (List.Perm.refl rs)]
      exact right.count count
    · exact fun holds => ⟨_,cell,fun _ => (lldCount _).mpr (holds.count count),onlyNamed count (by decide),onlyNamed count (by decide)⟩
  · have core := plainExtreme (lowerAsymm ieee) ev (fun {xs r} => @strictLeast F _ ieee xs r) c
      (namedApart (by decide) least) rs
    constructor
    · rintro ⟨cell,each,right⟩
      refine ⟨onlyNamed least (by decide),fun _ => core.mp ⟨cell,fun rs' order => ?_,right.least least⟩,onlyNamed least (by decide)⟩
      rw [← (cells rs').2.1 least]
      exact each rs' order
    · intro holds
      obtain ⟨cell,each,right⟩ := core.mpr (holds.least least)
      refine ⟨cell,fun rs' order => ?_,onlyNamed least (by decide),fun _ => right,onlyNamed least (by decide)⟩
      rw [(cells rs').2.1 least]
      exact each rs' order
  · have core := plainExtreme (higherAsymm ieee) ev (fun {xs r} => @strictGreatest F _ ieee xs r) c
      (namedApart (by decide) greatest) rs
    constructor
    · rintro ⟨cell,each,right⟩
      refine ⟨onlyNamed greatest (by decide),onlyNamed greatest (by decide),fun _ => core.mp ⟨cell,fun rs' order => ?_,right.greatest greatest⟩⟩
      rw [← (cells rs').2.2 greatest]
      exact each rs' order
    · intro holds
      obtain ⟨cell,each,right⟩ := core.mpr (holds.greatest greatest)
      refine ⟨cell,fun rs' order => ?_,onlyNamed greatest (by decide),onlyNamed greatest (by decide),fun _ => right⟩
      rw [(cells rs').2.2 greatest]
      exact each rs' order

/-! ### Inside an expression -/

/-- What the evaluator answers for a least or greatest text. -/
def textVal (m : Option Bytes) : Val F :=
  match m with
  | none => vnull
  | some sv => match (pnum (some sv) : Option F) with
    | none => vstrS sv
    | some n => {(vstrS sv : Val F) with isNum := true, num := n}

theorem textValSome (r : Bytes) : (textVal (some r) : Val F).isNull = false ∧ valStr (textVal (some r) : Val F) = r := by
  rw [textVal]
  cases (pnum (some r) : Option F) <;> exact ⟨rfl,rfl⟩

theorem totalRun (ev : Evaluator F) (sel : AggSelect F) (k : Bytes) (rs : List JoinCtx) :
    (groupFold ev sel k rs).totalCnt = Int32.ofNat rs.length := by
  have run : ∀ g : Grp F, (rs.foldl (fun g r => aggRow ev sel r g) g).totalCnt = g.totalCnt + Int32.ofNat rs.length := by
    induction rs with
    | nil => exact fun g => (Int32.add_zero _).symm
    | cons r rs ih =>
      intro g
      have step : (aggRow ev sel r g).totalCnt = g.totalCnt + 1 := rfl
      rw [List.foldl_cons,ih,step,List.length_cons,Int32.ofNat_add,Int32.add_comm (Int32.ofNat rs.length),← Int32.add_assoc]
      rfl
  exact (run _).trans (Int32.zero_add _)

theorem callValueIs (ev : Evaluator F) (sel : AggSelect F) (k : Bytes) (rs : List JoinCtx) (j : Nat) (item : SqlExpr F) (c : AggCall F)
    (reached : Bool) :
    let source := sourceOf sel j item c reached
    (named c.name "COUNT" = true → callValue ev sel (groupFold ev sel k rs) j item c reached =
        vnum (Doubles.ofInt (Int32.ofNat (source.count ev rs)).toInt)) ∧
      (named c.name "MIN" = true → callValue ev sel (groupFold ev sel k rs) j item c reached =
        textVal (champ (lower F) none (rounds source.once (source.texts ev rs)))) ∧
      (named c.name "MAX" = true → callValue ev sel (groupFold ev sel k rs) j item c reached =
        textVal (champ (higher F) none (rounds source.once (source.texts ev rs)))) := by
  intro source
  have scalars : (named c.name "COUNT" = true → scalarAgg c.name = (vnum (Doubles.ofInt 0) : Val F)) ∧
      (named c.name "MIN" = true → scalarAgg c.name = (vnull : Val F)) ∧ (named c.name "MAX" = true → scalarAgg c.name = (vnull : Val F)) := by
    refine ⟨fun is => ?_,fun is => ?_,fun is => ?_⟩
    · rw [scalarAgg,is]
      rfl
    · rw [scalarAgg,namedApart (t := "COUNT") (by decide) is,namedApart (t := "SUM") (by decide) is,namedApart (t := "AVG") (by decide) is]
      rfl
    · rw [scalarAgg,namedApart (t := "COUNT") (by decide) is,namedApart (t := "SUM") (by decide) is,namedApart (t := "AVG") (by decide) is]
      rfl
  cases agg : exprHasAgg item with
  | false =>
    have scalar : source = .scalar := by simp only [source,sourceOf,agg,Bool.false_eq_true,if_false]
    have value : callValue ev sel (groupFold ev sel k rs) j item c reached = scalarAgg c.name := by
      rw [callValue,agg,if_neg Bool.false_ne_true]
    rw [value,scalar]
    exact scalars
  | true =>
    have value : callValue ev sel (groupFold ev sel k rs) j item c reached =
        groupAgg ev sel (groupFold ev sel k rs) (if reached then some j else none) c.name c.args := by
      rw [callValue,agg,if_pos rfl]
    rw [value,groupAgg]
    cases found : slotOf sel (if reached then some j else none) c.name c.args with
    | none =>
      have total : source = .total := by
        simp only [source,sourceOf,agg,if_true]
        rw [found]
      rw [total]
      refine ⟨fun is => ?_,fun is => ?_,fun is => ?_⟩
      · dsimp only
        rw [if_pos is,totalRun]
        rfl
      · dsimp only
        rw [namedApart (t := "COUNT") (by decide) is,if_neg Bool.false_ne_true]
        exact scalars.2.1 is
      · dsimp only
        rw [namedApart (t := "COUNT") (by decide) is,if_neg Bool.false_ne_true]
        exact scalars.2.2 is
    | some i =>
      have slot : source = .slot (accumulated sel i) := by
        simp only [source,sourceOf,agg,if_true]
        rw [found]
      obtain ⟨cnt,low,high⟩ := slotGathers ev sel k rs i
      rw [slot]
      dsimp only
      rw [aggSlotValue]
      refine ⟨fun is => ?_,fun is => ?_,fun is => ?_⟩
      · rw [if_pos is,cnt]
      · rw [namedApart (t := "COUNT") (by decide) is,namedApart (t := "SUM") (by decide) is,namedApart (t := "AVG") (by decide) is,is]
        simp only [Bool.false_eq_true,if_false,if_true]
        rw [low]
        rfl
      · rw [namedApart (t := "COUNT") (by decide) is,namedApart (t := "SUM") (by decide) is,namedApart (t := "AVG") (by decide) is,
          namedApart (t := "MIN") (by decide) is,is]
        simp only [Bool.false_eq_true,if_false,if_true]
        rw [high]
        rfl

/-- The least or the greatest inside an expression. -/
theorem wrappedExtreme {beats : Bytes → Bytes → Bool} (asymm : ∀ x y, beats x y = true → beats y x = false) (ev : Evaluator F)
    (Best : List Bytes → Bytes → Prop) (member : ∀ {xs : List Bytes} {r : Bytes}, Best xs r → r ∈ xs)
    (c : AggCall F) (source : Source F) (rs : List JoinCtx) :
    (∃ v : Val F, (∀ rs', rs'.Perm rs → textVal (champ beats none (rounds source.once (source.texts ev rs'))) = v) ∧
      if texts ev c.args rs = [] then v.isNull = true else v.isNull = false ∧ Best (texts ev c.args rs) (valStr v)) ↔
    (source.texts ev rs = [] ∧ texts ev c.args rs = [] ∨ ∃ r, Strict beats (source.texts ev rs) r ∧ Best (texts ev c.args rs) r) := by
  constructor
  · rintro ⟨v,each,right⟩
    cases left : champ beats none (rounds source.once (source.texts ev rs)) with
    | none =>
      have value := each rs (List.Perm.refl rs)
      rw [left] at value
      have null : v.isNull = true := value ▸ rfl
      refine .inl ⟨(leftNone ev source rs).mp left,?_⟩
      by_contra some_
      rw [if_neg some_,null] at right
      cases right.1
    | some r =>
      have value := each rs (List.Perm.refl rs)
      rw [left] at value
      obtain ⟨solid,text⟩ := @textValSome F _ r
      rw [value] at solid text
      by_cases none_ : texts ev c.args rs = []
      · rw [if_pos none_,solid] at right
        cases right
      · rw [if_neg none_,text] at right
        refine .inr ⟨r,(leftAlways asymm ev source rs r).mp fun rs' order => ?_,right.2⟩
        have again := each rs' order
        cases other : champ beats none (rounds source.once (source.texts ev rs')) with
        | none =>
          rw [other] at again
          have null : v.isNull = true := again ▸ rfl
          rw [null] at solid
          cases solid
        | some r' =>
          obtain ⟨_,text'⟩ := @textValSome F _ r'
          rw [other] at again
          rw [again,text] at text'
          rw [text']
  · rintro (⟨none_,empty⟩ | ⟨r,strict,best⟩)
    · refine ⟨vnull,fun rs' order => ?_,by rw [if_pos empty]; rfl⟩
      have perm := (sourcePerm ev source order).2
      rw [none_] at perm
      rw [(leftNone ev source rs').mpr perm.eq_nil]
      rfl
    · obtain ⟨solid,text⟩ := @textValSome F _ r
      refine ⟨textVal (some r),fun rs' order => by rw [(leftAlways asymm ev source rs r).mpr strict rs' order],?_⟩
      rw [if_neg (List.ne_nil_of_mem (member best)),text]
      exact ⟨solid,best⟩

theorem wrappedIff (ieee : Ieee F) (ev : Evaluator F) (sel : AggSelect F) (k : Bytes) (rs : List JoinCtx) (j : Nat) (item : SqlExpr F)
    (c : AggCall F) (reached : Bool) (claimed : c.claimed) :
    WrappedRight ev sel k rs j item c reached ↔ WrappedHolds ev rs c (sourceOf sel j item c reached) := by
  have values := fun rs' => callValueIs ev sel k rs' j item c reached
  rcases claimed with count | least | greatest
  · constructor
    · rintro ⟨v,each,right⟩
      refine ⟨fun _ => ?_,onlyNamed count (by decide),onlyNamed count (by decide)⟩
      have value := each rs (List.Perm.refl rs)
      rw [(values rs).1 count,right.count count] at value
      exact congrArg Val.num value
    · intro holds
      refine ⟨_,fun rs' order => ?_,fun _ => rfl,onlyNamed count (by decide),onlyNamed count (by decide)⟩
      rw [(values rs').1 count,(sourcePerm ev _ order).1,holds.count count]
  · have core := wrappedExtreme (lowerAsymm ieee) ev (Least F) (fun best => best.1) c (sourceOf sel j item c reached) rs
    constructor
    · rintro ⟨v,each,right⟩
      refine ⟨onlyNamed least (by decide),fun _ => core.mp ⟨v,fun rs' order => ?_,right.least least⟩,onlyNamed least (by decide)⟩
      rw [← (values rs').2.1 least]
      exact each rs' order
    · intro holds
      obtain ⟨v,each,right⟩ := core.mpr (holds.least least)
      refine ⟨v,fun rs' order => ?_,onlyNamed least (by decide),fun _ => right,onlyNamed least (by decide)⟩
      rw [(values rs').2.1 least]
      exact each rs' order
  · have core := wrappedExtreme (higherAsymm ieee) ev (Greatest F) (fun best => best.1) c (sourceOf sel j item c reached) rs
    constructor
    · rintro ⟨v,each,right⟩
      refine ⟨onlyNamed greatest (by decide),onlyNamed greatest (by decide),fun _ => core.mp ⟨v,fun rs' order => ?_,right.greatest greatest⟩⟩
      rw [← (values rs').2.2 greatest]
      exact each rs' order
    · intro holds
      obtain ⟨v,each,right⟩ := core.mpr (holds.greatest greatest)
      refine ⟨v,fun rs' order => ?_,onlyNamed greatest (by decide),onlyNamed greatest (by decide),fun _ => right⟩
      rw [(values rs').2.2 greatest]
      exact each rs' order

/-- Aggregates give their values, in every order of the rows and in every place, exactly then. -/
theorem aggregatesIff (ieee : Ieee F) (ev : Evaluator F) (sel : AggSelect F) (rows : List JoinCtx) :
    AggregatesRight ev sel rows ↔ AggregatesHold ev sel rows := by
  constructor
  · intro right
    refine ⟨fun noGroups noHaving => (oneRowIff ev rows noGroups noHaving).mp (right.oneRow noGroups noHaving),?_,?_⟩
    · exact fun k mem j item c is plain claimed => (plainIff ieee ev is plain k _ claimed).mp (right.plain k mem j item c is plain claimed)
    · exact fun k mem j item is plain c reached inside claimed =>
        (wrappedIff ieee ev sel k _ j item c reached claimed).mp (right.wrapped k mem j item is plain c reached inside claimed)
  · intro holds
    refine ⟨fun noGroups noHaving => (oneRowIff ev rows noGroups noHaving).mpr (holds.oneRow noGroups noHaving),?_,?_⟩
    · exact fun k mem j item c is plain claimed => (plainIff ieee ev is plain k _ claimed).mpr (holds.plain k mem j item c is plain claimed)
    · exact fun k mem j item is plain c reached inside claimed =>
        (wrappedIff ieee ev sel k _ j item c reached claimed).mpr (holds.wrapped k mem j item is plain c reached inside claimed)

end

/-! ### One column -/

def columnA : SqlExpr Int := .col none (ascii "a")

def countA : AggCall Int := ⟨ascii "COUNT",[columnA],false⟩

def minA : AggCall Int := ⟨ascii "MIN",[columnA],false⟩

def maxA : AggCall Int := ⟨ascii "MAX",[columnA],false⟩

def AggCall.expr (c : AggCall Int) : SqlExpr Int := .func c.name c.args c.distinct

/-- `SELECT` of these items without GROUP BY. -/
def selectOf (items : List (SqlExpr Int)) : AggSelect Int := ⟨items,none,[],none,[]⟩

/-- `SELECT MIN(a), COUNT(a) + 1` over `7` and `12`. -/
theorem twoNumbers : AggregatesRight plainEvaluator (selectOf [minA.expr,.binop .add countA.expr (.int 1 none)]) [oneColumn [55],oneColumn [49,50]] := by
  refine (aggregatesIff ieeeInt plainEvaluator _ _).mpr ⟨fun _ _ => List.cons_ne_nil _ _,fun k mem j item c is plain _ => ?_,
    fun k mem j item is plain c reached inside _ => ?_⟩
  · have only : k = [] := List.mem_singleton.mp mem
    subst only
    match j, is with
    | 0, is =>
      cases is
      cases plain
      exact ⟨onlyNamed (s := "MIN") rfl (by decide),fun _ => ⟨[55],by decide,by decide⟩,onlyNamed (s := "MIN") rfl (by decide)⟩
    | 1, is =>
      cases is
      cases plain
  · have only : k = [] := List.mem_singleton.mp mem
    subst only
    match j, is with
    | 0, is =>
      cases is
      cases plain
    | 1, is =>
      cases is
      have own : (c,reached) = (countA,true) := List.mem_singleton.mp inside
      cases own
      exact ⟨fun _ => by decide,onlyNamed (s := "COUNT") rfl (by decide),onlyNamed (s := "COUNT") rfl (by decide)⟩

/-- No row without rows; no NULL for the least of none; a least that depends on the order; `COUNT(a) + MAX(a)` without a greatest. -/
theorem aggregatesMiss : ¬AggregatesRight plainEvaluator (selectOf [countA.expr]) [] ∧
    selectRows plainEvaluator (selectOf [minA.expr]) [oneColumn nullSentinel] = [[[]]] ∧
    selectRows plainEvaluator (selectOf [minA.expr]) [oneColumn [57],oneColumn [49,48],oneColumn [53,120]] = [[[53,120]]] ∧
    selectRows plainEvaluator (selectOf [minA.expr]) [oneColumn [53,120],oneColumn [57],oneColumn [49,48]] = [[[49,48]]] ∧
    (callValue plainEvaluator (selectOf [.binop .add countA.expr maxA.expr])
      (groupFold plainEvaluator (selectOf [.binop .add countA.expr maxA.expr]) [] [oneColumn [55]]) 0 (.binop .add countA.expr maxA.expr)
      maxA true).isNull = true := by
  refine ⟨fun right => ?_,by decide,by decide,by decide,by decide⟩
  obtain ⟨cells,is⟩ := right.oneRow rfl rfl
  cases is

end Napastak.Grouping
