import Napastak.Exec
import Napastak.Decimal

/-! Aggregation of a SELECT in `api.c`: groups found by their key, an accumulator for each item of the select
list, and the row each group gives. -/
namespace Napastak.Grouping
open Query Access

variable {F : Type}

def aggNames : List Bytes := [ascii "COUNT",ascii "SUM",ascii "AVG",ascii "MIN",ascii "MAX"]

def isAggName (name : Bytes) : Bool := aggNames.any fun n => strcasecmp name n = 0

/-- The name of the function, whatever the case of its letters. -/
def named (name : Bytes) (s : String) : Bool := strcasecmp name (ascii s) = 0

/-- A call of an aggregate function. -/
structure AggCall (F : Type) where
  name : Bytes
  args : List (SqlExpr F)
  distinct : Bool

/-! ### Aggregates in an expression -/

/-- WHEN and THEN of each arm in turn. -/
def arms {α : Type} : List (Option α) → List (Option α) → Option α
  | w :: ws, t :: ts => (w.or t).or (arms ws ts)
  | _, _ => none

mutual
/-- The first aggregate call, depth first. The bounds of BETWEEN are operands; the list of IN is not walked. -/
def findFirstAgg : SqlExpr F → Option (AggCall F)
  | .func name args distinct => if isAggName name then some ⟨name,args,distinct⟩ else findFirstArg args
  | .binop _ l r => (findFirstAgg l).or (findFirstAgg r)
  | .unop _ e => findFirstAgg e
  | .between _ e lo hi => (findFirstAgg e).or ((findFirstAgg lo).or (findFirstAgg hi))
  | .inList _ e _ => findFirstAgg e
  | .node n => findFirstNode n
  | .col .. | .star | .int .. | .float _ | .str _ | .null | .bool _ => none

def findFirstArg : List (SqlExpr F) → Option (AggCall F)
  | [] => none
  | e :: es => (findFirstAgg e).or (findFirstArg es)

def findFirstEach : List (SqlExpr F) → List (Option (AggCall F))
  | [] => []
  | e :: es => findFirstAgg e :: findFirstEach es

def findFirstNode : Node F → Option (AggCall F)
  | .case _ whens thens none => arms (findFirstEach whens) (findFirstEach thens)
  | .case _ whens thens (some e) => (arms (findFirstEach whens) (findFirstEach thens)).or (findFirstAgg e)
  | .inSubquery _ left _ => findFirstAgg left
  | .subquery _ | .window _ => none
end

/-- The same walk. -/
def exprHasAgg (e : SqlExpr F) : Bool := (findFirstAgg e).isSome

mutual
/-- Every aggregate call, and whether the walk above comes to it. -/
def aggCalls (reached : Bool) : SqlExpr F → List (AggCall F × Bool)
  | .func name args distinct => if isAggName name then [(⟨name,args,distinct⟩,reached)] else argCalls reached args
  | .binop _ l r => aggCalls reached l ++ aggCalls reached r
  | .unop _ e => aggCalls reached e
  | .between _ e lo hi => aggCalls reached e ++ aggCalls reached lo ++ aggCalls reached hi
  | .inList _ e items => aggCalls reached e ++ argCalls false items
  | .node n => nodeCalls reached n
  | .col .. | .star | .int .. | .float _ | .str _ | .null | .bool _ => []

def argCalls (reached : Bool) : List (SqlExpr F) → List (AggCall F × Bool)
  | [] => []
  | e :: es => aggCalls reached e ++ argCalls reached es

/-- The operand of a CASE is not walked either. -/
def nodeCalls (reached : Bool) : Node F → List (AggCall F × Bool)
  | .case none whens thens none => argCalls reached whens ++ argCalls reached thens
  | .case none whens thens (some e) => argCalls reached whens ++ argCalls reached thens ++ aggCalls reached e
  | .case (some o) whens thens none => aggCalls false o ++ argCalls reached whens ++ argCalls reached thens
  | .case (some o) whens thens (some e) => aggCalls false o ++ argCalls reached whens ++ argCalls reached thens ++ aggCalls reached e
  | .inSubquery _ left _ => aggCalls reached left
  | .subquery _ | .window _ => []
end

section
variable {X : Type} [Doubles F]

mutual
/-- The same tree; CASE, lists and statements are never the same as another. -/
def exprEqual : Expr F X → Expr F X → Bool
  | .col t n, .col t' n' => strcasecmp n n' = 0 && (match t, t' with
      | none, none => true
      | some t, some t' => strcasecmp t t' = 0
      | _, _ => false)
  | .star, .star => true
  | .null, .null => true
  | .int i _, .int j _ => i = j
  | .float x, .float y => Doubles.eq x y
  | .str s, .str t => s = t
  | .bool a, .bool b => a = b
  | .func n args d, .func n' args' d' => strcasecmp n n' = 0 && d = d' && exprsEqual args args'
  | .binop op l r, .binop op' l' r' => op = op' && exprEqual l l' && exprEqual r r'
  | .unop op e, .unop op' e' => op = op' && exprEqual e e'
  | .between neg e lo hi, .between neg' e' lo' hi' => neg = neg' && exprEqual e e' && exprEqual lo lo' && exprEqual hi hi'
  | _, _ => false

def exprsEqual : List (Expr F X) → List (Expr F X) → Bool
  | [], [] => true
  | e :: es, e' :: es' => exprEqual e e' && exprsEqual es es'
  | _, _ => false
end

end

section
variable [Doubles F]

mutual
/-- Whether the tree holds a call of that aggregate on the same arguments. -/
def exprFindAggArgs (fn : Bytes) (callArgs : List (SqlExpr F)) : SqlExpr F → Bool
  | .func name args _ =>
    (strcasecmp name fn = 0 && isAggName fn && exprsEqual args callArgs) || argsFindAggArgs fn callArgs args
  | .binop _ l r => exprFindAggArgs fn callArgs l || exprFindAggArgs fn callArgs r
  | .unop _ e => exprFindAggArgs fn callArgs e
  | .between _ e lo hi => exprFindAggArgs fn callArgs e || exprFindAggArgs fn callArgs lo || exprFindAggArgs fn callArgs hi
  | .inList _ e _ => exprFindAggArgs fn callArgs e
  | .node n => nodeFindAggArgs fn callArgs n
  | .col .. | .star | .int .. | .float _ | .str _ | .null | .bool _ => false

def argsFindAggArgs (fn : Bytes) (callArgs : List (SqlExpr F)) : List (SqlExpr F) → Bool
  | [] => false
  | e :: es => exprFindAggArgs fn callArgs e || argsFindAggArgs fn callArgs es

def nodeFindAggArgs (fn : Bytes) (callArgs : List (SqlExpr F)) : Node F → Bool
  | .case _ whens thens none => argsFindAggArgs fn callArgs whens || argsFindAggArgs fn callArgs thens
  | .case _ whens thens (some e) => argsFindAggArgs fn callArgs whens || argsFindAggArgs fn callArgs thens || exprFindAggArgs fn callArgs e
  | .inSubquery _ left _ => exprFindAggArgs fn callArgs left
  | .subquery _ | .window _ => false
end

/-! ### Accumulators -/

/-- What one item of the select list, or one aggregate of HAVING and ORDER BY, has gathered in a group. -/
structure Slot (F : Type) where
  sum : F
  cnt : Int32
  firstStr : Option Bytes
  minStr : Option Bytes
  maxStr : Option Bytes
  dvals : List Bytes
  deriving DecidableEq

structure Grp (F : Type) where
  key : Bytes
  totalCnt : Int32
  slots : List (Slot F)

/-- The evaluator outside the aggregates, which calls back for them, and the arithmetic of sums. -/
structure Evaluator (F : Type) where
  env : (Bytes → List (SqlExpr F) → Val F) → Env F (Node F)
  add : F → F → F
  div : F → Int → F
  dblFmt : F → Bytes

/-- The parts of a SELECT that aggregation reads: `having` is what HAVING says of a group and its cells, `xagg` the
aggregates that only HAVING and ORDER BY have. -/
structure AggSelect (F : Type) where
  items : List (SqlExpr F)
  where_ : Option (SqlExpr F)
  groupBy : List (SqlExpr F)
  having : Option (Grp F → List Bytes → Bool)
  xagg : List (AggCall F)

def Evaluator.calling (ev : Evaluator F) (agg : Bytes → List (SqlExpr F) → Val F) : Env F (Node F) :=
  {ev.env agg with func := fun name distinct args ctx => if isAggName name then agg name args else (ev.env agg).func name distinct args ctx}

/-- An aggregate call where no group is being emitted. -/
def scalarAgg (name : Bytes) : Val F :=
  if named name "COUNT" || named name "SUM" || named name "AVG" then vnum (Doubles.ofInt 0) else vnull

/-- The environment of a row. -/
def Evaluator.row (ev : Evaluator F) : Env F (Node F) := ev.calling fun name _ => scalarAgg name

/-- Numeric where both are numbers, else byte by byte. -/
def aggValCmp (F : Type) [Doubles F] (a b : Bytes) : Int :=
  match (pnum (some a) : Option F), (pnum (some b) : Option F) with
  | some x, some y => numCmp x y
  | _, _ => strcmp a b

/-- The slot with a new value recorded, or nothing where the value has been before. -/
def aggDistinctFirstSeen (s : Slot F) (sv : Bytes) : Option (Slot F) :=
  if sv ∈ s.dvals then none else some {s with dvals := s.dvals ++ [sv]}

def argVal (ev : Evaluator F) (ctx : JoinCtx) : List (SqlExpr F) → Val F
  | [] => vnull
  | e :: _ => evalVal ev.row (some ctx) e

def AggCall.isStar (c : AggCall F) : Bool :=
  match c.args with
  | .star :: _ => true
  | _ => false

/-- The slot a value that is not NULL goes into. -/
def AggCall.admits (c : AggCall F) (s : Slot F) (v : Val F) : Option (Slot F) :=
  if v.isNull then none else if c.distinct then aggDistinctFirstSeen s (valStr v) else some s

def aggAccumulate (ev : Evaluator F) (ctx : JoinCtx) (c : AggCall F) (s : Slot F) : Slot F :=
  if named c.name "COUNT" then
    if c.isStar then {s with cnt := s.cnt + 1}
    else
      match c.admits s (argVal ev ctx c.args) with
      | none => s
      | some s => {s with cnt := s.cnt + 1}
  else
    let v := argVal ev ctx c.args
    match c.admits s v with
    | none => s
    | some s =>
      let sv := valStr v
      let n := if v.isNum then v.num else ((pnum (some sv) : Option F).getD v.num)
      {s with
        sum := ev.add s.sum n
        cnt := s.cnt + 1
        minStr := match s.minStr with
          | none => some sv
          | some m => if aggValCmp F sv m < 0 then some sv else some m
        maxStr := match s.maxStr with
          | none => some sv
          | some m => if aggValCmp F sv m > 0 then some sv else some m}

/-- An item gathers its first aggregate, or keeps its first value. -/
def slotStep (ev : Evaluator F) (ctx : JoinCtx) (item : SqlExpr F) (s : Slot F) : Slot F :=
  match findFirstAgg item with
  | some c => aggAccumulate ev ctx c s
  | none => if s.firstStr.isSome then s else {s with firstStr := some (valStr (evalVal ev.row (some ctx) item))}

/-- What the row does to each slot. -/
def slotSteps (ev : Evaluator F) (sel : AggSelect F) (ctx : JoinCtx) : List (Slot F → Slot F) :=
  sel.items.map (slotStep ev ctx) ++ sel.xagg.map (aggAccumulate ev ctx)

def aggRow (ev : Evaluator F) (sel : AggSelect F) (ctx : JoinCtx) (g : Grp F) : Grp F :=
  {g with totalCnt := g.totalCnt + 1, slots := List.zipWith (fun f s => f s) (slotSteps ev sel ctx) g.slots}

def emptySlot : Slot F := ⟨Doubles.zero,0,none,none,none,[]⟩

def newGrp (sel : AggSelect F) (key : Bytes) : Grp F := ⟨key,0,List.replicate (sel.items.length + sel.xagg.length) emptySlot⟩

/-- The group of that key and where it stands; a new one comes last. -/
def findOrCreateGrp (sel : AggSelect F) (grps : List (Grp F)) (key : Bytes) : List (Grp F) × Nat :=
  match grps.findIdx? fun g => g.key = key with
  | some i => (grps,i)
  | none => (grps ++ [newGrp sel key],grps.length)

/-- `strncat` into `kbuf[4096]`. -/
def kbufCat (kbuf s : Bytes) : Bytes := kbuf ++ s.take (4096 - kbuf.length - 1)

def keyFrom (kbuf : Bytes) (first : Bool) : List (Val F) → Bytes
  | [] => kbuf
  | v :: vs => keyFrom (kbufCat (if first then kbuf else kbufCat kbuf [31]) (valStr v)) false vs

/-- The values of GROUP BY on a row. -/
def groupVals (ev : Evaluator F) (sel : AggSelect F) (ctx : JoinCtx) : List (Val F) := sel.groupBy.map (evalVal ev.row (some ctx))

def groupKey (ev : Evaluator F) (sel : AggSelect F) (ctx : JoinCtx) : Bytes := keyFrom [] true (groupVals ev sel ctx)

/-- A row and the group it falls in; a row that does not pass WHERE falls in none. -/
def collectRow (ev : Evaluator F) (sel : AggSelect F) (grps : List (Grp F)) (ctx : JoinCtx) : List (Grp F) × Option Nat :=
  if passes ev.row ctx sel.where_ then
    let (grps,i) := findOrCreateGrp sel grps (groupKey ev sel ctx)
    (grps.modify i (aggRow ev sel ctx),some i)
  else (grps,none)

/-- All rows in turn: the groups at the end, and the group of each row. -/
def collectRows (ev : Evaluator F) (sel : AggSelect F) (grps : List (Grp F)) : List JoinCtx → List (Grp F) × List (Option Nat)
  | [] => (grps,[])
  | ctx :: rows =>
    let (grps,i) := collectRow ev sel grps ctx
    let (grps,is) := collectRows ev sel grps rows
    (grps,i :: is)

/-! ### Rows of the result -/

def aggSlotValue (ev : Evaluator F) (s : Slot F) (fn : Bytes) : Val F :=
  let text : Option Bytes → Val F := fun
    | none => vnull
    | some sv => match (pnum (some sv) : Option F) with
      | none => vstrS sv
      | some n => {(vstrS sv : Val F) with isNum := true, num := n}
  if named fn "COUNT" then vnum (Doubles.ofInt s.cnt.toInt)
  else if named fn "SUM" then vnum s.sum
  else if named fn "AVG" then vnum (if s.cnt ≠ 0 then ev.div s.sum s.cnt.toInt else Doubles.zero)
  else if named fn "MIN" then text s.minStr
  else if named fn "MAX" then text s.maxStr
  else vnull

/-- The slot that answers a call: that of the item the call itself stands in, or an earlier one with the same
aggregate on the same arguments. -/
def slotOf (sel : AggSelect F) (own : Option Nat) (fn : Bytes) (args : List (SqlExpr F)) : Option Nat :=
  (sel.items.zipIdx.findIdx? fun (e,i) => own = some i || exprFindAggArgs fn args e).or
    ((sel.xagg.findIdx? fun c => exprFindAggArgs fn args (.func c.name c.args c.distinct)).map (sel.items.length + ·))

/-- The aggregate branch of `eval_func` while a group is emitted. -/
def groupAgg (ev : Evaluator F) (sel : AggSelect F) (g : Grp F) (own : Option Nat) (fn : Bytes) (args : List (SqlExpr F)) : Val F :=
  match slotOf sel own fn args with
  | some i => aggSlotValue ev (g.slots[i]?.getD emptySlot) fn
  | none => if named fn "COUNT" then vnum (Doubles.ofInt g.totalCnt.toInt) else scalarAgg fn

def valCell (v : Val F) : Bytes := if v.isNull then nullSentinel else valStr v

/-- An item that is an aggregate itself. -/
def plainAgg : SqlExpr F → Option (AggCall F)
  | .func name args distinct => if isAggName name then some ⟨name,args,distinct⟩ else none
  | _ => none

def aggCell (ev : Evaluator F) (fn : Bytes) (s : Slot F) : Bytes :=
  if named fn "COUNT" then lld s.cnt.toInt64
  else if named fn "SUM" then ev.dblFmt s.sum
  else if named fn "AVG" then if s.cnt ≠ 0 then ev.dblFmt (ev.div s.sum s.cnt.toInt) else []
  else if named fn "MIN" then s.minStr.getD []
  else if named fn "MAX" then s.maxStr.getD []
  else []

def itemCell (ev : Evaluator F) (sel : AggSelect F) (g : Grp F) (j : Nat) (item : SqlExpr F) : Bytes :=
  let s := g.slots[j]?.getD emptySlot
  match plainAgg item with
  | some c => aggCell ev c.name s
  | none =>
    if exprHasAgg item then valCell (evalVal (ev.calling (groupAgg ev sel g (some j))) (some []) item)
    else s.firstStr.getD []

/-- The cells of a group, unless HAVING leaves it out. -/
def emitGroup (ev : Evaluator F) (sel : AggSelect F) (g : Grp F) : Option (List Bytes) :=
  let cells := sel.items.zipIdx.map fun (item,j) => itemCell ev sel g j item
  match sel.having with
  | none => some cells
  | some h => if h g cells then some cells else none

def emitGroups (ev : Evaluator F) (sel : AggSelect F) (grps : List (Grp F)) : List (List Bytes) := grps.filterMap (emitGroup ev sel)

/-- The rows of an aggregating SELECT. -/
def selectRows (ev : Evaluator F) (sel : AggSelect F) (rows : List JoinCtx) : List (List Bytes) :=
  emitGroups ev sel (collectRows ev sel [] rows).1

end

end Napastak.Grouping
