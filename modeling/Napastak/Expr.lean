import Napastak.Val

/-! Expression trees of the SQL engine and their evaluation on a row. IN and BETWEEN
carry their list and bounds, so an operand of the wrong shape cannot be built. -/
namespace Napastak.Query

inductive BinOp where
  | eq | ne | lt | le | gt | ge
  | and | or
  | add | sub | mul | div | mod | concat
  | like | ilike | notLike | notIlike
  deriving DecidableEq, Repr

inductive UnOp where
  | not | neg | isNull | isNotNull
  deriving DecidableEq, Repr

/-- `node` stands for the trees with statements inside (CASE, subqueries, windows). -/
inductive Expr (F X : Type) where
  | col (table : Option Bytes) (name : Bytes)
  | star
  | int (ival : Int) (litstr : Option Bytes)
  | float (fval : F)
  | str (sval : Bytes)
  | null
  | bool (bval : Bool)
  | func (name : Bytes) (args : List (Expr F X)) (distinct : Bool)
  | binop (op : BinOp) (left right : Expr F X)
  | unop (op : UnOp) (left : Expr F X)
  | between (neg : Bool) (left low high : Expr F X)
  | inList (neg : Bool) (left : Expr F X) (items : List (Expr F X))
  | node (x : X)

/-- A cell pointer: NULL or a text. -/
abbrev Cell := Option Bytes

/-- One table of the join context; `row` is absent for an outer-join row of NULLs. -/
structure JoinTable where
  cols : Option (List Bytes)
  row : Option (List Cell)
  tname : Option Bytes
  alias_ : Option Bytes

abbrev JoinCtx := List JoinTable

def JoinTable.named (t : JoinTable) (tbl : Option Bytes) : Bool :=
  match tbl with
  | none | some [] => true
  | some q => (t.tname.any fun n => strcasecmp q n = 0) || (t.alias_.any fun n => strcasecmp q n = 0)

/-- The cell under the column of that name, where the table has a row and such a column. -/
def JoinTable.cell (t : JoinTable) (col : Bytes) : Option Cell :=
  match t.cols, t.row with
  | some cols, some row => (cols.findIdx? fun n => strcasecmp n col = 0).map fun c => (row[c]?).getD none
  | _, _ => none

def jctxCol (ctx : Option JoinCtx) (tbl : Option Bytes) (col : Bytes) : Cell :=
  match ctx with
  | none => none
  | some ts => (ts.findSome? fun t => if t.named tbl then t.cell col else none).getD none

/-- What the evaluator calls outside the trees of this module: the row of the enclosing query, scalar
and aggregate functions, arithmetic and the remaining nodes. -/
structure Env (F X : Type) where
  outer : Option JoinCtx
  func : Bytes → Bool → List (Expr F X) → Option JoinCtx → Val F
  arith : BinOp → Val F → Val F → Val F
  neg : Val F → Val F
  node : X → Option JoinCtx → Val F

section
variable {F X : Type} [Doubles F]

def cellVal (s : Bytes) : Val F :=
  if s = nullSentinel then vnull
  else
    let v : Val F := vstrS s
    let v := match (pnum (some s) : Option F) with
      | none => v
      | some n => {v with isNum := true, num := n}
    if strcasecmp s (ascii "true") = 0 then {v with isBool := true, b := true}
    else if strcasecmp s (ascii "false") = 0 then {v with isBool := true, b := false}
    else v

def colVal (env : Env F X) (ctx : Option JoinCtx) (table : Option Bytes) (name : Bytes) : Val F :=
  match ctx with
  | none => vnull
  | some _ =>
    match (jctxCol ctx table name).or (jctxCol env.outer table name) with
    | none => vnull
    | some s => cellVal s

mutual
def evalVal (env : Env F X) (ctx : Option JoinCtx) : Expr F X → Val F
  | .col table name => colVal env ctx table name
  | .star => vstrS (ascii "*")
  | .int ival litstr => {(vnum (Doubles.ofInt ival) : Val F) with str := litstr}
  | .float fval => vnum fval
  | .str sval => vstrS sval
  | .null => vnull
  | .bool bval => vbool bval
  | .func name args distinct => env.func name distinct args ctx
  | .unop .isNull e => vbool (evalVal env ctx e).isNull
  | .unop .isNotNull e => vbool (!(evalVal env ctx e).isNull)
  | .unop .not e => vbool (!vt (evalVal env ctx e))
  | .unop .neg e => env.neg (evalVal env ctx e)
  | .binop op l r =>
    let L := evalVal env ctx l
    let R := evalVal env ctx r
    match op with
    | .and => if !vt L then vbool false else vbool (vt R)
    | .or => if vt L then vbool true else vbool (vt R)
    | .eq => vbool (veq L R)
    | .ne => vbool (!veq L R)
    | .lt => vbool (vcmp L R < 0)
    | .le => vbool (vcmp L R ≤ 0)
    | .gt => vbool (vcmp L R > 0)
    | .ge => vbool (vcmp L R ≥ 0)
    | .like => if L.isNull || R.isNull then vbool false else vbool (likeMatch (valStr L) (valStr R) false)
    | .ilike => if L.isNull || R.isNull then vbool false else vbool (likeMatch (valStr L) (valStr R) true)
    | .notLike => if L.isNull || R.isNull then vbool false else vbool (!likeMatch (valStr L) (valStr R) false)
    | .notIlike => if L.isNull || R.isNull then vbool false else vbool (!likeMatch (valStr L) (valStr R) true)
    | op => env.arith op L R
  | .between neg e lo hi =>
    let L := evalVal env ctx e
    if L.isNull then vbool false
    else
      let lo := evalVal env ctx lo
      let hi := evalVal env ctx hi
      if neg then vbool (vcmp L lo < 0 || vcmp L hi > 0) else vbool (vcmp L lo ≥ 0 && vcmp L hi ≤ 0)
  | .inList neg e items =>
    let L := evalVal env ctx e
    let found := (evalItems env ctx items).any fun iv => veq L iv
    vbool (if neg then !found else found)
  | .node x => env.node x ctx

def evalItems (env : Env F X) (ctx : Option JoinCtx) : List (Expr F X) → List (Val F)
  | [] => []
  | e :: es => evalVal env ctx e :: evalItems env ctx es
end

theorem vtAnd (env : Env F X) (ctx : Option JoinCtx) (l r : Expr F X) :
    vt (evalVal env ctx (.binop .and l r)) = (vt (evalVal env ctx l) && vt (evalVal env ctx r)) := by
  simp only [evalVal]
  cases vt (evalVal env ctx l) <;> simp

theorem vtOr (env : Env F X) (ctx : Option JoinCtx) (l r : Expr F X) :
    vt (evalVal env ctx (.binop .or l r)) = (vt (evalVal env ctx l) || vt (evalVal env ctx r)) := by
  simp only [evalVal]
  cases vt (evalVal env ctx l) <;> simp

end

end Napastak.Query
