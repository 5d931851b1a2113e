import Napastak.Access

/-! Execution of a statement: the registry of CTEs, the FROM list, the nested-loop join and the
row combinations that pass WHERE. Each execution also lists what its SELECTs kept, with the catalog
table behind each FROM item; what comes after WHERE is a parameter. -/
namespace Napastak.Access
open Query

/-- A result set. -/
structure RS where
  colNames : List Bytes
  rows : List (List Cell)

def maxRsRows : Nat := 100000

/-- CTEs by name; the schema of an entry is the columns of its result. -/
abbrev VTReg := List (Bytes × RS)

/-- At most 64 entries. -/
def vtAdd (vt : VTReg) (name : Bytes) (rs : RS) : VTReg := if vt.length < 64 then vt ++ [(name,rs)] else vt

def vtGet (vt : VTReg) (name : Bytes) : Option RS := (vt.find? fun e => strcasecmp e.1 name = 0).map (·.2)

/-- A loaded FROM item. `base` is the catalog table its rows were read from. -/
structure TblData where
  schema : Option (List Bytes)
  rows : List (List Cell)
  tname : Option Bytes
  alias_ : Option Bytes
  base : Option Bytes

def TblData.joined (t : TblData) (row : Option (List Cell)) : JoinTable := ⟨t.schema,row,t.tname,t.alias_⟩

/-- The catalog and the rows of its tables: `rows` those a SELECT loads under its WHERE (an index may
narrow them), `dmlRows` those UPDATE and DELETE walk over. No table has an empty name. -/
structure Db (F : Type) where
  catalog : Bytes → Option (List Bytes)
  rows : Bytes → Option (SqlExpr F) → List (List Cell)
  dmlRows : Bytes → Option (List (List Cell))
  named : catalog [] = none

/-- The database and the parts of the evaluator outside this module: scalar functions, arithmetic, window
values, and all that a SELECT does with the combinations it keeps. -/
structure Engine (F : Type) where
  db : Db F
  func : (Option JoinCtx → SqlExpr F → Val F) → Bytes → Bool → List (SqlExpr F) → Option JoinCtx → Val F
  arith : BinOp → Val F → Val F → Val F
  neg : Val F → Val F
  window : List (SqlExpr F) → Option JoinCtx → Val F
  emit : Env F (Node F) → SelectStmt F → List TblData → List JoinCtx → RS

/-- Where a SELECT stands in the statement that runs it. -/
inductive Position where
  | cte | derived | branch
  deriving DecidableEq, Repr

/-- A combination of rows that passed the WHERE of a SELECT, or a row of UPDATE and DELETE: the way to the
SELECT, the catalog table behind each FROM item, and the environment it was evaluated in. -/
structure Kept (F : Type) where
  path : List Position
  base : List (Option Bytes)
  ctx : JoinCtx
  env : Env F (Node F)

def Kept.below {F : Type} (p : Position) (k : Kept F) : Kept F := {k with path := p :: k.path}

section
variable {F : Type} [Doubles F]

def passes (env : Env F (Node F)) (ctx : JoinCtx) (where_ : Option (SqlExpr F)) : Bool :=
  where_.all fun w => vt (evalVal env (some ctx) w)

/-- CTE or catalog table; nothing where the name is neither. -/
def loadTbl (E : Engine F) (vt : VTReg) (tname : Bytes) (alias_ : Option Bytes) (where_ : Option (SqlExpr F)) :
    Option TblData :=
  match vtGet vt tname with
  | some rs => some ⟨some rs.colNames,rs.rows,some tname,alias_,none⟩
  | none => (E.db.catalog tname).map fun cols => ⟨some cols,E.db.rows tname where_,some tname,alias_,some tname⟩

/-- The join of the FROM list from one item on, left to right. A LEFT JOIN without a match leaves this item
and all after it without a row. -/
def joinRecurse (env : Env F (Node F)) (first : Bool) (ctx : JoinCtx) : List (TblData × FromItem F) → List JoinCtx
  | [] => [ctx]
  | (td,item) :: rest =>
    let jtype := if first then .inner else item.joinType
    let joinOn := if first then none else item.on
    if td.rows.isEmpty && jtype = .cross then []
    else
      let hits := td.rows.filter fun row => passes env (ctx ++ [td.joined (some row)]) joinOn
      hits.flatMap (fun row => joinRecurse env false (ctx ++ [td.joined (some row)]) rest) ++
        if hits.isEmpty && jtype = .left then
          [ctx ++ td.joined none :: rest.map fun t => t.1.joined none]
        else if hits.isEmpty && (jtype = .full && first) then joinRecurse env false (ctx ++ [td.joined none]) rest
        else []

/-- What a run of a statement gives: its result set, if any, and what its SELECTs kept. -/
abbrev Outcome (F : Type) := Option RS × List (Kept F)

/-- The registry with the CTEs of a SELECT, each run with those before it in scope. -/
def addCtes (run : VTReg → Stmt F → Outcome F) (vt : VTReg) : List (CTE F) → VTReg × List (Kept F)
  | [] => (vt,[])
  | ⟨_,none⟩ :: rest => addCtes run vt rest
  | ⟨name,some body⟩ :: rest =>
    let (rs,kept) := run vt (.select body)
    let (vt,more) := addCtes run ((rs.map (vtAdd vt name)).getD vt) rest
    (vt,kept.map (Kept.below .cte) ++ more)

/-- The rows behind a FROM item. -/
def loadItem (E : Engine F) (run : VTReg → Stmt F → Outcome F) (vt : VTReg) (where_ : Option (SqlExpr F))
    (item : FromItem F) : TblData × List (Kept F) :=
  match item.subquery with
  | some s =>
    let (rs,kept) := run vt s
    (match rs with
      | none => ⟨some [],[],none,none,none⟩
      | some rs => ⟨some rs.colNames,rs.rows,some (item.alias_.getD (ascii "_sub")),item.alias_,none⟩,
      kept.map (Kept.below .derived))
  | none =>
    match item.table with
    | none => (⟨none,[],none,none,none⟩,[])
    | some t => ((loadTbl E vt t item.alias_ where_).getD ⟨some [],[],some t,item.alias_,none⟩,[])

/-- Without FROM there is one row and no WHERE. -/
def execSelect (E : Engine F) (env : Env F (Node F)) (run : VTReg → Stmt F → Outcome F) (vt : VTReg)
    (sel : SelectStmt F) : RS × List (Kept F) :=
  let (vt,inner) := addCtes run vt sel.ctes
  if sel.fromItems.isEmpty then (E.emit env sel [] [[]],inner)
  else
    let loaded := sel.fromItems.map (loadItem E run vt sel.where_)
    let tables := loaded.map (·.1)
    let kept := (joinRecurse env true [] (tables.zip sel.fromItems)).filter fun ctx => passes env ctx sel.where_
    (E.emit env sel tables kept,
      inner ++ loaded.flatMap (·.2) ++ kept.map fun ctx => ⟨[],tables.map (·.base),ctx,env⟩)

def rowEq (nc : Nat) (a b : List Cell) : Bool :=
  (List.range nc).all fun c => strcmp ((a.getD c none).getD []) ((b.getD c none).getD []) = 0

def setRows (op : SetOpType) (L R : RS) : List (List Cell) :=
  let eq := rowEq L.colNames.length
  match op with
  | .unionAll => L.rows ++ R.rows
  | .union => (L.rows ++ R.rows).foldl (fun out row => if out.any fun o => eq o row then out else out ++ [row]) []
  | .intersect => L.rows.filter fun row => R.rows.any (eq row)
  | .except => L.rows.filter fun row => !R.rows.any (eq row)

/-- UPDATE and DELETE as far as they read: the rows that WHERE picks, and their number. -/
def execDml (E : Engine F) (env : Env F (Node F)) (key : Bytes) (table : Bytes) (where_ : Option (SqlExpr F)) :
    Outcome F :=
  if table.isEmpty then (none,[])
  else
    match E.db.catalog table, E.db.dmlRows table with
    | some cols, some rows =>
      let picked := (rows.map fun row => [(⟨some cols,some row,some table,some table⟩ : JoinTable)]).filter fun ctx =>
        passes env ctx where_
      (some ⟨[key],[[some (ascii (toString picked.length))]]⟩,picked.map fun ctx => ⟨[],[some table],ctx,env⟩)
    | _, _ => (none,[])

/-- A cell of a subquery's result. -/
def subqueryVal (cell : Cell) : Val F :=
  let v : Val F := {(vstrS [] : Val F) with str := cell}
  match (pnum cell : Option F) with
  | none => v
  | some n => {v with isNum := true, num := n}

def nodeVal (E : Engine F) (eval : Option JoinCtx → SqlExpr F → Val F) (exec : Option JoinCtx → Stmt F → Option RS) :
    Node F → Option JoinCtx → Val F
  | .subquery subq, ctx =>
    match (exec ctx subq).bind fun rs => rs.rows.head?.bind fun row => row.headD none with
    | none => vnull
    | some v => subqueryVal (some v)
  | .inSubquery neg left subq, ctx =>
    let L := eval ctx left
    let found := (exec ctx subq).any fun rs => rs.rows.any fun row => veq L (subqueryVal (row.headD none))
    vbool (if neg then !found else found)
  | .case caseOp whens thens elseExpr, ctx =>
    let hit := (whens.zip thens).find? fun w => match caseOp with
      | some x => veq (eval ctx x) (eval ctx w.1)
      | none => vt (eval ctx w.1)
    match hit.map (·.2) with
    | some e => eval ctx e
    | none => (elseExpr.map (eval ctx)).getD vnull
  | .window spec, ctx => E.window spec ctx

mutual
/-- Statements and nodes nest at most `fuel` deep. -/
def execStmt (E : Engine F) : Nat → Option JoinCtx → VTReg → Stmt F → Outcome F
  | 0, _, _, _ => (none,[])
  | fuel + 1, outer, vt, .select sel =>
    let (rs,kept) := execSelect E (envAt E fuel outer) (execStmt E fuel outer) vt sel
    (some rs,kept)
  | fuel + 1, outer, vt, .setOp op left right =>
    let (L,keptL) := execStmt E fuel outer vt left
    let (R,keptR) := execStmt E fuel outer vt right
    let kept := (keptL ++ keptR).map (Kept.below .branch)
    match L, R with
    | none, _ => (R,kept)
    | _, none => (L,kept)
    | some L, some R => (some ⟨L.colNames,(setRows op L R).take maxRsRows⟩,kept)
  | fuel + 1, outer, _, .update table where_ => execDml E (envAt E fuel outer) (ascii "updated") table where_
  | fuel + 1, outer, _, .delete table where_ => execDml E (envAt E fuel outer) (ascii "deleted") table where_
  | _ + 1, _, _, _ => (none,[])

/-- Evaluation inside a query with that outer row; a subquery sees the row it is evaluated on as its outer one. -/
def envAt (E : Engine F) : Nat → Option JoinCtx → Env F (Node F)
  | 0, outer => ⟨outer,fun _ _ _ _ => vnull,E.arith,E.neg,fun _ _ => vnull⟩
  | fuel + 1, outer =>
    let eval := evalVal (envAt E fuel outer)
    let exec := fun (ctx : Option JoinCtx) s => (execStmt E fuel (ctx.or outer) [] s).1
    {outer := outer, arith := E.arith, neg := E.neg, node := nodeVal E eval exec,
      func := fun name distinct args ctx =>
        match args with
        | [.node (.subquery subq)] =>
          if strcasecmp name (ascii "exists") = 0 then vbool ((exec ctx subq).any fun rs => !rs.rows.isEmpty)
          else E.func eval name distinct args ctx
        | _ => E.func eval name distinct args ctx}
end

end

end Napastak.Access
