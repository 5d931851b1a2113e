import Napastak.Grouping

/-! The row that `collect_row` gives for a combination of rows, and the two ways to ask for all columns: `*`, which
copies the cells, and their names, which go through the evaluator. -/
namespace Napastak.Project
open Query Access Grouping

/-- An item of ORDER BY. -/
structure OrderItem (F : Type) where
  expr : SqlExpr F
  desc : Bool
  nullsLast : Bool

/-- The select list; an alias is none where no AS was given. -/
abbrev SelectList (F : Type) := List (SqlExpr F × Option Bytes)

section
variable {F : Type} [Doubles F]

def isStar : SelectList F → Bool
  | [(.star,none)] => true
  | _ => false

/-- Every cell of every table; an absent row and a NULL pointer are empty texts. -/
def starCells (ctx : JoinCtx) : List Bytes :=
  ctx.flatMap fun t => (t.cols.getD []).zipIdx.map fun (_,c) =>
    ((t.row.bind fun row => (row[c]?).getD none) : Cell).getD []

def projectCells (env : Env F (Node F)) (list : SelectList F) (ctx : JoinCtx) : List Bytes :=
  if isStar list then starCells ctx else list.map fun item => valCell (evalVal env (some ctx) item.1)

/-- What ORDER BY sorts by: the item behind an alias, then the item at a position. -/
def orderExpr (list : SelectList F) (e : SqlExpr F) : SqlExpr F :=
  let e := match e with
    | .col _ name => ((list.find? fun (item : SqlExpr F × Option Bytes) => item.2.any fun a => strcasecmp a name = 0).map Prod.fst).getD e
    | e => e
  match e with
  | .int ival _ => if 1 ≤ ival ∧ ival ≤ list.length then ((list[ival.toNat - 1]?).map Prod.fst).getD e else e
  | e => e

def sortKeys (env : Env F (Node F)) (list : SelectList F) (orderBy : List (OrderItem F)) (ctx : JoinCtx) : List Bytes :=
  orderBy.map fun o => valStr (evalVal env (some ctx) (orderExpr list o.expr))

/-- The rows that a SELECT without grouping adds to its result, each with its sort keys. What comes after them (DISTINCT,
ORDER BY and the page) looks at nothing else. -/
def outRows (env : Env F (Node F)) (tables : List (TblData × FromItem F)) (where_ : Option (SqlExpr F)) (list : SelectList F)
    (orderBy : List (OrderItem F)) : List (List Bytes × List Bytes) :=
  ((joinRecurse env true [] tables).filter fun ctx => passes env ctx where_).map fun ctx =>
    (projectCells env list ctx,sortKeys env list orderBy ctx)

/-! ### All columns by their names -/

/-- The name that a column of the table is qualified with. -/
def qualifier (alias_ tname : Option Bytes) : Bytes := alias_.getD (tname.getD [])

/-- A column: the qualifier and the name. -/
abbrev Column := Bytes × Bytes

def columnsOf (tables : List TblData) : List Column :=
  tables.flatMap fun t => (t.schema.getD []).map fun col => (qualifier t.alias_ t.tname,col)

def star : SelectList F := [(.star,none)]

def allNamed (tables : List TblData) : SelectList F := (columnsOf tables).map fun (q,col) => (.col (some q) col,none)

/-- What a qualified name finds: the cell of the first table that has a row, goes by that name and has such a column; in
the enclosing query where there is none. -/
def found (env : Env F (Node F)) (ctx : JoinCtx) (column : Column) : Cell :=
  (jctxCol (some ctx) (some column.1) column.2).or (jctxCol env.outer (some column.1) column.2)

/-- The columns of the tables behind a row, each with its own cell. -/
def ownCells (ctx : JoinCtx) : List (Column × Cell) :=
  ctx.flatMap fun t => (t.cols.getD []).zipIdx.map fun (col,c) =>
    ((qualifier t.alias_ t.tname,col),t.row.bind fun row => (row[c]?).getD none)

/-- The name finds the cell itself; where the table has no row or no cell there, it finds an empty text. -/
def SameCell (env : Env F (Node F)) (ctx : JoinCtx) (own : Column × Cell) : Prop :=
  match own.2 with
  | some x => found env ctx own.1 = some x ∨ (x = nullSentinel ∧ found env ctx own.1 = none)
  | none => found env ctx own.1 = some []

/-- The text that a cell is sorted by. -/
def sortText : Cell → Bytes
  | none => []
  | some x => if x = nullSentinel then [] else x

/-- A position in ORDER BY is one of the select list of names, and only the first one of `*`. -/
def SamePosition (env : Env F (Node F)) (ctx : JoinCtx) (columns : List Column) (o : OrderItem F) : Prop :=
  ∀ k litstr, o.expr = .int k litstr → 1 ≤ k →
    let starText := if k = 1 then [42] else valStr (evalVal env (some ctx) o.expr)
    match columns[k.toNat - 1]? with
    | some column => sortText (found env ctx column) = starText
    | none => valStr (evalVal env (some ctx) o.expr) = starText

/-! ### The columns of a joined row -/

/-- What a joined table keeps of the table it stands for. -/
def outline (t : JoinTable) : Option (List Bytes) × Option Bytes × Option Bytes := (t.cols,t.tname,t.alias_)

theorem outlineJoined (t : TblData) (row : Option (List Cell)) : outline (t.joined row) = (t.schema,t.tname,t.alias_) := rfl

/-- Every combination has the tables of FROM, in their order. -/
theorem joinOutline (env : Env F (Node F)) {tables : List (TblData × FromItem F)} {first : Bool} {pre ctx : JoinCtx}
    (mem : ctx ∈ joinRecurse env first pre tables) :
    ctx.map outline = pre.map outline ++ tables.map fun t => (t.1.schema,t.1.tname,t.1.alias_) := by
  induction tables generalizing first pre with
  | nil =>
    rw [joinRecurse,List.mem_singleton] at mem
    rw [mem,List.map_nil,List.append_nil]
  | cons t rest ih =>
    have next {row : Option (List Cell)} (mem : ctx ∈ joinRecurse env false (pre ++ [t.1.joined row]) rest) :
        ctx.map outline = pre.map outline ++ (t :: rest).map fun t => (t.1.schema,t.1.tname,t.1.alias_) := by
      rw [ih mem,List.map_append,List.append_assoc]
      rfl
    rw [joinRecurse] at mem
    dsimp only at mem
    generalize (if first = true then JoinType.inner else t.2.joinType) = jtype at mem
    generalize (if first = true then none else t.2.on) = joinOn at mem
    split at mem
    · cases mem
    rcases List.mem_append.1 mem with matched | unmatched
    · obtain ⟨row,-,is⟩ := List.mem_flatMap.1 matched
      exact next is
    · split at unmatched
      · rw [List.mem_singleton.1 unmatched,List.map_append,List.map_cons,List.map_map]
        rfl
      split at unmatched
      · exact next unmatched
      · cases unmatched

theorem columnsOutline {tables : List TblData} {ctx : JoinCtx}
    (same : ctx.map outline = tables.map fun t => (t.schema,t.tname,t.alias_)) : (ownCells ctx).map (·.1) = columnsOf tables := by
  have own (t : JoinTable) : ((t.cols.getD []).zipIdx.map fun (col,c) =>
      (((qualifier t.alias_ t.tname,col),t.row.bind fun row => (row[c]?).getD none) : Column × Cell)).map (·.1) =
        ((outline t).1.getD []).map fun col => (qualifier (outline t).2.2 (outline t).2.1,col) := by
    rw [List.map_map]
    refine Eq.trans ?_ (congrArg (List.map fun col => (qualifier t.alias_ t.tname,col)) (List.zipIdx_map_fst 0 (t.cols.getD [])))
    rw [List.map_map]
    rfl
  have all : (ownCells ctx).map (·.1) =
      (ctx.map outline).flatMap fun o => (o.1.getD []).map fun col => (qualifier o.2.2 o.2.1,col) := by
    rw [ownCells,List.map_flatMap,List.flatMap_map]
    exact List.flatMap_congr fun t _ => own t
  rw [all,same,List.flatMap_map]
  rfl

/-! ### Star against names -/

omit [Doubles F] in
/-- Where no table in front goes by the same name and the column is the first of its name, the name finds the cell. -/
theorem foundOwn (env : Env F (Node F)) {pre post : JoinCtx} {t : JoinTable} {cols : List Bytes} {row : List Cell}
    {column : Column} {c : Nat} {x : Bytes} (hasCols : t.cols = some cols) (hasRow : t.row = some row)
    (first : (cols.findIdx? fun n => strcasecmp n column.2 = 0) = some c) (cell : row[c]? = some (some x))
    (goes : t.named (some column.1) = true) (apart : ∀ u ∈ pre, u.named (some column.1) = false) :
    found env (pre ++ t :: post) column = some x := by
  have own : t.cell column.2 = some (some x) := by
    rw [JoinTable.cell,hasCols,hasRow]
    dsimp only
    rw [first,Option.map_some,cell]
    rfl
  have skip : (pre.findSome? fun u => if u.named (some column.1) then u.cell column.2 else none) = none :=
    List.findSome?_eq_none_iff.2 fun u mem => by rw [apart u mem]; rfl
  rw [found,jctxCol,List.findSome?_append,skip,Option.none_or,List.findSome?_cons,if_pos goes,own]
  rfl

theorem cellValText {x : Bytes} (text : x ≠ nullSentinel) :
    (cellVal x : Val F).isNull = false ∧ (cellVal x : Val F).str = some x := by
  rw [cellVal,if_neg text]
  cases (pnum (some x) : Option F) <;> dsimp only <;> split_ifs <;> exact ⟨rfl,rfl⟩

/-- The value of a cell. -/
def valOf (c : Cell) : Val F :=
  match c with
  | none => vnull
  | some s => cellVal s

theorem valCellFound (c : Cell) : valCell (valOf c : Val F) = c.getD nullSentinel := by
  cases c with
  | none => rfl
  | some x =>
    rw [valOf,valCell,Option.getD_some]
    by_cases null : x = nullSentinel
    · rw [null,cellVal,if_pos rfl]
      rfl
    · obtain ⟨isNull,str⟩ := cellValText (F := F) null
      rw [isNull,valStr,isNull,str]
      rfl

theorem valStrFound (c : Cell) : valStr (valOf c : Val F) = sortText c := by
  cases c with
  | none => rfl
  | some x =>
    rw [valOf,valStr]
    by_cases null : x = nullSentinel
    · rw [null,cellVal,if_pos rfl]
      rfl
    · obtain ⟨isNull,str⟩ := cellValText (F := F) null
      rw [isNull,str,sortText,if_neg null]
      rfl

theorem colFound (env : Env F (Node F)) (ctx : JoinCtx) (column : Column) :
    evalVal env (some ctx) (.col (some column.1) column.2) = valOf (found env ctx column) := by
  rw [evalVal,colVal]
  rfl

theorem starCellsOwn (ctx : JoinCtx) : starCells ctx = (ownCells ctx).map fun own => own.2.getD [] := by
  rw [starCells,ownCells,List.map_flatMap]
  refine List.flatMap_congr fun t _ => ?_
  rw [List.map_map]
  rfl

omit [Doubles F] in
theorem sameCellIff (env : Env F (Node F)) (ctx : JoinCtx) (own : Column × Cell) :
    own.2.getD [] = (found env ctx own.1).getD nullSentinel ↔ SameCell env ctx own := by
  have some_ : nullSentinel ≠ [] := nofun
  rw [SameCell]
  cases own.2 <;> cases found env ctx own.1
  · simpa using some_.symm
  · simp [eq_comm]
  · simp
  · simp [eq_comm]

omit [Doubles F] in
theorem notStar (tables : List TblData) : isStar (allNamed (F := F) tables) = false := by
  rw [allNamed]
  cases columnsOf tables with
  | nil => rfl
  | cons column rest => cases rest <;> rfl

theorem cellsIff (env : Env F (Node F)) {tables : List TblData} {ctx : JoinCtx}
    (columns : (ownCells ctx).map (·.1) = columnsOf tables) :
    projectCells env star ctx = projectCells env (allNamed tables) ctx ↔ ∀ own ∈ ownCells ctx, SameCell env ctx own := by
  have names : projectCells env (allNamed tables) ctx = (ownCells ctx).map fun own => (found env ctx own.1).getD nullSentinel := by
    rw [projectCells,if_neg (by rw [notStar]; simp),allNamed,← columns,List.map_map,List.map_map]
    refine List.map_congr_left fun own _ => ?_
    rw [← valCellFound (F := F),← colFound]
    rfl
  rw [names,projectCells,if_pos (show isStar star = true from rfl),starCellsOwn,List.map_inj_left]
  exact forall₂_congr fun own _ => sameCellIff env ctx own

omit [Doubles F] in
/-- Without aliases only the positions are looked up. -/
theorem orderPlain {list : SelectList F} (plain : ∀ item ∈ list, item.2 = none) (e : SqlExpr F) :
    orderExpr list e = match e with
      | .int ival _ => if 1 ≤ ival ∧ ival ≤ list.length then ((list[ival.toNat - 1]?).map Prod.fst).getD e else e
      | e => e := by
  have none_ (name : Bytes) :
      (list.find? fun (item : SqlExpr F × Option Bytes) => item.2.any fun a => strcasecmp a name = 0) = none :=
    List.find?_eq_none.2 fun item mem => by simp [plain item mem]
  unfold orderExpr
  cases e <;> simp only [none_,Option.map_none,Option.getD_none]

/-- What `*` gives for a position. -/
theorem starPosition (env : Env F (Node F)) (ctx : JoinCtx) {k : Int} (one : 1 ≤ k) (litstr : Option Bytes) :
    valStr (evalVal env (some ctx)
      (if 1 ≤ k ∧ k ≤ (star (F := F)).length then ((star[k.toNat - 1]?).map Prod.fst).getD (.int k litstr) else .int k litstr)) =
        if k = 1 then [42] else valStr (evalVal env (some ctx) (.int k litstr)) := by
  by_cases first : k = 1
  · subst first
    rfl
  · have out : ¬(1 ≤ k ∧ k ≤ (star (F := F)).length) := by
      rw [show (star (F := F)).length = 1 from rfl]
      omega
    rw [if_neg out,if_neg first]

/-- What the list of names gives for it. -/
theorem namedPosition (env : Env F (Node F)) (tables : List TblData) (ctx : JoinCtx) {k : Int} (one : 1 ≤ k) (litstr : Option Bytes) :
    valStr (evalVal env (some ctx) (if 1 ≤ k ∧ k ≤ (allNamed (F := F) tables).length then
      (((allNamed tables)[k.toNat - 1]?).map Prod.fst).getD (.int k litstr) else .int k litstr)) =
        match (columnsOf tables)[k.toNat - 1]? with
        | some column => sortText (found env ctx column)
        | none => valStr (evalVal env (some ctx) (.int k litstr)) := by
  rw [allNamed,List.length_map,List.getElem?_map]
  cases at_ : (columnsOf tables)[k.toNat - 1]? with
  | some column =>
    have lt := (List.getElem?_eq_some_iff.1 at_).1
    have inside : 1 ≤ k ∧ k ≤ (columnsOf tables).length := ⟨one,by omega⟩
    rw [if_pos inside]
    dsimp only [Option.map_some,Option.getD_some]
    rw [colFound,valStrFound]
  | none =>
    have ge := List.getElem?_eq_none_iff.1 at_
    have outside : ¬(1 ≤ k ∧ k ≤ (columnsOf tables).length) := by omega
    rw [if_neg outside]

theorem positionIff (env : Env F (Node F)) (tables : List TblData) (ctx : JoinCtx) (o : OrderItem F) :
    valStr (evalVal env (some ctx) (orderExpr star o.expr)) =
      valStr (evalVal env (some ctx) (orderExpr (allNamed tables) o.expr)) ↔
      SamePosition env ctx (columnsOf tables) o := by
  have named (item : SqlExpr F × Option Bytes) (mem : item ∈ allNamed tables) : item.2 = none := by
    obtain ⟨column,-,rfl⟩ := List.mem_map.1 mem
    rfl
  rw [@orderPlain F star (fun item mem => by rw [List.mem_singleton.1 mem]),orderPlain named,SamePosition]
  cases e : o.expr with
  | int k litstr =>
    dsimp only
    by_cases one : 1 ≤ k
    · rw [starPosition env ctx one,namedPosition env tables ctx one]
      constructor
      · rintro same _ _ ⟨⟩ _
        cases at_ : (columnsOf tables)[k.toNat - 1]? <;> rw [at_] at same <;> exact same.symm
      · intro same
        have same := same k litstr rfl one
        cases at_ : (columnsOf tables)[k.toNat - 1]? <;> rw [at_] at same <;> exact same.symm
    · have off (n : Nat) : ¬(1 ≤ k ∧ k ≤ n) := fun h => one h.1
      rw [if_neg (off _),if_neg (off _)]
      refine iff_of_true rfl ?_
      rintro _ _ ⟨⟩ h
      exact absurd h one
  | _ => simp

theorem keysIff (env : Env F (Node F)) (tables : List TblData) (ctx : JoinCtx) (orderBy : List (OrderItem F)) :
    sortKeys env star orderBy ctx = sortKeys env (allNamed tables) orderBy ctx ↔
      ∀ o ∈ orderBy, SamePosition env ctx (columnsOf tables) o := by
  rw [sortKeys,sortKeys,List.map_inj_left]
  exact forall₂_congr fun o _ => positionIff env tables ctx o

/-- `SELECT *` gives the rows of the SELECT that names every column just where every name finds the cell itself and every
position in ORDER BY sorts alike. -/
theorem starIsNamed (env : Env F (Node F)) (tables : List (TblData × FromItem F)) (where_ : Option (SqlExpr F))
    (orderBy : List (OrderItem F)) :
    outRows env tables where_ star orderBy = outRows env tables where_ (allNamed (tables.map (·.1))) orderBy ↔
      ∀ ctx ∈ joinRecurse env true [] tables, passes env ctx where_ = true →
        (∀ own ∈ ownCells ctx, SameCell env ctx own) ∧
          ∀ o ∈ orderBy, SamePosition env ctx (columnsOf (tables.map (·.1))) o := by
  rw [outRows,outRows,List.map_inj_left]
  simp only [List.mem_filter,and_imp,Prod.mk.injEq]
  refine forall₃_congr fun ctx mem _ => and_congr (cellsIff env ?_) (keysIff env _ ctx orderBy)
  refine columnsOutline ((joinOutline env mem).trans ?_)
  rw [List.map_map]
  rfl

end
/-- No functions, no enclosing query. -/
def bareEnv : Env Int (Node Int) := ⟨none,fun _ _ _ _ => vnull,fun _ _ _ => vnull,fun _ => vnull,fun _ _ => vnull⟩

/-- `t LEFT JOIN u` with one row in `t` and none in `u`. -/
def leftTables : List (TblData × FromItem Int) :=
  [(⟨some [ascii "a"],[[some (ascii "1")]],some (ascii "t"),none,some (ascii "t")⟩,⟨some (ascii "t"),none,.inner,none,none⟩),
    (⟨some [ascii "b"],[],some (ascii "u"),none,some (ascii "u")⟩,⟨some (ascii "u"),none,.left,none,none⟩)]

/-- The NULL of an unmatched row is an empty text under `*`. -/
theorem starLosesNull :
    outRows bareEnv leftTables none star [] = [([ascii "1",[]],[])] ∧
      outRows bareEnv leftTables none (allNamed (leftTables.map (·.1))) [] = [([ascii "1",nullSentinel],[])] ∧
      outRows bareEnv leftTables none star [] ≠ outRows bareEnv leftTables none (allNamed (leftTables.map (·.1))) [] := by
  decide

end Napastak.Project
