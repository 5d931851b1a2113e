import Napastak.Lexer
import Napastak.NamedParams

/-! The recursive descent parser of `sql.c` over the tokens of a text. Every function takes fuel; `none` is a run
that was given too little. -/
namespace Napastak.SqlParser
open Query Sql

/-! ### The trees -/

inductive OpType
  | eq | ne | lt | le | gt | ge | and_ | or_ | not_ | add | sub | mul | div | mod
  | like | ilike | notLike | notIlike | isNull | isNotNull | in_ | notIn | between | notBetween | concat
  deriving DecidableEq, Repr

inductive JoinType
  | inner | left | right | full | cross
  deriving DecidableEq, Repr

inductive SetOpType
  | union | unionAll | intersect | except
  deriving DecidableEq, Repr

inductive WinFrameType
  | rows | range
  deriving DecidableEq, Repr

inductive WinBoundKind
  | unboundedPrec | nPrec | currentRow | nFoll | unboundedFoll
  deriving DecidableEq, Repr

structure WinFrameBound where
  kind : WinBoundKind
  n : Int64
  deriving DecidableEq, Repr

mutual
inductive Expr (F : Type) where
  | col (table : Option Bytes) (name : Bytes)
  | star (table : Option Bytes)
  | int (ival : Int64) (litstr : Bytes)
  | float (fval : F)
  | str (sval : Bytes)
  | null
  | bool (bval : Bool)
  | func (funcName : Bytes) (args : List (Expr F)) (distinct : Bool)
  | window (funcName : Bytes) (args : List (Expr F)) (distinct : Bool) (winSpec : WindowSpec F)
  | binop (op : OpType) (left right : Expr F)
  | unop (op : OpType) (left : Expr F)
  | aliased (expr : Expr F) (name : Bytes)
  | subquery (subq : Stmt F)
  | case (caseOp : Option (Expr F)) (whens thens : List (Expr F)) (elseExpr : Option (Expr F))
  | list (items : List (Expr F))

structure OrderItem (F : Type) where
  expr : Expr F
  desc : Bool
  nullsLast : Bool

/-- The frame is there when `has_frame` is set. -/
structure WindowSpec (F : Type) where
  partitionBy : List (Expr F)
  orderBy : List (OrderItem F)
  frame : Option (WinFrameType × WinFrameBound × WinFrameBound)

structure FromItem (F : Type) where
  table : Option Bytes
  aliasName : Option Bytes
  joinType : JoinType
  on : Option (Expr F)
  subquery : Option (Stmt F)

structure CTE (F : Type) where
  name : Bytes
  body : Option (SelectStmt F)

structure SelectStmt (F : Type) where
  ctes : List (CTE F)
  selectList : List (Expr F)
  distinct : Bool
  fromItems : List (FromItem F)
  where_ : Option (Expr F)
  groupBy : List (Expr F)
  having : Option (Expr F)
  orderBy : List (OrderItem F)
  limit : Int64
  offset : Int64

/-- The type of a statement with the part of the union it uses. -/
inductive StmtBody (F : Type) where
  | select (sel : SelectStmt F)
  | setOp (op : SetOpType) (left right : Stmt F)
  | update (table : Bytes) (sets : List (Bytes × Bytes)) (where_ : Option (Expr F))
  | delete (table : Bytes) (where_ : Option (Expr F))
  | begin_
  | commit
  | rollback
  | unknown

structure Stmt (F : Type) where
  body : StmtBody F
  error : Option String
end

/-! ### The token stream -/

/-- `Lexer`: the tokens left, and the first error. -/
structure Lexer (F : Type) where
  toks : List (Token F)
  error : Option String

abbrev Parse (F : Type) := StateT (Lexer F) Option

section
variable {F : Type} [Doubles F]

def eof : Token F := tok F .eof

def lexPeek : Parse F (Token F) := fun l => some (l.toks.head?.getD eof,l)

def lexConsume : Parse F (Token F) := fun l => some (l.toks.head?.getD eof,{l with toks := l.toks.tail})

def lexPeekIs (t : TkType) : Parse F Bool := fun l => some (((l.toks.head?.getD eof).type = t : Bool),l)

def lexEat (t : TkType) : Parse F Bool := fun l =>
  if (l.toks.head?.getD eof).type = t then some (true,{l with toks := l.toks.tail}) else some (false,l)

def lexSetError (msg : String) : Parse F Unit := fun l => some ((),{l with error := l.error.or (some msg)})

/-- `consume_ident`. -/
def consumeIdent : Parse F Bytes := do
  let t ← lexConsume
  return if t.type = .ident then t.text else []

/-- `TK_SELECT` or `TK_WITH` ahead. -/
def peekQuery : Parse F Bool := do
  let t ← lexPeek
  return (t.type = .select || t.type = .with_)

/-- Tokens until `)` or the end. -/
def skipToParen : Parse F Unit := fun l => some ((),{l with toks := l.toks.dropWhile (·.type ≠ .rparen)})

def binopPrec : TkType → Int
  | .or_ => 1
  | .and_ => 2
  | .not_ => 3
  | .eq | .ne | .lt | .le | .gt | .ge | .like | .ilike | .is_ | .in_ | .between => 4
  | .concat => 5
  | .plus | .minus => 6
  | .star | .slash | .percent => 7
  | _ => -1

def tktypeToOp : TkType → OpType
  | .eq => .eq
  | .ne => .ne
  | .lt => .lt
  | .le => .le
  | .gt => .gt
  | .ge => .ge
  | .and_ => .and_
  | .or_ => .or_
  | .plus => .add
  | .minus => .sub
  | .star => .mul
  | .slash => .div
  | .percent => .mod
  | .like => .like
  | .ilike => .ilike
  | .in_ => .in_
  | .concat => .concat
  | _ => .eq

def parseFrameBound : Parse F WinFrameBound := do
  let t ← lexPeek
  if t.type = .unbounded then
    let _ ← lexConsume
    if ← lexEat .following then return ⟨.unboundedFoll,0⟩
    let _ ← lexEat .preceding
    return ⟨.unboundedPrec,0⟩
  else if t.type = .current_ then
    let _ ← lexConsume
    let _ ← lexEat .row
    return ⟨.currentRow,0⟩
  else
    let n ← lexConsume
    let bound : Int64 := if n.type = .numInt then n.ival else 1
    if ← lexEat .following then return ⟨.nFoll,bound⟩
    let _ ← lexEat .preceding
    return ⟨.nPrec,bound⟩

/-- The frame of a window, when one is given. -/
def parseFrame : Parse F (Option (WinFrameType × WinFrameBound × WinFrameBound)) := do
  let t ← lexPeek
  if t.type = .rows ∨ t.type = .range_ then
    let type := if t.type = .rows then WinFrameType.rows else WinFrameType.range
    let _ ← lexConsume
    if ← lexEat .between then
      let start ← parseFrameBound
      let _ ← lexEat .and_
      let stop ← parseFrameBound
      return some (type,start,stop)
    let start ← parseFrameBound
    return some (type,start,⟨.currentRow,0⟩)
  return none

/-- The type name of CAST: one word of at most 31 bytes. -/
def castType : Parse F Bytes := do
  let t ← lexPeek
  if t.type = .ident then
    let _ ← lexConsume
    return t.text.take 31
  return []

def aliasOf : Parse F (Option Bytes) := do
  if ← lexEat .as_ then return some (← consumeIdent)
  if ← lexPeekIs .ident then return some (← consumeIdent)
  return none

/-- A word of the paging tail `OFFSET n ROWS FETCH FIRST m ROWS ONLY`, known by its length and first letters. -/
def pagingWord (t : Token F) : Bool :=
  t.type = .rows || t.type = .row || t.type = .first_ ||
    (t.type = .ident && t.text.length = 5 && (t.text[0]? = some 70 || t.text[0]? = some 102) &&
      (t.text[1]? = some 69 || t.text[1]? = some 101)) ||
    (t.type = .ident && t.text.length = 4 && (t.text[0]? = some 78 || t.text[0]? = some 110)) ||
    (t.type = .ident && t.text.length = 4 && (t.text[0]? = some 79 || t.text[0]? = some 111))

/-- The paging tail; numbers only after its first word. -/
def skipPaging : Bool → List (Token F) → List (Token F)
  | _, [] => []
  | saw, t :: ts => if pagingWord t then skipPaging true ts else if saw && t.type = .numInt then skipPaging saw ts else t :: ts

def parsePaging : Parse F Unit := fun l => some ((),{l with toks := skipPaging false l.toks})

/-- The number behind LIMIT or OFFSET, which is passed over whatever it is. -/
def parseCount (kw : TkType) (missing : Int64) : Parse F Int64 := do
  if ← lexEat kw then
    let t ← lexConsume
    return if t.type = .numInt then t.ival else missing
  return missing

end

/-! ### Expressions and statements -/

section
variable {F : Type} [JsonDoubles F]

/-- The text of an assigned value, as `parse_update` keeps it. -/
def setValue (neg : Bool) (val : Token F) : Bytes :=
  let sign : Bytes := if neg then [45] else []
  match val.type with
  | .string => val.text.take 255
  | .numInt => (sign ++ lld val.ival).take 255
  | .numFloat => (sign ++ jsonFmtDouble val.fval).take 255
  | .null => ascii "NULL"
  | .true_ => ascii "true"
  | .false_ => ascii "false"
  | _ => val.text.take 255

/-- The assignments of UPDATE, at most 64, or the error they end with. -/
def parseSets : Nat → Parse F (Except String (List (Bytes × Bytes)))
  | 0 => return .ok []
  | room + 1 => do
    let col ← lexConsume
    if col.type ≠ .ident then return .error "UPDATE SET: expected column"
    if !(← lexEat .eq) then return .error "UPDATE SET: expected ="
    let neg ← lexEat .minus
    let val ← lexConsume
    let set : Bytes × Bytes := (col.text.take 63,setValue neg val)
    if ← lexEat .comma then return (← parseSets room).map (set :: ·)
    return .ok [set]

/-- The join keyword ahead, if any, consumed with its OUTER. -/
def joinKind : Parse F (Option JoinType) := do
  let outer (jt : JoinType) : Parse F (Option JoinType) := do
    let _ ← lexConsume
    let _ ← lexEat .outer_
    return some jt
  match (← lexPeek).type with
  | .left_ => outer .left
  | .right_ => outer .right
  | .full_ => outer .full
  | .cross_ => let _ ← lexConsume; return some .cross
  | .inner_ => let _ ← lexConsume; return some .inner
  | .join_ => return some .inner
  | _ => return none

/-- The set operation ahead, if any, consumed with the ALL of UNION. -/
def setOpAhead : Parse F (Option SetOpType) := do
  if ← lexEat .union_ then
    if ← lexEat .all_ then return some .unionAll
    return some .union
  if ← lexEat .intersect_ then return some .intersect
  if ← lexEat .except then return some .except
  return none

mutual
def parsePrimary : Nat → Parse F (Expr F)
  | 0 => fun _ => none
  | n + 1 => do
    let t ← lexPeek
    let _ ← lexConsume
    match t.type with
    | .case_ =>
      let caseOp ← if ← lexPeekIs .when_ then pure none else some <$> parseExpr n 0
      let arms ← parseArms n
      let elseExpr ← if ← lexEat .else_ then some <$> parseExpr n 0 else pure none
      let _ ← lexEat .end_
      return .case caseOp (arms.map (·.1)) (arms.map (·.2)) elseExpr
    | .exists_ =>
      let _ ← lexEat .lparen
      let sub ← parseStmt n
      let _ ← lexEat .rparen
      return .func (ascii "exists") [.subquery sub] false
    | .cast_ =>
      let _ ← lexEat .lparen
      let inner ← parseExpr n 0
      let _ ← lexEat .as_
      let type ← castType
      let _ ← lexEat .rparen
      return .func (ascii "cast") [inner, .str type] false
    | .numInt => return .int t.ival t.text
    | .numFloat => return .float t.fval
    | .string => return .str t.text
    | .null => return .null
    | .true_ => return .bool true
    | .false_ => return .bool false
    | .star => return .star none
    | .minus => return .unop .sub (← parsePrimary n)
    | .not_ => return .unop .not_ (← parsePrimary n)
    | .lparen =>
      if ← peekQuery then
        let sub ← parseStmt n
        let _ ← lexEat .rparen
        return .subquery sub
      else
        let inner ← parseExpr n 0
        let _ ← lexEat .rparen
        return inner
    | .ident =>
      if ← lexEat .lparen then parseCall n t.text
      else if ← lexEat .dot then return .col (some t.text) (← lexConsume).text
      else return .col none t.text
    | _ =>
      lexSetError "syntax error: expected expression"
      return .null

/-- The arms of CASE. -/
def parseArms : Nat → Parse F (List (Expr F × Expr F))
  | 0 => fun _ => none
  | n + 1 => do
    if ← lexEat .when_ then
      let cond ← parseExpr n 0
      let _ ← lexEat .then_
      let value ← parseExpr n 0
      return (cond,value) :: (← parseArms n)
    else return []

/-- A call after its opening parenthesis. -/
def parseCall : Nat → Bytes → Parse F (Expr F)
  | 0, _ => fun _ => none
  | n + 1, name => do
    let distinct ← lexEat .distinct
    let args ← do
      if ← lexEat .star then pure [.star none]
      else if ← lexPeekIs .rparen then pure []
      else parseArgs n
    let _ ← lexEat .rparen
    if ← lexEat .over_ then return .window name args distinct (← parseWindowSpec n)
    return .func name args distinct

def parseArgs : Nat → Parse F (List (Expr F))
  | 0 => fun _ => none
  | n + 1 => do
    if ← lexPeekIs .rparen then return []
    let e ← parseExpr n 0
    if ← lexEat .comma then return e :: (← parseArgs n)
    return [e]

/-- Expressions between commas. -/
def parseList : Nat → Parse F (List (Expr F))
  | 0 => fun _ => none
  | n + 1 => do
    let e ← parseExpr n 0
    if ← lexEat .comma then return e :: (← parseList n)
    return [e]

/-- The keys of ORDER BY; those of a window take no NULLS. -/
def parseOrder : Nat → Bool → Parse F (List (OrderItem F))
  | 0, _ => fun _ => none
  | n + 1, nulls => do
    let e ← parseExpr n 0
    let desc ← lexEat .desc
    if !desc then
      let _ ← lexEat .asc
    let nullsLast ← if nulls then do
        if ← lexEat .nulls then
          if ← lexEat .first_ then pure false
          else
            let _ ← lexEat .last_
            pure true
        else pure true
      else pure true
    if ← lexEat .comma then return ⟨e,desc,nullsLast⟩ :: (← parseOrder n nulls)
    return [⟨e,desc,nullsLast⟩]

def parseWindowSpec : Nat → Parse F (WindowSpec F)
  | 0 => fun _ => none
  | n + 1 => do
    let _ ← lexEat .lparen
    let partitionBy ← if ← lexEat .partition_ then do
        let _ ← lexEat .by_
        parseList n
      else pure []
    let orderBy ← if ← lexEat .order then do
        let _ ← lexEat .by_
        parseOrder n false
      else pure []
    let frame ← parseFrame
    let _ ← lexEat .rparen
    return ⟨partitionBy,orderBy,frame⟩

def parseExpr : Nat → Int → Parse F (Expr F)
  | 0, _ => fun _ => none
  | n + 1, minPrec => do
    let lhs ← parsePrimary n
    exprLoop n minPrec lhs

/-- The loop of `parse_expr`: postfix predicates whatever the precedence, operators down to `minPrec`. -/
def exprLoop : Nat → Int → Expr F → Parse F (Expr F)
  | 0, _, _ => fun _ => none
  | n + 1, minPrec, lhs => do
    let pt ← lexPeek
    match pt.type with
    | .is_ =>
      let _ ← lexConsume
      let negate ← lexEat .not_
      let _ ← lexEat .null
      exprLoop n minPrec (.unop (if negate then .isNotNull else .isNull) lhs)
    | .not_ =>
      let _ ← lexConsume
      match (← lexPeek).type with
      | .like =>
        let _ ← lexConsume
        let pat ← parseExpr n 5
        exprLoop n minPrec (.binop .notLike lhs pat)
      | .ilike =>
        let _ ← lexConsume
        let pat ← parseExpr n 5
        exprLoop n minPrec (.binop .notIlike lhs pat)
      | .between =>
        let _ ← lexConsume
        let range ← parseRange n
        exprLoop n minPrec (.binop .notBetween lhs range)
      | .in_ =>
        let _ ← lexConsume
        let items ← parseItems n
        exprLoop n minPrec (.binop .notIn lhs items)
      | _ =>
        -- the operand on the left is lost
        let rhs ← parsePrimary n
        exprLoop n minPrec (.unop .not_ rhs)
    | .between =>
      let _ ← lexConsume
      let range ← parseRange n
      exprLoop n minPrec (.binop .between lhs range)
    | .in_ =>
      let _ ← lexConsume
      let items ← parseItems n
      exprLoop n minPrec (.binop .in_ lhs items)
    | _ =>
      let prec := binopPrec pt.type
      if prec < 0 ∨ prec < minPrec then return lhs
      else
        let _ ← lexConsume
        let rhs ← parseExpr n (prec + 1)
        exprLoop n minPrec (.binop (tktypeToOp pt.type) lhs rhs)

/-- The bounds of BETWEEN. -/
def parseRange : Nat → Parse F (Expr F)
  | 0 => fun _ => none
  | n + 1 => do
    let low ← parseExpr n 6
    let _ ← lexEat .and_
    let high ← parseExpr n 6
    return .binop .and_ low high

/-- What follows IN: a list or a subquery. -/
def parseItems : Nat → Parse F (Expr F)
  | 0 => fun _ => none
  | n + 1 => do
    let _ ← lexEat .lparen
    let items ← do
      if ← peekQuery then Expr.subquery <$> parseStmt n
      else if ← lexPeekIs .rparen then pure (Expr.list [])
      else Expr.list <$> parseList n
    let _ ← lexEat .rparen
    return items

def parseSelectExpr : Nat → Parse F (Expr F)
  | 0 => fun _ => none
  | n + 1 => do
    if ← lexEat .star then return .star none
    let save ← get
    if ← lexPeekIs .ident then
      let id ← lexConsume
      if ← lexEat .dot then
        if ← lexEat .star then return .star (some id.text)
      set save
    let base ← parseExpr n 0
    if ← lexEat .as_ then
      let alias_ ← lexConsume
      if alias_.type = .ident ∨ alias_.type = .string then return .aliased base alias_.text
      return base
    if ← lexPeekIs .ident then return .aliased base (← lexConsume).text
    return base

def parseSelectList : Nat → Parse F (List (Expr F))
  | 0 => fun _ => none
  | n + 1 => do
    let e ← parseSelectExpr n
    if ← lexEat .comma then return e :: (← parseSelectList n)
    return [e]

/-- The derived table after its opening parenthesis; anything else up to `)` is passed over. -/
def parseDerived : Nat → Parse F (Option (Stmt F))
  | 0 => fun _ => none
  | n + 1 => do
    if ← peekQuery then some <$> parseStmt n
    else
      skipToParen
      return none

def parseFrom : Nat → Parse F (List (FromItem F))
  | 0 => fun _ => none
  | n + 1 => do
    let item : Option Bytes × Option (Stmt F) ←
      if ← lexEat .lparen then do
        let sub ← parseDerived n
        if !(← lexEat .rparen) then lexSetError "syntax error: expected ')' in FROM"
        pure (none,sub)
      else do
        if !(← lexPeekIs .ident) then lexSetError "syntax error: expected table name in FROM"
        pure (some (← consumeIdent),none)
    let aliasName ← aliasOf
    let here : FromItem F := ⟨item.1,aliasName,.inner,none,item.2⟩
    if ← lexEat .comma then return here :: (← parseFrom n)
    return [here]

def parseJoins : Nat → Parse F (List (FromItem F))
  | 0 => fun _ => none
  | n + 1 => do
    match ← joinKind with
    | none => return []
    | some jt =>
      if !(← lexEat .join_) then return []
      let item : Option Bytes × Option (Stmt F) ←
        if ← lexEat .lparen then do
          let sub ← parseDerived n
          let _ ← lexEat .rparen
          pure (none,sub)
        else pure (some (← consumeIdent),none)
      let aliasName ← aliasOf
      let on ← if ← lexEat .on_ then some <$> parseExpr n 0 else pure none
      return ⟨item.1,aliasName,jt,on,item.2⟩ :: (← parseJoins n)

/-- The body of SELECT. -/
def parseSelect : Nat → Parse F (SelectStmt F)
  | 0 => fun _ => none
  | n + 1 => do
    let distinct ← lexEat .distinct
    if !distinct then
      let _ ← lexEat .all_
    let selectList ← parseSelectList n
    let tables ← if ← lexEat .from_ then parseFrom n else pure []
    let joins ← parseJoins n
    let where_ ← if ← lexEat .where_ then some <$> parseExpr n 0 else pure none
    let groupBy ← if ← lexEat .group then do
        let _ ← lexEat .by_
        parseList n
      else pure []
    let having ← if ← lexEat .having_ then some <$> parseExpr n 0 else pure none
    let orderBy ← if ← lexEat .order then do
        let _ ← lexEat .by_
        parseOrder n true
      else pure []
    let limit ← parseCount .limit (-1)
    let offset ← parseCount .offset 0
    parsePaging
    return ⟨[],selectList,distinct,tables ++ joins,where_,groupBy,having,orderBy,limit,offset⟩

def parseCtes : Nat → Parse F (List (CTE F))
  | 0 => fun _ => none
  | n + 1 => do
    let name ← consumeIdent
    if ← lexEat .lparen then
      skipToParen
      let _ ← lexEat .rparen
    let _ ← lexEat .as_
    let _ ← lexEat .lparen
    let body ← parseStmt n
    let _ ← lexEat .rparen
    let cte : CTE F := ⟨name,match body.body with | .select sel => some sel | _ => none⟩
    if ← lexEat .comma then return cte :: (← parseCtes n)
    return [cte]

def parseWith : Nat → Parse F (Stmt F)
  | 0 => fun _ => none
  | n + 1 => do
    let _ ← lexEat .recursive
    let ctes ← parseCtes n
    if !(← lexEat .select) then return ⟨.unknown,some "expected SELECT after WITH"⟩
    let sel ← parseSelect n
    return ⟨.select {sel with ctes := ctes},none⟩

def parseUpdate : Nat → Parse F (Stmt F)
  | 0 => fun _ => none
  | n + 1 => do
    let tbl ← lexConsume
    if tbl.type ≠ .ident then return ⟨.unknown,some "UPDATE: expected table name"⟩
    if !(← lexEat .set_) then return ⟨.unknown,some "UPDATE: expected SET"⟩
    match ← parseSets 64 with
    | .error msg => return ⟨.unknown,some msg⟩
    | .ok sets =>
      let where_ ← if ← lexEat .where_ then some <$> parseExpr n 0 else pure none
      return ⟨.update (tbl.text.take 127) sets where_,none⟩

def parseDelete : Nat → Parse F (Stmt F)
  | 0 => fun _ => none
  | n + 1 => do
    let _ ← lexEat .from_
    let tbl ← lexConsume
    if tbl.type ≠ .ident then return ⟨.unknown,some "DELETE: expected table name"⟩
    let where_ ← if ← lexEat .where_ then some <$> parseExpr n 0 else pure none
    return ⟨.delete (tbl.text.take 127) where_,none⟩

def parseStmt : Nat → Parse F (Stmt F)
  | 0 => fun _ => none
  | n + 1 => do
    let _ ← lexEat .semicolon
    if ← lexEat .with_ then parseWith n
    else if ← lexEat .select then
      let sel ← parseSelect n
      let s ← parseSetOps n ⟨.select sel,none⟩
      let l ← get
      return {s with error := s.error.or l.error}
    else if ← lexEat .update_ then parseUpdate n
    else if ← lexEat .delete_ then parseDelete n
    else if ← lexEat .begin_ then
      let _ ← lexEat .transaction
      return ⟨.begin_,none⟩
    else if ← lexEat .commit then return ⟨.commit,none⟩
    else if ← lexEat .rollback then return ⟨.rollback,none⟩
    else return ⟨.unknown,some "unsupported statement"⟩

/-- The chain of UNION, INTERSECT and EXCEPT, grouped from the left. -/
def parseSetOps : Nat → Stmt F → Parse F (Stmt F)
  | 0, _ => fun _ => none
  | n + 1, s => do
    match ← setOpAhead with
    | none => return s
    | some op =>
      let _ ← lexEat .select
      let sel ← parseSelect n
      parseSetOps n ⟨.setOp op s ⟨.select sel,none⟩,none⟩
end

/-- `sql_parse`. -/
def sqlParse (fuel : Nat) (query : Bytes) : Option (Stmt F) :=
  (parseStmt fuel ⟨lexAll F query,none⟩).map fun (s,l) =>
    let trailing := l.toks.dropWhile (·.type = .semicolon)
    let error := if trailing.isEmpty then l.error else l.error.or (some "syntax error: unexpected trailing tokens")
    {s with error := s.error.or error}

end

end Napastak.SqlParser
