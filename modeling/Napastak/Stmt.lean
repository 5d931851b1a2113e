import Napastak.Expr

/-! Statements of the SQL engine. Tables are named in FROM and JOIN items, derived tables, CTE
bodies, branches of set operations, subqueries of expressions and in UPDATE and DELETE. -/
namespace Napastak.Access
open Query

inductive JoinType where
  | inner | left | right | full | cross
  deriving DecidableEq, Repr

inductive SetOpType where
  | union | unionAll | intersect | except
  deriving DecidableEq, Repr

mutual
/-- CASE, window functions and the expressions with a statement inside. EXISTS is the function
`exists` on a `subquery`; a window keeps its arguments and its partition and order keys. -/
inductive Node (F : Type) where
  | subquery (subq : Stmt F)
  | inSubquery (neg : Bool) (left : Expr F (Node F)) (subq : Stmt F)
  | case (caseOp : Option (Expr F (Node F))) (whens thens : List (Expr F (Node F)))
      (elseExpr : Option (Expr F (Node F)))
  | window (spec : List (Expr F (Node F)))

structure FromItem (F : Type) where
  table : Option Bytes
  alias_ : Option Bytes
  joinType : JoinType
  on : Option (Expr F (Node F))
  subquery : Option (Stmt F)

/-- The body is missing where the text between the parentheses is no plain SELECT. -/
structure CTE (F : Type) where
  name : Bytes
  body : Option (SelectStmt F)

/-- An item of the select list carries its alias, one of ORDER BY whether it descends. -/
structure SelectStmt (F : Type) where
  ctes : List (CTE F)
  selectList : List (Expr F (Node F) × Option Bytes)
  distinct : Bool
  fromItems : List (FromItem F)
  where_ : Option (Expr F (Node F))
  groupBy : List (Expr F (Node F))
  having : Option (Expr F (Node F))
  orderBy : List (Expr F (Node F) × Bool)
  limit : Int
  offset : Int

inductive Stmt (F : Type) where
  | select (sel : SelectStmt F)
  | insert (table : Bytes)
  | setOp (setOp : SetOpType) (setLeft setRight : Stmt F)
  | update (table : Bytes) (where_ : Option (Expr F (Node F)))
  | delete (table : Bytes) (where_ : Option (Expr F (Node F)))
  | begin_
  | commit
  | rollback
end

/-- The expressions and WHERE clauses of statements. -/
abbrev SqlExpr (F : Type) := Expr F (Node F)

end Napastak.Access
