import Napastak.Stmt

/-! Table grants and row filters: the policies of a role, the check of one table and the walk
over a SELECT that checks its tables and puts the row filters into its WHERE. -/
namespace Napastak.Access
open Query

/-- A token carries its role as a number; three of them have names. -/
abbrev AuthRole := Int
def roleAdmin : AuthRole := 0
def roleAnalyst : AuthRole := 1
def roleViewer : AuthRole := 2

structure AuthClaims where
  userId : Bytes
  role : AuthRole
  deriving DecidableEq, Repr

inductive RbacAction where
  | tableRead | tableWrite
  deriving DecidableEq, Repr

def RbacAction.bit : RbacAction → UInt32
  | .tableRead => 1
  | .tableWrite => 2

structure RbacPolicy where
  role : AuthRole
  tablePattern : Bytes
  allowedActions : UInt32
  rowFilter : Bytes
  deriving DecidableEq, Repr

/-- The policies in the order of their ids. -/
structure RbacStore where
  enabled : Bool
  policies : List RbacPolicy

/-- `fnmatch(pattern, name, 0)` or the pattern `*`. -/
def RbacPolicy.covers (fnmatch : Bytes → Bytes → Bool) (p : RbacPolicy) (tableName : Bytes) : Bool :=
  fnmatch p.tablePattern tableName || p.tablePattern = ascii "*"

def RbacPolicy.allows (p : RbacPolicy) (action : RbacAction) : Bool := p.allowedActions &&& action.bit ≠ 0

def rbacCheck (fnmatch : Bytes → Bytes → Bool) (s : RbacStore) (claims : AuthClaims) (action : RbacAction)
    (tableName : Bytes) : Bool :=
  !s.enabled || claims.role = roleAdmin ||
    (s.policies.filter fun p => p.role = claims.role).any fun p => p.covers fnmatch tableName && p.allows action

/-- Neither a quote nor a backslash. -/
def safeUserId (uid : Bytes) : Bool := uid.all fun c => c ≠ 39 && c ≠ 92

def userToken : Bytes := ascii "{user_id}"

/-- The filter with the user's id for its token, cut at 1020 bytes; an id that would not fit is left out. -/
def substUser (uid : Bytes) (filter : Bytes) (out : Bytes) : Bytes :=
  match filter with
  | [] => out
  | c :: rest =>
    if out.length ≥ 1020 then out
    else if userToken.isPrefixOf (c :: rest) then
      substUser uid (rest.drop 8) (if out.length + uid.length < 1020 then out ++ uid else out)
    else substUser uid rest (out ++ [c])
termination_by filter.length
decreasing_by all_goals simp_wf <;> omega

def rbacRowFilter (fnmatch : Bytes → Bytes → Bool) (s : RbacStore) (claims : AuthClaims) (tableName : Bytes) :
    Option Bytes :=
  if !s.enabled || claims.role = roleAdmin then none
  else
    match (s.policies.filter fun p => p.role = claims.role ∧ p.rowFilter ≠ []).find? fun p =>
        p.covers fnmatch tableName with
    | none => none
    | some p =>
      if p.rowFilter.tails.any fun t => userToken.isPrefixOf t then
        if safeUserId claims.userId then some (substUser claims.userId p.rowFilter []) else none
      else some p.rowFilter

/-- What the handlers read besides the request: `rbac` is absent with access control switched off, and
`sqlParse` gives nothing on a text with a syntax error. -/
structure Gateway (F : Type) where
  rbac : Option RbacStore
  authEnabled : Bool
  fnmatch : Bytes → Bytes → Bool
  sqlParse : Bytes → Option (Stmt F)

section
variable {F : Type}

def checkTableAccess (g : Gateway F) (claims : AuthClaims) (tableName : Bytes) (action : RbacAction) : Bool :=
  match g.rbac with
  | none => true
  | some s => !g.authEnabled || rbacCheck g.fnmatch s claims action tableName

/-- The WHERE of the statement the filter's text is wrapped in; the wrapper's buffer holds 1279 bytes. -/
def rlsExpr (g : Gateway F) (rlsSql : Bytes) : Option (SqlExpr F) :=
  match g.sqlParse ((ascii "SELECT 1 WHERE " ++ rlsSql).take 1279) with
  | some (.select tmp) => tmp.where_
  | _ => none

/-- A filter that does not parse is only logged. -/
def applyRlsToSelect (g : Gateway F) (where_ : Option (SqlExpr F)) (rlsSql : Bytes) : Option (SqlExpr F) :=
  match rlsExpr g rlsSql with
  | none => where_
  | some rls =>
    match where_ with
    | none => some rls
    | some w => some (.binop .and w rls)

/-- One FROM item: the WHERE with its table's filter, or a refusal. -/
def checkFromItem (g : Gateway F) (claims : AuthClaims) (where_ : Option (SqlExpr F)) (item : FromItem F) :
    Option (Option (SqlExpr F)) :=
  match item.table with
  | none | some [] => some where_
  | some t =>
    if checkTableAccess g claims t .tableRead then
      match g.rbac.bind fun s => rbacRowFilter g.fnmatch s claims t with
      | none | some [] => some where_
      | some rls => some (applyRlsToSelect g where_ rls)
    else none

mutual
/-- The SELECT as it is executed, or a refusal. -/
def checkSelectAccess (g : Gateway F) (claims : AuthClaims) : SelectStmt F → Option (SelectStmt F)
  | ⟨ctes,selectList,distinct,fromItems,where_,groupBy,having,orderBy,limit,offset⟩ =>
    match fromItems.foldlM (checkFromItem g claims) where_ with
    | none => none
    | some w =>
      match checkCtes g claims ctes with
      | none => none
      | some cs => some ⟨cs,selectList,distinct,fromItems,w,groupBy,having,orderBy,limit,offset⟩

def checkCtes (g : Gateway F) (claims : AuthClaims) : List (CTE F) → Option (List (CTE F))
  | [] => some []
  | ⟨name,none⟩ :: rest => (checkCtes g claims rest).map (⟨name,none⟩ :: ·)
  | ⟨name,some body⟩ :: rest =>
    match checkSelectAccess g claims body with
    | none => none
    | some b => (checkCtes g claims rest).map (⟨name,some b⟩ :: ·)
end

end

end Napastak.Access
