import Napastak.Exec
import Napastak.Own

/-! What the query endpoints let a user read. Whatever a SELECT keeps, and whatever the CTEs it
runs keep, comes from tables the user may read and passes their row filters. -/
namespace Napastak.Access
open Query

section
variable {F : Type}

/-- The SELECT branch of the access checks, skipped with access control off. -/
def selectAccess (g : Gateway F) (claims : AuthClaims) (sel : SelectStmt F) : Option (SelectStmt F) :=
  match g.rbac with
  | none => some sel
  | some _ => checkSelectAccess g claims sel

/-- The SELECT with `limit` for a limit that is missing or above the cap. -/
def SelectStmt.capped (sel : SelectStmt F) (cap limit : Int) : SelectStmt F :=
  if sel.limit < 0 ∨ sel.limit > cap then {sel with limit := limit} else sel

end

section
variable {F : Type} [Doubles F]

/-- POST /api/tables/query: the outcome, or a refusal. Transaction statements execute nothing here. -/
def hQuery (E : Engine F) (g : Gateway F) (claims : AuthClaims) (fuel : Nat) (reqLimit : Int) (stmt : Stmt F) :
    Option (Outcome F) :=
  match stmt with
  | .select sel =>
    (selectAccess g claims sel).map fun sel =>
      let restCap := if reqLimit > 0 ∧ reqLimit < 10000 then reqLimit else 10000
      execStmt E fuel none [] (.select (sel.capped restCap (restCap + 1)))
  | .insert table =>
    if checkTableAccess g claims table .tableWrite then some (execStmt E fuel none [] stmt) else none
  | .update table _ | .delete table _ =>
    if checkTableAccess g claims table .tableWrite && !(g.authEnabled && claims.role = roleViewer) then
      some (execStmt E fuel none [] stmt)
    else none
  | .setOp _ _ _ => some (execStmt E fuel none [] stmt)
  | .begin_ | .commit | .rollback => some (none,[])

/-- POST /api/query/named, SELECT only. -/
def hQueryNamed (E : Engine F) (g : Gateway F) (claims : AuthClaims) (fuel : Nat) (stmt : Stmt F) :
    Option (Outcome F) :=
  match stmt with
  | .select sel =>
    (selectAccess g claims sel).map fun sel => execStmt E fuel none [] (.select (sel.capped 10000 10000))
  | _ => none

/-- The PostgreSQL wire endpoint, past the catalog probes: no access control. -/
def apiPgExecute (E : Engine F) (fuel : Nat) (stmt : Stmt F) : Outcome F :=
  match stmt with
  | .begin_ | .commit | .rollback => (none,[])
  | .select sel => execStmt E fuel none [] (.select (sel.capped 10000 10000))
  | stmt => execStmt E fuel none [] stmt

end

section
variable {F : Type}

/-- A policy of the user's role allows the action on the table, unless access control is off or the user
is an administrator. -/
def Gateway.MayDo (g : Gateway F) (claims : AuthClaims) (action : RbacAction) (table : Bytes) : Prop :=
  ∀ s, g.rbac = some s → g.authEnabled = true → s.enabled = true → claims.role ≠ roleAdmin →
    ∃ p ∈ s.policies, p.role = claims.role ∧ p.covers g.fnmatch table = true ∧ p.allows action = true

theorem checkTableAccessIff (g : Gateway F) (claims : AuthClaims) (table : Bytes) (action : RbacAction) :
    checkTableAccess g claims table action = true ↔ g.MayDo claims action table := by
  unfold checkTableAccess Gateway.MayDo
  cases h : g.rbac with
  | none => simp
  | some s =>
    cases auth : g.authEnabled <;> cases on : s.enabled <;> by_cases admin : claims.role = roleAdmin <;>
      simp [rbacCheck,on,admin]

/-- The user's row filter for a table, where there is one and it parses. -/
def Gateway.rowFilter (g : Gateway F) (claims : AuthClaims) (table : Bytes) : Option (SqlExpr F) :=
  match g.rbac.bind fun s => rbacRowFilter g.fnmatch s claims table with
  | none | some [] => none
  | some rls => rlsExpr g rls

/-- Kept by the statement itself or by CTEs. -/
def Kept.Direct (k : Kept F) : Prop := ∀ p ∈ k.path, p = .cte

/-- What the CTEs of a SELECT kept was kept by the body of one of them. -/
theorem addCtesKept {run : VTReg → Stmt F → Outcome F} {k : Kept F} : ∀ {ctes : List (CTE F)} {vt : VTReg},
    k ∈ (addCtes run vt ctes).2 → ∃ cte ∈ ctes, ∃ body, cte.body = some body ∧ ∃ vt inner,
      inner ∈ (run vt (.select body)).2 ∧ k = inner.below .cte
  | [], _, h => absurd h List.not_mem_nil
  | ⟨name,none⟩ :: rest, vt, h => by
    obtain ⟨cte,mem,found⟩ := @addCtesKept _ _ rest _ h
    exact ⟨cte,List.mem_cons_of_mem _ mem,found⟩
  | ⟨name,some body⟩ :: rest, vt, h => by
    rcases List.mem_append.mp h with here | there
    · obtain ⟨inner,mem,same⟩ := List.mem_map.mp here
      exact ⟨_,List.mem_cons_self ..,body,rfl,vt,inner,mem,same.symm⟩
    · obtain ⟨cte,mem,found⟩ := @addCtesKept _ _ rest _ there
      exact ⟨cte,List.mem_cons_of_mem _ mem,found⟩

theorem loadItemBase {E : Engine F} {run : VTReg → Stmt F → Outcome F} {vt : VTReg} {w : Option (SqlExpr F)}
    {item : FromItem F} {t : Bytes} (h : (loadItem E run vt w item).1.base = some t) :
    item.table = some t ∧ t ≠ [] := by
  unfold loadItem at h
  split at h
  · dsimp only at h
    split at h <;> contradiction
  · split at h
    · contradiction
    rename_i table named
    unfold loadTbl at h
    split at h
    · contradiction
    cases known : E.db.catalog table with
    | none => rw [known] at h; contradiction
    | some cols =>
      rw [known] at h
      cases Option.some.inj h
      exact ⟨named,fun empty => by rw [empty,E.db.named] at known; contradiction⟩

theorem loadItemPath {E : Engine F} {run : VTReg → Stmt F → Outcome F} {vt : VTReg} {w : Option (SqlExpr F)}
    {item : FromItem F} {k : Kept F} (h : k ∈ (loadItem E run vt w item).2) : ¬ k.Direct := by
  unfold loadItem at h
  split at h
  · obtain ⟨inner,_,same⟩ := List.mem_map.mp h
    subst same
    exact fun direct => nomatch direct .derived (List.mem_cons_self ..)
  · split at h <;> exact absurd h List.not_mem_nil

end

section
variable {F : Type} [Doubles F]

/-- Every row the WHERE lets through makes the condition true. -/
def Entails (where_ : Option (SqlExpr F)) (e : SqlExpr F) : Prop :=
  ∀ env ctx, passes env ctx where_ = true → vt (evalVal env (some ctx) e) = true

theorem applyRlsPasses {g : Gateway F} {where_ : Option (SqlExpr F)} {rlsSql : Bytes} {rls : SqlExpr F}
    (parsed : rlsExpr g rlsSql = some rls) (env : Env F (Node F)) (ctx : JoinCtx) :
    passes env ctx (applyRlsToSelect g where_ rlsSql) =
      (passes env ctx where_ && vt (evalVal env (some ctx) rls)) := by
  unfold applyRlsToSelect
  rw [parsed]
  cases where_ with
  | none => simp [passes]
  | some w => simp [passes,vtAnd]

theorem applyRlsKeeps {g : Gateway F} {where_ : Option (SqlExpr F)} {rlsSql : Bytes} {e : SqlExpr F}
    (h : Entails where_ e) : Entails (applyRlsToSelect g where_ rlsSql) e := by
  cases parsed : rlsExpr g rlsSql with
  | none =>
    unfold applyRlsToSelect
    rw [parsed]
    exact h
  | some rls =>
    intro env ctx passed
    rw [applyRlsPasses parsed,Bool.and_eq_true] at passed
    exact h env ctx passed.1

/-- What the check of one FROM item establishes: its table may be read, the WHERE it leaves behind is
stronger than the one before and carries the filter. -/
theorem checkFromItemSpec {g : Gateway F} {claims : AuthClaims} {w w' : Option (SqlExpr F)} {item : FromItem F}
    (h : checkFromItem g claims w item = some w') :
    (∀ e, Entails w e → Entails w' e) ∧
      ∀ t, item.table = some t → t ≠ [] →
        g.MayDo claims .tableRead t ∧ ∀ e, g.rowFilter claims t = some e → Entails w' e := by
  unfold checkFromItem at h
  split at h
  · rename_i none_
    cases Option.some.inj h
    exact ⟨fun _ h => h,fun t some_ => by rw [none_] at some_; contradiction⟩
  · rename_i empty
    cases Option.some.inj h
    exact ⟨fun _ h => h,fun t some_ ne => by rw [empty] at some_; exact absurd (Option.some.inj some_).symm ne⟩
  · rename_i t _ named
    split at h
    swap
    · contradiction
    rename_i allowed
    rw [named]
    have may := (checkTableAccessIff ..).mp allowed
    split at h
    · rename_i none_
      cases Option.some.inj h
      refine ⟨fun _ h => h,fun t' same _ => ?_⟩
      cases Option.some.inj same
      exact ⟨may,fun e filter => by unfold Gateway.rowFilter at filter; rw [none_] at filter; contradiction⟩
    · rename_i empty
      cases Option.some.inj h
      refine ⟨fun _ h => h,fun t' same _ => ?_⟩
      cases Option.some.inj same
      exact ⟨may,fun e filter => by unfold Gateway.rowFilter at filter; rw [empty] at filter; contradiction⟩
    · rename_i rls ne filtered
      cases Option.some.inj h
      refine ⟨fun _ => applyRlsKeeps,fun t' same _ => ?_⟩
      cases Option.some.inj same
      refine ⟨may,fun e filter env ctx passed => ?_⟩
      unfold Gateway.rowFilter at filter
      rw [filtered] at filter
      have parsed : rlsExpr g rls = some e := by
        cases rls with
        | nil => exact absurd rfl ne
        | cons c rls => exact filter
      rw [applyRlsPasses parsed,Bool.and_eq_true] at passed
      exact passed.2

/-- The tables a SELECT names itself may be read, its WHERE carries their filters, and so on in the
bodies of its CTEs. -/
inductive Guarded (g : Gateway F) (claims : AuthClaims) : SelectStmt F → Prop where
  | intro {sel : SelectStmt F}
      (tables : ∀ item ∈ sel.fromItems, ∀ t, item.table = some t → t ≠ [] →
        g.MayDo claims .tableRead t ∧ ∀ e, g.rowFilter claims t = some e → Entails sel.where_ e)
      (bodies : ∀ cte ∈ sel.ctes, ∀ body, cte.body = some body → Guarded g claims body) :
      Guarded g claims sel

theorem checkFromSpec {g : Gateway F} {claims : AuthClaims} {w w' : Option (SqlExpr F)} :
    ∀ {items : List (FromItem F)}, items.foldlM (checkFromItem g claims) w = some w' →
      (∀ e, Entails w e → Entails w' e) ∧
        ∀ item ∈ items, ∀ t, item.table = some t → t ≠ [] →
          g.MayDo claims .tableRead t ∧ ∀ e, g.rowFilter claims t = some e → Entails w' e
  | [], h => by
    cases Option.some.inj h
    exact ⟨fun _ h => h,nofun⟩
  | item :: items, h => by
    rw [List.foldlM_cons] at h
    obtain ⟨w₁,first,rest⟩ := Option.bind_eq_some_iff.mp h
    obtain ⟨keepFirst,here⟩ := checkFromItemSpec first
    obtain ⟨keepRest,there⟩ := checkFromSpec rest
    refine ⟨fun e h => keepRest e (keepFirst e h),fun item' mem t named ne => ?_⟩
    rcases List.mem_cons.mp mem with rfl | mem
    · obtain ⟨may,filter⟩ := here t named ne
      exact ⟨may,fun e h => keepRest e (filter e h)⟩
    · exact there item' mem t named ne

mutual
theorem checkSelectGuards {g : Gateway F} {claims : AuthClaims} :
    ∀ {sel sel' : SelectStmt F}, checkSelectAccess g claims sel = some sel' → Guarded g claims sel'
  | ⟨ctes,selectList,distinct,fromItems,where_,groupBy,having,orderBy,limit,offset⟩, sel', h => by
    rw [checkSelectAccess] at h
    split at h
    · contradiction
    rename_i w checked
    split at h
    · contradiction
    rename_i cs bodies
    cases Option.some.inj h
    exact .intro (checkFromSpec checked).2 (checkCtesGuard bodies)

theorem checkCtesGuard {g : Gateway F} {claims : AuthClaims} :
    ∀ {ctes ctes' : List (CTE F)}, checkCtes g claims ctes = some ctes' →
      ∀ cte ∈ ctes', ∀ body, cte.body = some body → Guarded g claims body
  | [], _, h => by
    cases Option.some.inj h
    exact nofun
  | ⟨name,none⟩ :: rest, _, h => by
    rw [checkCtes] at h
    obtain ⟨rest',checked,same⟩ := Option.map_eq_some_iff.mp h
    subst same
    intro cte mem body some_
    rcases List.mem_cons.mp mem with rfl | mem
    · contradiction
    · exact checkCtesGuard checked cte mem body some_
  | ⟨name,some b⟩ :: rest, _, h => by
    rw [checkCtes] at h
    split at h
    · contradiction
    rename_i b' first
    obtain ⟨rest',checked,same⟩ := Option.map_eq_some_iff.mp h
    subst same
    intro cte mem body some_
    rcases List.mem_cons.mp mem with rfl | mem
    · cases Option.some.inj some_
      exact checkSelectGuards first
    · exact checkCtesGuard checked cte mem body some_
end

/-- The combination comes from tables the user may read, and passes the filters of all of them. A row
passes a filter by itself that reads only columns of its table which no table before has too. -/
structure Cleared (g : Gateway F) (claims : AuthClaims) (k : Kept F) : Prop where
  checked : ∀ t, some t ∈ k.base → g.MayDo claims .tableRead t
  filtered : ∀ t, some t ∈ k.base → ∀ e, g.rowFilter claims t = some e → vt (evalVal k.env (some k.ctx) e) = true
  alone : ∀ before t after, k.ctx = before ++ t :: after → t.row.isSome = true →
    ∀ name, k.base[before.length]? = some (some name) → ∀ e, g.rowFilter claims name = some e →
      e.condition = true → (∀ c ∈ e.columns, Own before t c) → vt (evalVal k.env (some [t]) e) = true

theorem clearedBy {g : Gateway F} {claims : AuthClaims} {k : Kept F}
    (checked : ∀ t, some t ∈ k.base → g.MayDo claims .tableRead t)
    (filtered : ∀ t, some t ∈ k.base → ∀ e, g.rowFilter claims t = some e →
      vt (evalVal k.env (some k.ctx) e) = true) : Cleared g claims k :=
  ⟨checked,filtered,fun before t after split row name at_ e filter condition own => by
    rw [← conditionOwn k.env after row condition own,← split]
    exact filtered name (List.mem_of_getElem? at_) e filter⟩

/-- With access control off nothing is restricted. -/
theorem clearedOpen {g : Gateway F} {claims : AuthClaims} (off : g.rbac = none) (k : Kept F) :
    Cleared g claims k := by
  refine clearedBy (fun t _ s on => ?_) (fun t _ e filter => ?_)
  · rw [off] at on
    contradiction
  · unfold Gateway.rowFilter at filter
    rw [off] at filter
    contradiction

/-- One SELECT: its own combinations are cleared when those of the CTE bodies are. -/
theorem execSelectCleared {E : Engine F} {g : Gateway F} {claims : AuthClaims} {env : Env F (Node F)}
    {run : VTReg → Stmt F → Outcome F} {vt : VTReg} {sel : SelectStmt F} (guarded : Guarded g claims sel)
    (bodies : ∀ cte ∈ sel.ctes, ∀ body, cte.body = some body → ∀ vt, ∀ k ∈ (run vt (.select body)).2,
      k.Direct → Cleared g claims k) :
    ∀ k ∈ (execSelect E env run vt sel).2, k.Direct → Cleared g claims k := by
  intro k mem direct
  have inCtes : ∀ vt, k ∈ (addCtes run vt sel.ctes).2 → Cleared g claims k := fun vt here => by
    obtain ⟨cte,from_,body,some_,vt,inner,kept,same⟩ := addCtesKept here
    subst same
    have inside := bodies cte from_ body some_ vt inner kept fun p hp => direct p (List.mem_cons_of_mem _ hp)
    exact clearedBy inside.checked inside.filtered
  unfold execSelect at mem
  dsimp only at mem
  split at mem
  · exact inCtes _ mem
  rcases List.mem_append.mp mem with inner | own
  · rcases List.mem_append.mp inner with here | there
    · exact inCtes _ here
    · obtain ⟨loaded,from_,item⟩ := List.mem_flatMap.mp there
      obtain ⟨item',_,same⟩ := List.mem_map.mp from_
      subst same
      exact absurd direct (loadItemPath item)
  · obtain ⟨ctx,kept,same⟩ := List.mem_map.mp own
    subst same
    have passed : passes env ctx sel.where_ = true := (List.mem_filter.mp kept).2
    cases guarded with
    | intro tables _ =>
      have source : ∀ t, some t ∈ ((sel.fromItems.map (loadItem E run (addCtes run vt sel.ctes).1 sel.where_)).map
          (·.1)).map (·.base) → ∃ item ∈ sel.fromItems, item.table = some t ∧ t ≠ [] := fun t mem => by
        simp only [List.map_map,List.mem_map,Function.comp] at mem
        obtain ⟨item,mem,base⟩ := mem
        exact ⟨item,mem,loadItemBase base⟩
      refine clearedBy (fun t mem => ?_) (fun t mem e filter => ?_)
      · obtain ⟨item,mem,named,ne⟩ := source t mem
        exact (tables item mem t named ne).1
      · obtain ⟨item,mem,named,ne⟩ := source t mem
        exact (tables item mem t named ne).2 e filter env ctx passed

/-- Whatever the fuel, the outer row and the CTEs in scope. -/
theorem guardedCleared {E : Engine F} {g : Gateway F} {claims : AuthClaims} {outer : Option JoinCtx} :
    ∀ {fuel : Nat} {sel : SelectStmt F}, Guarded g claims sel → ∀ vt,
      ∀ k ∈ (execStmt E fuel outer vt (.select sel)).2, k.Direct → Cleared g claims k
  | 0, _, _, _, k, mem, _ => absurd mem (by rw [execStmt]; exact List.not_mem_nil)
  | fuel + 1, sel, guarded, vt, k, mem, direct => by
    rw [execStmt] at mem
    refine execSelectCleared guarded (fun cte here body some_ vt => ?_) k mem direct
    cases guarded with
    | intro _ bodies => exact guardedCleared (bodies cte here body some_) vt

theorem cappedGuarded {g : Gateway F} {claims : AuthClaims} {sel : SelectStmt F} (guarded : Guarded g claims sel)
    (cap limit : Int) : Guarded g claims (sel.capped cap limit) := by
  unfold SelectStmt.capped
  split
  · cases guarded with
    | intro tables bodies => exact .intro tables bodies
  · exact guarded

/-- What a handler that did not refuse owes: for SELECT cleared combinations, for the others a grant to
write. Derived tables, branches of set operations and subqueries stay outside. -/
def Governed (g : Gateway F) (claims : AuthClaims) (stmt : Stmt F) (kept : List (Kept F)) : Prop :=
  match stmt with
  | .select _ => ∀ k ∈ kept, k.Direct → Cleared g claims k
  | .insert table => g.MayDo claims .tableWrite table ∧ kept = []
  | .update table _ | .delete table _ =>
    g.MayDo claims .tableWrite table ∧ (g.authEnabled = true → claims.role ≠ roleViewer) ∧
      ∀ k ∈ kept, k.base = [some table]
  | _ => True

theorem selectCleared {E : Engine F} {g : Gateway F} {claims : AuthClaims} {sel sel' : SelectStmt F}
    (access : selectAccess g claims sel = some sel') (fuel : Nat) (cap limit : Int) :
    ∀ k ∈ (execStmt E fuel none [] (.select (sel'.capped cap limit))).2, k.Direct → Cleared g claims k := by
  intro k mem direct
  unfold selectAccess at access
  split at access
  · exact clearedOpen (by assumption) k
  · exact guardedCleared (cappedGuarded (checkSelectGuards access) cap limit) [] k mem direct

theorem dmlBase {E : Engine F} {env : Env F (Node F)} {key table : Bytes} {w : Option (SqlExpr F)} {k : Kept F}
    (h : k ∈ (execDml E env key table w).2) : k.base = [some table] := by
  unfold execDml at h
  split at h
  · exact absurd h List.not_mem_nil
  split at h
  · obtain ⟨ctx,_,same⟩ := List.mem_map.mp h
    subst same
    rfl
  · exact absurd h List.not_mem_nil

theorem dmlGoverned {E : Engine F} {g : Gateway F} {claims : AuthClaims} {fuel : Nat} {table : Bytes}
    {w : Option (SqlExpr F)} {out : Outcome F} {stmt : Stmt F} (dml : stmt = .update table w ∨ stmt = .delete table w)
    (h : (if checkTableAccess g claims table .tableWrite && !(g.authEnabled && claims.role = roleViewer) then
      some (execStmt E fuel none [] stmt) else none) = some out) :
    g.MayDo claims .tableWrite table ∧ (g.authEnabled = true → claims.role ≠ roleViewer) ∧
      ∀ k ∈ out.2, k.base = [some table] := by
  split at h
  swap
  · contradiction
  rename_i allowed
  cases Option.some.inj h
  rw [Bool.and_eq_true] at allowed
  refine ⟨(checkTableAccessIff ..).mp allowed.1,fun auth viewer => ?_,fun k mem => ?_⟩
  · simp [auth,viewer] at allowed
  · cases fuel with
    | zero =>
      rw [execStmt] at mem
      exact absurd mem List.not_mem_nil
    | succ fuel =>
      rcases dml with same | same <;> subst same <;> rw [execStmt] at mem <;> exact dmlBase mem

end

/-- Two accounts, and a SELECT that gives the columns and cells it keeps. -/
def bank : Engine Int where
  db := {
    catalog := fun t => if t = ascii "accounts" then some [ascii "id",ascii "owner"] else none
    rows := fun _ _ => [[some (ascii "1"),some (ascii "ann")],[some (ascii "2"),some (ascii "bob")]]
    dmlRows := fun _ => some [[some (ascii "1"),some (ascii "ann")],[some (ascii "2"),some (ascii "bob")]]
    named := rfl }
  func := fun _ _ _ _ _ => vnull
  arith := fun _ _ _ => vnull
  neg := fun _ => vnull
  window := fun _ _ => vnull
  emit := fun _ _ tables kept =>
    ⟨tables.flatMap fun t => t.schema.getD [],kept.map fun ctx => ctx.flatMap fun t => t.row.getD []⟩

/-- `owner = 'name'`. -/
def ownedBy (name : String) : SqlExpr Int := .binop .eq (.col none (ascii "owner")) (.str (ascii name))

/-- `SELECT * FROM accounts`. -/
def allAccounts (where_ : Option (SqlExpr Int)) : SelectStmt Int :=
  ⟨[],[(.star,none)],false,[⟨some (ascii "accounts"),none,.inner,none,none⟩],where_,[],none,[],-1,0⟩

/-- Analysts do these things to accounts, and see those of ann. -/
def annsPolicy (actions : UInt32) : Gateway Int where
  rbac := some ⟨true,[⟨roleAnalyst,ascii "accounts",actions,ascii "owner = 'ann'"⟩]⟩
  authEnabled := true
  fnmatch := fun pattern name => pattern = name
  sqlParse := fun text =>
    if text = ascii "SELECT 1 WHERE owner = 'ann'" then
      some (.select ⟨[],[(.int 1 (some (ascii "1")),none)],false,[],some (ownedBy "ann"),[],none,[],-1,0⟩)
    else none

def analyst : AuthClaims := ⟨ascii "carol",roleAnalyst⟩

end Napastak.Access
