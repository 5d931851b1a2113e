import Napastak.Where

/-! Conditions over the columns of one table. In a row combination they say of that table's row
what they say of the row by itself, as long as no table before it answers to the same columns. -/
namespace Napastak.Query

section
variable {F X : Type}

/-- The column an operand reads. -/
def Expr.column : Expr F X → List (Option Bytes × Bytes)
  | .col table name => [(table,name)]
  | _ => []

/-- The columns a condition reads. -/
def Expr.columns : Expr F X → List (Option Bytes × Bytes)
  | .unop .not e => e.columns
  | .unop _ e => e.column
  | .binop .and l r | .binop .or l r => l.columns ++ r.columns
  | .binop _ l r => l.column ++ r.column
  | .between _ e lo hi => e.column ++ lo.column ++ hi.column
  | .inList _ e items => e.column ++ items.flatMap Expr.column
  | e => e.column

def JoinTable.has (t : JoinTable) (name : Bytes) : Bool := (t.cols.getD []).any fun n => strcasecmp n name = 0

/-- The table answers to the column and none before it does. -/
def Own (before : JoinCtx) (t : JoinTable) (c : Option Bytes × Bytes) : Prop :=
  (t.named c.1 = true ∧ t.has c.2 = true) ∧ ∀ b ∈ before, ¬ (b.named c.1 = true ∧ b.has c.2 = true)

theorem cellHas {t : JoinTable} {name : Bytes} (row : t.row.isSome = true) :
    (t.cell name).isSome = t.has name := by
  obtain ⟨cols,row',tname,alias_⟩ := t
  obtain ⟨r,rfl⟩ := Option.isSome_iff_exists.mp row
  cases cols with
  | none => rfl
  | some cols => simp [JoinTable.cell,JoinTable.has,List.findIdx?_isSome]

theorem cellLacks {t : JoinTable} {name : Bytes} (lacks : t.has name = false) : t.cell name = none := by
  obtain ⟨cols,row,tname,alias_⟩ := t
  cases cols <;> cases row <;> simp_all [JoinTable.cell,JoinTable.has,List.findIdx?_eq_none_iff]

theorem jctxOwn {before : JoinCtx} {t : JoinTable} (after : JoinCtx) {c : Option Bytes × Bytes} (row : t.row.isSome = true)
    (own : Own before t c) :
    jctxCol (some (before ++ t :: after)) c.1 c.2 = jctxCol (some [t]) c.1 c.2 := by
  obtain ⟨⟨named,has⟩,first⟩ := own
  obtain ⟨cell,found⟩ := Option.isSome_iff_exists.mp ((cellHas row).trans has)
  have missed : before.findSome? (fun t => if t.named c.1 then t.cell c.2 else none) = none := by
    refine List.findSome?_eq_none_iff.mpr fun b mem => ?_
    split
    · rename_i answers
      exact cellLacks (Bool.eq_false_iff.mpr fun has => first b mem ⟨answers,has⟩)
    · rfl
  simp [jctxCol,List.findSome?_append,missed,named,found]

variable [Doubles F]

theorem operandOwn (env : Env F X) {before : JoinCtx} {t : JoinTable} (after : JoinCtx) (row : t.row.isSome = true)
    {e : Expr F X} (operand : e.operand = true) (own : ∀ c ∈ e.column, Own before t c) :
    evalVal env (some (before ++ t :: after)) e = evalVal env (some [t]) e := by
  cases e <;> first | contradiction | skip
  case col table name =>
    have same := jctxOwn after row (own (table,name) (List.mem_singleton.mpr rfl))
    simp only [evalVal,colVal,same]
  all_goals simp only [evalVal]

theorem itemsOwn (env : Env F X) {before : JoinCtx} {t : JoinTable} (after : JoinCtx) (row : t.row.isSome = true) :
    ∀ {items : List (Expr F X)}, items.all Expr.operand = true →
      (∀ c ∈ items.flatMap Expr.column, Own before t c) →
      evalItems env (some (before ++ t :: after)) items = evalItems env (some [t]) items
  | [], _, _ => by simp only [evalItems]
  | e :: items, operands, own => by
    rw [List.all_cons,Bool.and_eq_true] at operands
    rw [List.flatMap_cons] at own
    rw [evalItems,evalItems,operandOwn env after row operands.1 fun c h => own c (List.mem_append_left _ h),
      itemsOwn env after row operands.2 fun c h => own c (List.mem_append_right _ h)]

/-- A condition over the table's own columns has the value it has on the table's row. -/
theorem conditionOwn (env : Env F X) {before : JoinCtx} {t : JoinTable} (after : JoinCtx) (row : t.row.isSome = true) :
    ∀ {e : Expr F X}, e.condition = true → (∀ c ∈ e.columns, Own before t c) →
      evalVal env (some (before ++ t :: after)) e = evalVal env (some [t]) e
  | .unop .not e, cond, own => by
    have same := conditionOwn env after (e := e) row cond own
    simp only [evalVal,same]
  | .unop .isNull e, cond, own | .unop .isNotNull e, cond, own => by
    have same := operandOwn env after (e := e) row cond own
    simp only [evalVal,same]
  | .unop .neg e, cond, own => by simp [Expr.condition] at cond
  | .binop op l r, cond, own => by
    have sides : ∀ {xs ys : List (Option Bytes × Bytes)}, (∀ c ∈ xs ++ ys, Own before t c) →
        (∀ c ∈ xs, Own before t c) ∧ ∀ c ∈ ys, Own before t c := fun h =>
      ⟨fun c hc => h c (List.mem_append_left _ hc),fun c hc => h c (List.mem_append_right _ hc)⟩
    have parts : evalVal env (some (before ++ t :: after)) l = evalVal env (some [t]) l ∧
        evalVal env (some (before ++ t :: after)) r = evalVal env (some [t]) r := by
      by_cases comparison : op.comparison = true
      · have operands : l.operand = true ∧ r.operand = true := by
          cases op <;> first | contradiction | simpa [Expr.condition,BinOp.comparison] using cond
        have own' : ∀ c ∈ l.column ++ r.column, Own before t c := by
          cases op <;> first | contradiction | exact own
        exact ⟨operandOwn env after row operands.1 (sides own').1,operandOwn env after row operands.2 (sides own').2⟩
      · cases op <;> first | contradiction | skip
        case and | or =>
          rw [Expr.condition,Bool.and_eq_true] at cond
          exact ⟨conditionOwn env after row cond.1 (sides own).1,conditionOwn env after row cond.2 (sides own).2⟩
    simp only [evalVal,parts.1,parts.2]
  | .between neg e lo hi, cond, own => by
    simp only [Expr.condition,Bool.and_eq_true] at cond
    simp only [Expr.columns,List.mem_append] at own
    have e' := operandOwn env after row cond.1.1 fun c h => own c (.inl (.inl h))
    have lo' := operandOwn env after row cond.1.2 fun c h => own c (.inl (.inr h))
    have hi' := operandOwn env after row cond.2 fun c h => own c (.inr h)
    simp only [evalVal,e',lo',hi']
  | .inList neg e items, cond, own => by
    simp only [Expr.condition,Bool.and_eq_true] at cond
    simp only [Expr.columns,List.mem_append] at own
    have e' := operandOwn env after row cond.1 fun c h => own c (.inl h)
    have items' := itemsOwn env after row cond.2 fun c h => own c (.inr h)
    simp only [evalVal,e',items']
  | .col q n, _, own => operandOwn env after row rfl own
  | .int i s, _, own => operandOwn env after row rfl own
  | .float f, _, own => operandOwn env after row rfl own
  | .str s, _, own => operandOwn env after row rfl own
  | .null, _, own => operandOwn env after row rfl own
  | .bool b, _, own => operandOwn env after row rfl own

end

end Napastak.Query
