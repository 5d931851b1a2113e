import Napastak.Exec
import Mathlib.Data.List.Dedup
import Mathlib.Data.List.Perm.Basic

/-! UNION, INTERSECT and EXCEPT over two query results, and where they are the set operations. -/
namespace Napastak.Access
open Query

/-- What a query gives: rows as wide as the column names, a string in every cell, no more rows than a result set holds. -/
structure Result where
  rs : RS
  wide : ∀ row ∈ rs.rows, row.length = rs.colNames.length
  text : ∀ row ∈ rs.rows, ∀ c ∈ row, c.isSome
  few : rs.rows.length ≤ maxRsRows

/-- The set operation of `exec_stmt` on the results of its two sides. -/
def setOp (op : SetOpType) : Option RS → Option RS → Option RS
  | none, R => R
  | L, none => L
  | some L, some R => some ⟨L.colNames,(setRows op L R).take maxRsRows⟩

theorem execSetOp {F : Type} [Doubles F] (E : Engine F) (fuel : Nat) (outer : Option JoinCtx) (vt : VTReg) (op : SetOpType)
    (left right : Stmt F) :
    (execStmt E (fuel + 1) outer vt (.setOp op left right)).1 =
      setOp op (execStmt E fuel outer vt left).1 (execStmt E fuel outer vt right).1 := by
  rw [execStmt]
  rcases execStmt E fuel outer vt left with ⟨L,keptL⟩
  rcases execStmt E fuel outer vt right with ⟨R,keptR⟩
  cases L <;> cases R <;> rfl

/-- The SQL value of a cell: the sentinel is NULL, a text is itself. There is a string in every cell of a result. -/
def sqlValue (c : Cell) : Option (Option Bytes) := c.map fun s => if s = nullSentinel then none else some s

def sqlRows (rs : RS) : List (List (Option (Option Bytes))) := rs.rows.map (List.map sqlValue)

section
variable {α : Type}

/-- What the operation asks for. -/
def Combines (op : SetOpType) (l r out : List α) : Prop :=
  match op with
  | .unionAll => out.Perm (l ++ r)
  | .union => out.Nodup ∧ ∀ x, x ∈ out ↔ x ∈ l ∨ x ∈ r
  | .intersect => out.Nodup ∧ ∀ x, x ∈ out ↔ x ∈ l ∧ x ∈ r
  | .except => out.Nodup ∧ ∀ x, x ∈ out ↔ x ∈ l ∧ x ∉ r

end

/-- Results of one width are combined, others are refused. -/
def SetOpRight (op : SetOpType) (L R : Result) : Prop :=
  if L.rs.colNames.length = R.rs.colNames.length then
    ∃ rs, setOp op (some L.rs) (some R.rs) = some rs ∧ Combines op (sqlRows L.rs) (sqlRows R.rs) (sqlRows rs)
  else setOp op (some L.rs) (some R.rs) = none

/-- Room for the rows of a union, and no row twice among those of the left side that INTERSECT and EXCEPT keep. -/
def Separate (op : SetOpType) (L R : List (List Cell)) : Prop :=
  match op with
  | .unionAll => L.length + R.length ≤ maxRsRows
  | .union => (L ++ R).dedup.length ≤ maxRsRows
  | .intersect => L.Pairwise fun a b => a = b → a ∉ R
  | .except => L.Pairwise fun a b => a = b → a ∈ R

/-! ### Rows -/

theorem sqlValueInj : Function.Injective sqlValue := by
  refine Option.map_injective fun s t same => ?_
  split at same <;> split at same
  · exact ‹s = _›.trans ‹t = _›.symm
  · cases same
  · cases same
  · exact Option.some.inj same

theorem rowEqIff {n : Nat} {a b : List Cell} (wide : a.length = n) (wide' : b.length = n) (text : ∀ c ∈ a, c.isSome)
    (text' : ∀ c ∈ b, c.isSome) : rowEq n a b = true ↔ a = b := by
  constructor
  · intro same
    refine List.ext_getElem (wide.trans wide'.symm) fun i lt lt' => ?_
    have cell := List.all_eq_true.1 same i (List.mem_range.2 (wide ▸ lt))
    obtain ⟨x,hx⟩ := Option.isSome_iff_exists.1 (text _ (List.getElem_mem lt))
    obtain ⟨y,hy⟩ := Option.isSome_iff_exists.1 (text' _ (List.getElem_mem lt'))
    rw [List.getD_eq_getElem?_getD,List.getD_eq_getElem?_getD,List.getElem?_eq_getElem lt,List.getElem?_eq_getElem lt',
      Option.getD_some,Option.getD_some,hx,hy] at cell
    rw [hx,hy]
    exact congrArg some (strcmpZero (of_decide_eq_true cell))
  · rintro rfl
    exact List.all_eq_true.2 fun c _ => decide_eq_true (strcmpSelf _)

section
variable {α : Type} {eq : α → α → Bool} {l r out : List α}

/-- Rows added one by one unless there already. -/
theorem foldFirsts (exact_ : ∀ a ∈ out ++ l, ∀ b ∈ out ++ l, (eq a b = true ↔ a = b)) (nodup : out.Nodup) :
    (l.foldl (fun out x => if out.any fun o => eq o x then out else out ++ [x]) out).Nodup ∧
      ∀ x, x ∈ l.foldl (fun out x => if out.any fun o => eq o x then out else out ++ [x]) out ↔ x ∈ out ∨ x ∈ l := by
  induction l generalizing out with
  | nil => exact ⟨nodup,fun x => by simp⟩
  | cons y l ih =>
    have there : (out.any fun o => eq o y) = true ↔ y ∈ out := by
      rw [List.any_eq_true]
      constructor
      · rintro ⟨o,mem,same⟩
        exact (exact_ o (by simp [mem]) y (by simp)).1 same ▸ mem
      · exact fun mem => ⟨y,mem,(exact_ y (by simp) y (by simp)).2 rfl⟩
    rw [List.foldl_cons]
    by_cases old : y ∈ out
    · rw [if_pos (there.2 old)]
      have rest := ih (fun a ha b hb => exact_ a (by simp at ha ⊢; tauto) b (by simp at hb ⊢; tauto)) nodup
      refine ⟨rest.1,fun x => (rest.2 x).trans ?_⟩
      rw [List.mem_cons]
      constructor
      · tauto
      · rintro (h | rfl | h)
        · exact .inl h
        · exact .inl old
        · exact .inr h
    · rw [if_neg fun h => old (there.1 h)]
      have grown : (out ++ [y]).Nodup := List.nodup_append.2 ⟨nodup,List.nodup_singleton y,fun a ha b hb same =>
        old (List.mem_singleton.1 hb ▸ same ▸ ha)⟩
      have rest := ih (fun a ha b hb => exact_ a (by simpa using ha) b (by simpa using hb)) grown
      refine ⟨rest.1,fun x => (rest.2 x).trans ?_⟩
      simp only [List.mem_append,List.mem_cons,or_assoc,List.not_mem_nil,false_or]

theorem nodupKept {p : α → Bool} : (l.filter p).Nodup ↔ l.Pairwise fun a b => a = b → p a = false := by
  rw [List.Nodup,List.pairwise_filter]
  refine List.Pairwise.iff fun a b => ?_
  constructor
  · rintro apart rfl
    exact Bool.eq_false_iff.2 fun h => apart h h rfl
  · rintro drop ha hb rfl
    exact absurd ha (by simp [drop rfl])

theorem combinesMap {β : Type} {f : α → β} (inj : Function.Injective f) {op : SetOpType} :
    Combines op (l.map f) (r.map f) (out.map f) ↔ Combines op l r out := by
  have down (list : List α) (x : α) : f x ∈ list.map f ↔ x ∈ list := List.mem_map_of_injective inj
  have away {y : β} (none_ : ¬∃ x, f x = y) (list : List α) : y ∉ list.map f := fun mem =>
    none_ ((List.mem_map.1 mem).imp fun _ h => h.2)
  cases op with
  | unionAll => rw [Combines,Combines,← List.map_append,List.map_perm_map_iff inj]
  | union | intersect | except =>
    refine and_congr (List.nodup_map_iff inj) ⟨fun mem x => ?_,fun mem y => ?_⟩
    · simpa only [down] using mem (f x)
    · by_cases hit : ∃ x, f x = y
      · obtain ⟨x,rfl⟩ := hit
        simpa only [down] using mem x
      · simp only [away hit,false_or,false_and]

end

/-! ### The operations -/

section
variable {op : SetOpType} {L R : Result}

theorem rowsExact (same : L.rs.colNames.length = R.rs.colNames.length) :
    ∀ a ∈ L.rs.rows ++ R.rs.rows, ∀ b ∈ L.rs.rows ++ R.rs.rows, (rowEq L.rs.colNames.length a b = true ↔ a = b) := by
  have fine : ∀ a ∈ L.rs.rows ++ R.rs.rows, a.length = L.rs.colNames.length ∧ ∀ c ∈ a, c.isSome := by
    intro a mem
    rcases List.mem_append.1 mem with left | right
    · exact ⟨L.wide a left,L.text a left⟩
    · exact ⟨(R.wide a right).trans same.symm,R.text a right⟩
  exact fun a ha b hb => rowEqIff (fine a ha).1 (fine b hb).1 (fine a ha).2 (fine b hb).2

theorem anyRow (same : L.rs.colNames.length = R.rs.colNames.length) {row : List Cell} (mem : row ∈ L.rs.rows) :
    R.rs.rows.any (rowEq L.rs.colNames.length row) = decide (row ∈ R.rs.rows) := by
  rw [Bool.eq_iff_iff,List.any_eq_true,decide_eq_true_iff]
  constructor
  · rintro ⟨b,right,is⟩
    exact (rowsExact same row (List.mem_append_left _ mem) b (List.mem_append_right _ right)).1 is ▸ right
  · exact fun right => ⟨row,right,(rowsExact same row (List.mem_append_left _ mem) row (List.mem_append_left _ mem)).2 rfl⟩

/-- The rows of a union are pairwise different, and as many as there are different ones. -/
theorem unionRows (same : L.rs.colNames.length = R.rs.colNames.length) :
    Combines .union L.rs.rows R.rs.rows (setRows .union L.rs R.rs) ∧
      (setRows .union L.rs R.rs).length = (L.rs.rows ++ R.rs.rows).dedup.length := by
  have nodup : (setRows .union L.rs R.rs).Nodup := (@foldFirsts _ _ _ [] (rowsExact same) List.nodup_nil).1
  have mem (x : List Cell) : x ∈ setRows .union L.rs R.rs ↔ x ∈ L.rs.rows ++ R.rs.rows :=
    ((@foldFirsts _ _ _ [] (rowsExact same) List.nodup_nil).2 x).trans (or_iff_right List.not_mem_nil)
  refine ⟨⟨nodup,fun x => (mem x).trans List.mem_append⟩,?_⟩
  refine ((List.perm_ext_iff_of_nodup nodup (List.nodup_dedup _)).2 fun x => ?_).length_eq
  rw [mem x,List.mem_dedup]

theorem intersectRows (same : L.rs.colNames.length = R.rs.colNames.length) :
    setRows .intersect L.rs R.rs = L.rs.rows.filter fun row => row ∈ R.rs.rows :=
  List.filter_congr fun _ mem => anyRow same mem

theorem exceptRows (same : L.rs.colNames.length = R.rs.colNames.length) :
    setRows .except L.rs R.rs = L.rs.rows.filter fun row => row ∉ R.rs.rows := by
  refine List.filter_congr fun _ mem => ?_
  rw [anyRow same mem,decide_not]

theorem keptFits (p : List Cell → Bool) : (L.rs.rows.filter p).take maxRsRows = L.rs.rows.filter p :=
  List.take_of_length_le (Nat.le_trans (List.length_filter_le _ _) L.few)

theorem combinesRows (same : L.rs.colNames.length = R.rs.colNames.length) :
    Combines op L.rs.rows R.rs.rows ((setRows op L.rs R.rs).take maxRsRows) ↔ Separate op L.rs.rows R.rs.rows := by
  cases op with
  | union =>
    obtain ⟨is,count⟩ := unionRows same
    rw [Separate,← count]
    constructor
    · intro cut
      have perm := (List.perm_ext_iff_of_nodup cut.1 is.1).2 fun x => (cut.2 x).trans (is.2 x).symm
      rw [← perm.length_eq]
      exact List.length_take_le _ _
    · intro room
      rwa [List.take_of_length_le room]
  | unionAll =>
    rw [Separate,Combines,setRows,← List.length_append]
    constructor
    · intro perm
      rw [← perm.length_eq]
      exact List.length_take_le _ _
    · intro room
      rw [List.take_of_length_le room]
  | intersect =>
    rw [intersectRows same,keptFits,Combines,nodupKept,Separate]
    simp
  | except =>
    rw [exceptRows same,keptFits,Combines,nodupKept,Separate]
    simp

theorem setRowsFrom (same : L.rs.colNames.length = R.rs.colNames.length) {row : List Cell} (mem : row ∈ setRows op L.rs R.rs) :
    row ∈ L.rs.rows ∨ row ∈ R.rs.rows := by
  cases op with
  | union => exact ((unionRows same).1.2 row).1 mem
  | unionAll => exact List.mem_append.1 mem
  | intersect | except => exact .inl (List.mem_of_mem_filter mem)

/-- What a set operation gives can be a side of the next one. -/
theorem setOpResult (same : L.rs.colNames.length = R.rs.colNames.length) :
    ∃ T : Result, setOp op (some L.rs) (some R.rs) = some T.rs ∧ T.rs.colNames = L.rs.colNames := by
  have source {row : List Cell} (mem : row ∈ (setRows op L.rs R.rs).take maxRsRows) := setRowsFrom same (List.mem_of_mem_take mem)
  refine ⟨⟨⟨L.rs.colNames,(setRows op L.rs R.rs).take maxRsRows⟩,fun row mem => ?_,fun row mem => ?_,
    List.length_take_le _ _⟩,rfl,rfl⟩
  · exact (source mem).elim (L.wide row) fun right => (R.wide row right).trans same.symm
  · exact (source mem).elim (L.text row) (R.text row)

/-- The set operations are what they are called just where the widths agree and the condition holds. -/
theorem setOpSeparate : SetOpRight op L R ↔
    L.rs.colNames.length = R.rs.colNames.length ∧ Separate op L.rs.rows R.rs.rows := by
  unfold SetOpRight
  by_cases same : L.rs.colNames.length = R.rs.colNames.length
  · rw [if_pos same,and_iff_right same,← combinesRows same]
    simp only [setOp,Option.some.injEq,exists_eq_left',sqlRows]
    exact combinesMap sqlValueInj.list_map
  · rw [if_neg same]
    simp [setOp,same]

end

/-- A result of two rows of one cell. -/
def twoRows (x y : Bytes) : Result where
  rs := ⟨[ascii "n"],[[some x],[some y]]⟩
  wide := by simp
  text := by simp
  few := show 2 ≤ 100000 by decide

/-- INTERSECT and EXCEPT give a row of the left side as often as it stands there. -/
theorem setOpTwice :
    ¬SetOpRight .intersect (twoRows (ascii "1") (ascii "1")) (twoRows (ascii "1") (ascii "2")) ∧
      ¬SetOpRight .except (twoRows (ascii "1") (ascii "1")) (twoRows (ascii "2") (ascii "3")) := by
  constructor
  all_goals
    rintro ⟨rs,is,nodup,-⟩
    cases is
    exact absurd nodup (by decide)

end Napastak.Access
