import Napastak.Scd2

/-! What a finished step has decided and written: which source rows close and open versions, and the table's next
rows. -/
namespace Napastak.Scd2
open Store Query Groups

section
variable (E : Engine) (st : PipelineStep) (F : Type) [Doubles F]

/-- The business key itself, not the text it is compared by. -/
def keyOf (names : List Bytes) (row : Row) : List Bytes := (bkCols st).map (cellOf names row)

def keyText (names : List Bytes) (row : Row) : Bytes := buildKey names (bkCols st) row

/-- The row closes the current version of its key. -/
def closes (srcNames : List Bytes) (cur : Rs) (cells : Row) : Bool :=
  match findCurrent st srcNames cur cells with
  | none => false
  | some c => deleted st srcNames cells || changed E st srcNames cur.names cells c

/-- The row is a new version of its key. -/
def opens (srcNames : List Bytes) (cur : Rs) (cells : Row) : Bool :=
  !deleted st srcNames cells && match findCurrent st srcNames cur cells with
    | none => true
    | some c => changed E st srcNames cur.names cells c

end

variable {E : Engine} {st : PipelineStep} {F : Type} [Doubles F]

theorem keyTextIs (names : List Bytes) (row : Row) : keyText st names row = joinCut 0x1f 1023 (keyOf st names row) := rfl

theorem classifyRowIs (srcNames : List Bytes) (cur : Rs) (plan : Plan) (cells : Row) :
    classifyRow E st srcNames cur plan cells =
      ⟨plan.closed ++ (if closes E st srcNames cur cells then [keyText st srcNames cells] else []),
        plan.opens ++ if opens E st srcNames cur cells then [cells] else []⟩ := by
  unfold classifyRow closes opens
  cases findCurrent st srcNames cur cells with
  | none => cases deleted st srcNames cells <;> simp
  | some c =>
    cases deleted st srcNames cells with
    | true => simp [keyText]
    | false => cases h : changed E st srcNames cur.names cells c <;> simp [keyText,h]

/-- What a snapshot's rows are sorted into, and that their keys are all different. -/
theorem classifyIs {srcNames : List Bytes} {cur : Rs} {r : Nat} {seen : List Bytes} {plan plan' : Plan} {rows : List Row}
    (h : classify E st srcNames cur r seen plan rows = .ok plan') :
    plan'.closed = plan.closed ++ (rows.filter (closes E st srcNames cur)).map (keyText st srcNames) ∧
      plan'.opens = plan.opens ++ rows.filter (opens E st srcNames cur) ∧
      (∀ cells ∈ rows, keyText st srcNames cells ∉ seen ∧ keyIsNullOrEmpty srcNames (bkCols st) cells = false) ∧
      (rows.map (keyText st srcNames)).Nodup := by
  induction rows generalizing r seen plan with
  | nil =>
    cases h
    simp
  | cons cells rest ih =>
    simp only [classify] at h
    by_cases null : keyIsNullOrEmpty srcNames (bkCols st) cells = true
    · rw [if_pos null] at h
      cases h
    rw [if_neg null] at h
    by_cases dup : seen.contains (buildKey srcNames (bkCols st) cells) = true
    · rw [if_pos dup] at h
      cases h
    rw [if_neg dup] at h
    obtain ⟨closed,opened,fresh,nodup⟩ := ih h
    rw [classifyRowIs] at closed opened
    have new : keyText st srcNames cells ∉ seen := by simpa [keyText] using dup
    refine ⟨?_,?_,fun other ho => ?_,?_⟩
    · rw [closed,List.filter_cons]
      cases closes E st srcNames cur cells <;> simp
    · rw [opened,List.filter_cons]
      cases opens E st srcNames cur cells <;> simp
    · rcases List.mem_cons.mp ho with rfl | ho
      · exact ⟨new,by simpa using null⟩
      · exact ⟨fun mem => (fresh other ho).1 (List.mem_append_left _ mem),(fresh other ho).2⟩
    · refine List.nodup_cons.mpr ⟨fun mem => ?_,nodup⟩
      obtain ⟨other,ho,same⟩ := List.mem_map.mp mem
      exact (fresh other ho).1 (List.mem_append_right _ (by rw [same]; exact List.mem_singleton.mpr rfl))

theorem addRows (rs : ResultSet) (xs : List Row) (room : rs.rows.length ≤ maxRsRows) :
    (xs.foldl rsAdd rs).rows = (rs.rows ++ xs).take maxRsRows := by
  induction xs generalizing rs with
  | nil => rw [List.foldl_nil,List.append_nil,List.take_of_length_le room]
  | cons x xs ih =>
    rw [List.foldl_cons,rsAdd]
    split
    · rename_i full
      rw [ih ⟨rs.rows,true⟩ room,List.take_append_of_le_length full,List.take_append_of_le_length full]
    · rename_i some_
      rw [ih ⟨rs.rows ++ [x],rs.truncated⟩ (by rw [List.length_append,List.length_singleton]; omega),List.append_assoc,
        List.singleton_append]

/-- A step that finished. -/
structure Finished (E : Engine) (st : PipelineStep) (F : Type) [Doubles F] (hist : Option Rs) (src : Rs) (clock : Int64)
    (w : Written) where
  closed : List Bytes
  news : List Row
  closedIs : closed = (src.rows.filter (closes E st src.names (currentOf E st F (readable E hist)))).map (keyText st src.names)
  newsIs : newRows E st (readable E hist) src.names w.out.names (lld clock)
    (src.rows.filter (opens E st src.names (currentOf E st F (readable E hist)))) = some news
  names : w.out.names = targetCols st (readable E hist) src.names
  rows : w.out.rows = ((rowsOf (readable E hist)).map (carryRow st w.out.names closed (lld clock)) ++ news).take maxRsRows
  count : w.nNew = src.rows.countP (opens E st src.names (currentOf E st F (readable E hist)))
  nodup : (src.rows.map (keyText st src.names)).Nodup
  keys : ∀ cells ∈ src.rows, keyIsNullOrEmpty src.names (bkCols st) cells = false
  configured : bkCols st ≠ [] ∧ st.effectiveFromCol ≠ [] ∧ st.effectiveToCol ≠ []
  present : ∀ n ∈ bkCols st, colIndex src.names n ≠ none
  whole : ∀ h, readable E hist = some h → h.truncated = false

/-- What the checks leave. -/
theorem notRejected {hist : Option Rs} {src : Rs} (h : rejects E st F hist src = none) :
    (bkCols st ≠ [] ∧ st.effectiveFromCol ≠ [] ∧ st.effectiveToCol ≠ []) ∧
      (∀ n ∈ bkCols st, colIndex src.names n ≠ none) ∧ ∀ t, hist = some t → t.truncated = false := by
  unfold rejects at h
  split at h
  · cases h
  split at h
  · cases h
  rename_i effective
  split at h
  · cases h
  rename_i key
  split at h
  · cases h
  split at h
  · cases h
  rename_i missing
  refine ⟨⟨key,fun e => effective (.inl e),fun e => effective (.inr e)⟩,?_,?_⟩
  · simpa using List.find?_eq_none.mp missing
  · rintro t rfl
    simp only at h
    split at h
    · cases h
    · rename_i whole
      simpa using whole

theorem finished {hist : Option Rs} {src : Rs} {clock : Int64} {w : Written}
    (h : runScd2Step E st F hist src clock = .ok w) : Nonempty (Finished E st F hist src clock w) := by
  unfold runScd2Step at h
  cases checks : rejects E st F (readable E hist) src with
  | some e => simp only [checks] at h; cases h
  | none =>
    simp only [checks] at h
    cases sorted : classify E st src.names (currentOf E st F (readable E hist)) 0 [] ⟨[],[]⟩ src.rows with
    | error e => simp only [sorted] at h; cases h
    | ok plan =>
      simp only [sorted] at h
      obtain ⟨closed,opened,fresh,nodup⟩ := classifyIs sorted
      rw [List.nil_append] at closed opened
      cases made : newRows E st (readable E hist) src.names (targetCols st (readable E hist) src.names) (lld clock) plan.opens with
      | none => simp only [made] at h; cases h
      | some news =>
        simp only [made] at h
        cases h
        obtain ⟨configured,present,whole⟩ := notRejected checks
        exact ⟨{
          closed := plan.closed
          news := news
          closedIs := closed
          newsIs := by rw [← opened]; exact made
          names := rfl
          rows := by rw [addRows _ _ (Nat.zero_le _)]; rfl
          count := by rw [opened,List.countP_eq_length_filter]
          nodup := nodup
          keys := fun cells hc => (fresh cells hc).2
          configured := configured
          present := present
          whole := whole }⟩

/-- The current versions are rows of the history, with the number 1 behind them. -/
theorem currentMem {h : Rs} (plain : E.window h.names (bkCols st) (timeCol st) = .columns) {r : Row}
    (hr : r ∈ (currentRs E st F h).rows) : ∃ row ∈ h.rows, r = h.names.map (cellOf h.names row) ++ [ascii "1"] := by
  unfold currentRs at hr
  rw [plain] at hr
  obtain ⟨row,ho,rfl⟩ := List.mem_map.mp hr
  obtain ⟨p,hp,rfl⟩ := List.mem_map.mp ho
  exact ⟨p.1,List.fst_mem_of_mem_zipIdx (List.mem_filter.mp hp).1,rfl⟩

end Napastak.Scd2
