import Napastak.Scd2Frame

/-! Runs of the step one after another from an empty history. A snapshot row marked deleted closes its key; a key that
a snapshot does not have is left as it is. -/
namespace Napastak.Scd2
open Store Query Codec Groups

section
variable (E : Engine) (st : PipelineStep) (F : Type) [Doubles F] [Floats] (build : Build)

/-- One finished run: the history read, the step, the table written. -/
structure Ran (t : Option Target) (src : Rs) (clock : Int64) (t' : Target) where
  hist : Option Rs
  w : Written
  reads : history t = some hist
  step : runScd2Step E st F hist src clock = .ok w
  writes : writeRsToTable build w.out = some t'

/-- A cell as it enters the key of a partition. -/
def engineCell (v : Bytes) : Bytes := if v = nullSentinel then [] else v

/-- The texts that stand for these keys tell them apart. -/
def KeysTold (keys : List (List Bytes)) : Prop :=
  ∀ k ∈ keys, ∀ k' ∈ keys, (joinCut 0x1f 1023 k = joinCut 0x1f 1023 k' → k = k') ∧
    (joinCut 1 4095 (k.map engineCell) = joinCut 1 4095 (k'.map engineCell) → k = k')

variable {E st F build}

/-- The keys of a run: those of the history and those of the source. -/
def Ran.keys {t : Option Target} {src : Rs} {clock : Int64} {t' : Target} (ran : Ran E st F build t src clock t') :
    List (List Bytes) :=
  (rowsOf ran.hist).map (keyOf st (colsOf E st ran.hist src)) ++ src.rows.map (keyOf st src.names)

/-- What the design asks of a run: the table can be queried and is stored as it was written, the key and compare
columns are columns of their own, and keys and rows fit. -/
structure Designed {t : Option Target} {src : Rs} {clock : Int64} {t' : Target} (ran : Ran E st F build t src clock t') :
    Prop where
  read : readable E ran.hist = ran.hist
  window : ∀ h, ran.hist = some h → E.window h.names (bkCols st) (timeCol st) = .columns ∨
    E.window h.names (bkCols st) (timeCol st) = .rejected
  stored : selectStar t' = some ⟨⟨ran.w.out.rows,false⟩,ran.w.out.names⟩
  room : (rowsOf ran.hist).length + src.rows.countP (opensRow E st F ran.hist src) ≤ maxRsRows
  key : ∀ n ∈ bkCols st, Copied st (colsOf E st ran.hist src) n
  to_ : ∃ j, colIndex (colsOf E st ran.hist src) st.effectiveToCol = some j ∧
    colIndex (colsOf E st ran.hist src) st.currentFlagCol ≠ some j ∧ colIndex (colsOf E st ran.hist src) st.hashCol ≠ some j
  told : KeysTold ran.keys

/-- A source row that is not marked deleted differs from the version it is compared with if that one is closed, and has
its compare columns if it has its hash. -/
structure Compared {t : Option Target} {src : Rs} {clock : Int64} {t' : Target} (ran : Ran E st F build t src clock t') :
    Prop where
  copied : ∀ c ∈ compareCols st src.names, Copied st (colsOf E st ran.hist src) c
  reopened : ∀ cells ∈ src.rows, deleted st src.names cells = false →
    ∀ c, findCurrent st src.names (currentOf E st F ran.hist) cells = some c →
      openIn st (currentOf E st F ran.hist).names c = false →
        changed E st src.names (currentOf E st F ran.hist).names cells c = true
  hashed : ∀ cells ∈ src.rows, ∀ c, findCurrent st src.names (currentOf E st F ran.hist) cells = some c →
    ∀ i, colIndex (currentOf E st F ran.hist).names st.hashCol = some i →
      c.getD i [] = computeHash E src.names (compareCols st src.names) cells →
        ∀ col ∈ compareCols st src.names, cellOf (currentOf E st F ran.hist).names c col = cellOf src.names cells col

variable (E st F build)

/-- The tables that runs which all meet `P` lead to from an empty history. -/
inductive Reached (P : ∀ t src clock t', Ran E st F build t src clock t' → Prop) : Option Target → Prop
  | empty : Reached P none
  | run {t : Option Target} {src : Rs} {clock : Int64} {t' : Target} : Reached P t →
      (ran : Ran E st F build t src clock t') → P t src clock t' ran → Reached P (some t')

variable {E st F build}

def Sound (t : Option Target) (src : Rs) (clock : Int64) (t' : Target) (ran : Ran E st F build t src clock t') : Prop :=
  Designed ran ∧ Compared ran

end

/-- The open versions of a key. -/
def openOf (st : PipelineStep) (names : List Bytes) (rows : List Row) (k : List Bytes) : List Row :=
  rows.filter fun row => keyOf st names row = k ∧ openIn st names row = true

/-- Rows as wide as the table, with at most one open version of a key. -/
structure Historic (st : PipelineStep) (names : List Bytes) (rows : List Row) : Prop where
  wide : ∀ row ∈ rows, row.length = names.length
  single : ∀ k, (openOf st names rows k).length ≤ 1

/-- The same version, but for the flag that marks it current. -/
def SameVersion (st : PipelineStep) (names : List Bytes) (old new : Row) : Prop :=
  ∀ n, colIndex names n ≠ colIndex names st.currentFlagCol → cellOf names new n = cellOf names old n

/-- The history follows the snapshot: one open version with the source's compare columns for every key not marked
deleted, none for one that is, never two, and those of the keys it does not have as they were. -/
structure Historised (st : PipelineStep) (src : Rs) (before : Option Rs) (h : Rs) : Prop where
  current : ∀ cells ∈ src.rows, deleted st src.names cells = false →
    ∃ v, openOf st h.names h.rows (keyOf st src.names cells) = [v] ∧
      ∀ c ∈ compareCols st src.names, cellOf h.names v c = cellOf src.names cells c
  gone : ∀ cells ∈ src.rows, deleted st src.names cells = true → openOf st h.names h.rows (keyOf st src.names cells) = []
  single : ∀ k, (openOf st h.names h.rows k).length ≤ 1
  names : ∀ b, before = some b → h.names = b.names
  absent : ∀ k, (∀ cells ∈ src.rows, keyOf st src.names cells ≠ k) →
    List.Forall₂ (SameVersion st h.names) (openOf st h.names (rowsOf before) k) (openOf st h.names h.rows k)

/-! ### The version a source row is compared with -/

variable {E : Engine} {st : PipelineStep} {F : Type} [Doubles F]

theorem colIndexAppend {names : List Bytes} {n : Bytes} {j : Nat} (h : colIndex names n = some j) (more : List Bytes) :
    colIndex (names ++ more) n = some j := by
  rw [colIndex] at h ⊢
  split at h
  · cases h
  · rename_i some_
    rw [if_neg some_,List.findIdx?_append,h]
    rfl

/-- A row with its number behind it has the same cells. -/
theorem numberedCells (names : List Bytes) (v : Row) {n : Bytes} (some_ : colIndex names n ≠ none) :
    cellOf (names ++ [ascii "__scd2_rn"]) (names.map (cellOf names v) ++ [ascii "1"]) n = cellOf names v n := by
  obtain ⟨j,at_⟩ := Option.ne_none_iff_exists'.mp some_
  obtain ⟨_,name,here,same⟩ := colIndexFound at_
  have lt : j < (names.map (cellOf names v)).length := by rw [List.length_map]; exact colIndexLt at_
  rw [cellAtIndex (colIndexAppend at_ _),List.getD_eq_getElem?_getD,List.getElem?_append_left lt,List.getElem?_map,here,
    ← cellSame same]
  rfl

theorem currentPlain {h : Rs} (plain : E.window h.names (bkCols st) (timeCol st) = .columns) : currentRs E st F h =
    ⟨⟨(firstNumbered st F h.names h.rows).map fun row => h.names.map (cellOf h.names row) ++ [ascii "1"],false⟩,
      h.names ++ [ascii "__scd2_rn"]⟩ := by
  unfold currentRs
  rw [plain]

theorem currentRejected {h : Rs} (rejected : E.window h.names (bkCols st) (timeCol st) = .rejected) :
    currentRs E st F h = ⟨⟨openRows st h.names h.rows,false⟩,h.names⟩ := by
  unfold currentRs
  rw [rejected]

/-- A current version has the cells of a row of the history in every column of the table. -/
theorem currentForm {h : Rs} (window : E.window h.names (bkCols st) (timeCol st) = .columns ∨
      E.window h.names (bkCols st) (timeCol st) = .rejected) {c : Row} (hc : c ∈ (currentRs E st F h).rows) :
    ∃ v ∈ h.rows, ∀ n, colIndex h.names n ≠ none → cellOf (currentRs E st F h).names c n = cellOf h.names v n := by
  rcases window with plain | rejected
  · obtain ⟨v,hv,rfl⟩ := currentMem plain hc
    rw [currentPlain plain]
    exact ⟨v,hv,fun n some_ => numberedCells h.names v some_⟩
  · rw [currentRejected rejected] at hc ⊢
    exact ⟨c,(List.mem_filter.mp hc).1,fun n _ => rfl⟩

theorem partKeyIs (names : List Bytes) (row : Row) :
    partKey names (bkCols st) row = joinCut 1 4095 ((keyOf st names row).map engineCell) := by
  rw [partKey,keyOf,List.map_map]
  rfl

/-- The key text of a current version is that of its row. -/
theorem currentKey {h : Rs} (key : ∀ n ∈ bkCols st, colIndex h.names n ≠ none) {names : List Bytes} {c v : Row}
    (form : ∀ n, colIndex h.names n ≠ none → cellOf names c n = cellOf h.names v n) :
    buildKey names (bkCols st) c = keyText st h.names v :=
  congrArg (joinCut 0x1f 1023) (List.map_congr_left fun n hn => form n (key n hn))

section
variable [Floats] {build : Build} {t : Option Target} {src : Rs} {clock : Int64} {t' : Target}
  {ran : Ran E st F build t src clock t'}

theorem colsHist (designed : Designed ran) {h : Rs} (e : ran.hist = some h) : colsOf E st ran.hist src = h.names :=
  colsReadable (designed.read.trans e)

theorem keyPresent (designed : Designed ran) {n : Bytes} (hn : n ∈ bkCols st) : colIndex (colsOf E st ran.hist src) n ≠ none := by
  obtain ⟨j,at_,_⟩ := designed.key n hn
  rw [at_]
  exact Option.some_ne_none j

/-- Two keys of a run with one text are one key. -/
theorem toldKeys (designed : Designed ran) {row cells : Row} (hr : row ∈ rowsOf ran.hist) (hc : cells ∈ src.rows)
    (same : keyText st (colsOf E st ran.hist src) row = keyText st src.names cells) :
    keyOf st (colsOf E st ran.hist src) row = keyOf st src.names cells :=
  (designed.told _ (List.mem_append_left _ (List.mem_map_of_mem hr)) _ (List.mem_append_right _ (List.mem_map_of_mem hc))).1 same

/-- The version found is a row of the history with the key. -/
theorem foundRow (designed : Designed ran) {cells : Row} (hc : cells ∈ src.rows) {c : Row}
    (found : findCurrent st src.names (currentOf E st F ran.hist) cells = some c) :
    ∃ v ∈ rowsOf ran.hist, keyOf st (colsOf E st ran.hist src) v = keyOf st src.names cells ∧
      ∀ n, colIndex (colsOf E st ran.hist src) n ≠ none →
        cellOf (currentOf E st F ran.hist).names c n = cellOf (colsOf E st ran.hist src) v n := by
  cases e : ran.hist with
  | none => rw [e] at found; cases found
  | some h =>
    rw [e] at found
    obtain ⟨v,hv,form⟩ := currentForm (designed.window h e) (List.mem_of_find?_eq_some found)
    have cols := colsHist designed e
    rw [e] at cols
    have text := currentKey (fun n hn => by rw [← cols,← e]; exact keyPresent designed hn) form
    have same : keyText st h.names v = keyText st src.names cells := by
      have hit := List.find?_some (show (currentRs E st F h).rows.find? _ = some c from found)
      rw [← text]
      exact of_decide_eq_true hit
    have key := toldKeys designed (show v ∈ rowsOf ran.hist by rw [e]; exact hv) hc (by rw [e,cols]; exact same)
    rw [e] at key
    exact ⟨v,hv,key,fun n hn => by rw [cols] at hn ⊢; exact form n hn⟩

/-- A row that passes for unchanged is compared with an open version that has its compare columns. -/
theorem unchangedOpen (compared : Compared ran) {cells : Row} (hc : cells ∈ src.rows) (del : deleted st src.names cells = false)
    {c : Row} (found : findCurrent st src.names (currentOf E st F ran.hist) cells = some c)
    (same : changed E st src.names (currentOf E st F ran.hist).names cells c = false) :
    openIn st (currentOf E st F ran.hist).names c = true ∧
      ∀ col ∈ compareCols st src.names, cellOf (currentOf E st F ran.hist).names c col = cellOf src.names cells col := by
  refine ⟨?_,?_⟩
  · cases open_ : openIn st (currentOf E st F ran.hist).names c with
    | true => rfl
    | false => rw [compared.reopened cells hc del c found open_] at same; cases same
  · unfold changed at same
    cases hash : colIndex (currentOf E st F ran.hist).names st.hashCol with
    | none =>
      simp only [hash] at same
      exact fun col hcol => (Decidable.not_not.mp fun ne => List.any_eq_false.mp same col hcol (decide_eq_true ne)).symm
    | some i =>
      simp only [hash] at same
      exact compared.hashed cells hc c found i hash (Decidable.not_not.mp (of_decide_eq_false same)).symm

/-- Where no version is found, none of the key is open. -/
theorem noneOpen (designed : Designed ran) {cells : Row}
    (none_ : findCurrent st src.names (currentOf E st F ran.hist) cells = none) {row : Row} (hr : row ∈ rowsOf ran.hist)
    (same : keyOf st (colsOf E st ran.hist src) row = keyOf st src.names cells) :
    openIn st (colsOf E st ran.hist src) row = false := by
  rcases Option.eq_none_or_eq_some ran.hist with e | ⟨h,e⟩
  · rw [e] at hr; cases hr
  · have cols := colsHist designed e
    have key : ∀ n ∈ bkCols st, colIndex h.names n ≠ none := fun n hn => by rw [← cols]; exact keyPresent designed hn
    rw [e] at hr none_
    have all : ∀ x ∈ (currentRs E st F h).rows, buildKey (currentRs E st F h).names (bkCols st) x ≠ keyText st src.names cells :=
      fun x hx same => List.find?_eq_none.mp none_ x hx (decide_eq_true same)
    rw [cols] at same ⊢
    rcases designed.window h e with plain | rejected
    · -- the partition of the row has a first row, which has its key and would have been found
      obtain ⟨i,hi⟩ := List.mem_iff_getElem?.mp hr
      have pair : (row,i) ∈ h.rows.zipIdx := List.mem_zipIdx_iff_getElem?.mpr hi
      obtain ⟨p,hp,part⟩ := @leadersCover _ _ _ (winCmp st F h.names) (fun a => partKey h.names (bkCols st) a.1) _ _ pair
      have mem : p.1 ∈ h.rows := List.fst_mem_of_mem_zipIdx (leadersMem hp)
      have one : keyOf st h.names p.1 = keyOf st h.names row := by
        have keys := designed.told (keyOf st (colsOf E st ran.hist src) p.1)
          (List.mem_append_left _ (List.mem_map_of_mem (by rw [e]; exact mem))) (keyOf st (colsOf E st ran.hist src) row)
          (List.mem_append_left _ (List.mem_map_of_mem (by rw [e]; exact hr)))
        rw [cols] at keys
        exact keys.2 (by rw [← partKeyIs,← partKeyIs]; exact part)
      have shown : h.names.map (cellOf h.names p.1) ++ [ascii "1"] ∈ (currentRs E st F h).rows := by
        rw [currentPlain plain]
        exact List.mem_map_of_mem (List.mem_map_of_mem (List.mem_filter.mpr ⟨leadersMem hp,decide_eq_true hp⟩))
      refine absurd ?_ (all _ shown)
      rw [currentPlain plain,currentKey key fun n some_ => numberedCells h.names p.1 some_,keyTextIs,one,same]
      rfl
    · cases open_ : openIn st h.names row with
      | false => rfl
      | true =>
        refine absurd ?_ (all row (by rw [currentRejected rejected]; exact List.mem_filter.mpr ⟨hr,open_⟩))
        rw [currentRejected rejected,← keyText,keyTextIs,same]
        rfl

/-! ### One run -/

theorem readHist (designed : Designed ran) (none_ : readable E ran.hist = none) : rowsOf ran.hist = [] := by
  rw [← designed.read,none_]
  rfl

omit [Floats] in
theorem openCarried {cols : List Bytes} {j : Nat} (to_ : colIndex cols st.effectiveToCol = some j)
    (flag_ : colIndex cols st.currentFlagCol ≠ some j) {row : Row} (wide : row.length = cols.length) (closed : List Bytes) :
    openIn st cols (carryRow st cols closed (lld clock) row) = (openIn st cols row && !closesRow st cols closed row) := by
  cases closes_ : closesRow st cols closed row with
  | false =>
    rw [openIn,cellAtIndex to_,carryRow,closes_,setAtOther flag_,openIn,cellAtIndex to_]
    simp
  | true =>
    rw [openIn,cellAtIndex to_,carryRow,closes_,setAtOther flag_,if_pos rfl,to_,setAtSelf (wide ▸ colIndexLt to_),clockClosed]
    simp

omit [Floats] in
/-- The new rows are new versions of the source rows that open one. -/
theorem newsMade {w : Written} {hist : Option Rs} (fin : Finished E st F hist src clock w) :
    List.Forall₂ (fun cells new => ∃ version, new = newRow E st src.names (colsOf E st hist src) (lld clock) version cells)
      (src.rows.filter (opensRow E st F hist src)) fin.news := by
  refine (mapMSome.mp fin.newsIs).imp fun cells new h => ?_
  rw [writtenNames fin] at h
  split at h
  · exact ⟨_,(Option.some.inj h).symm⟩
  · obtain ⟨version,_,rfl⟩ := Option.map_eq_some_iff.mp h
    exact ⟨version,rfl⟩

theorem outRows (designed : Designed ran) (fin : Finished E st F ran.hist src clock ran.w) : ran.w.out.rows =
    (rowsOf ran.hist).map (carryRow st (colsOf E st ran.hist src) fin.closed (lld clock)) ++ fin.news :=
  writtenRows fin (readHist designed) (by rw [fin.count]; exact designed.room)

/-- The open versions after a run: those before that it does not close, then the new ones. -/
theorem openAfter (designed : Designed ran) (fin : Finished E st F ran.hist src clock ran.w)
    (wide : ∀ row ∈ rowsOf ran.hist, row.length = (colsOf E st ran.hist src).length) (k : List Bytes) :
    openOf st (colsOf E st ran.hist src) ran.w.out.rows k =
      ((openOf st (colsOf E st ran.hist src) (rowsOf ran.hist) k).filter fun row =>
        !closesRow st (colsOf E st ran.hist src) fin.closed row).map
          (carryRow st (colsOf E st ran.hist src) fin.closed (lld clock)) ++
      fin.news.filter fun new => keyOf st (colsOf E st ran.hist src) new = k := by
  obtain ⟨j,to_,flag_,hash⟩ := designed.to_
  rw [outRows designed fin,openOf,List.filter_append,List.filter_map,openOf,List.filter_filter]
  congr 1
  · refine congrArg _ (List.filter_congr fun row hr => ?_)
    simp only [Function.comp,keyCarried designed.key,openCarried to_ flag_ (wide row hr)]
    cases openIn st (colsOf E st ran.hist src) row <;> simp
    exact Bool.and_comm ..
  · refine List.filter_congr fun new hn => ?_
    obtain ⟨cells,_,version,rfl⟩ := partner (newsMade fin) hn
    rw [openIn,newOpen to_ hash,show isOpen nullSentinel = true by rfl]
    simp

/-- A run closes a row of one of the source's keys if the row is open and the source closes the key. -/
theorem closesSource (designed : Designed ran) (fin : Finished E st F ran.hist src clock ran.w) {row cells : Row}
    (hc : cells ∈ src.rows) (same : keyOf st (colsOf E st ran.hist src) row = keyOf st src.names cells) :
    closesRow st (colsOf E st ran.hist src) fin.closed row =
      (openIn st (colsOf E st ran.hist src) row && closesKey E st F ran.hist src cells) := by
  obtain ⟨j,to_,_⟩ := designed.to_
  have text : keyText st (colsOf E st ran.hist src) row = keyText st src.names cells := by rw [keyTextIs,same]; rfl
  rw [Bool.eq_iff_iff,closesRowIs,Bool.and_eq_true,text,closedMem fin]
  refine ⟨fun ⟨_,open_,other,ho,hs,e⟩ => ⟨open_,sourceKeys fin ho hc e ▸ hs⟩,fun ⟨open_,hs⟩ => ⟨?_,open_,cells,hc,hs,rfl⟩⟩
  rw [to_]
  exact Option.some_ne_none j

/-- A run closes no row of a key the source does not have. -/
theorem closesAbsent (designed : Designed ran) (fin : Finished E st F ran.hist src clock ran.w) {row : Row}
    (hr : row ∈ rowsOf ran.hist) (other : ∀ cells ∈ src.rows, keyOf st src.names cells ≠ keyOf st (colsOf E st ran.hist src) row) :
    closesRow st (colsOf E st ran.hist src) fin.closed row = false := by
  cases closes_ : closesRow st (colsOf E st ran.hist src) fin.closed row with
  | false => rfl
  | true =>
    obtain ⟨_,_,key⟩ := closesRowIs.mp closes_
    obtain ⟨cells,hc,_,same⟩ := (closedMem fin).mp key
    exact absurd (toldKeys designed hr hc same.symm).symm (other cells hc)

/-- The new versions of a source row's key: one if the row opens one. -/
theorem newsOf (designed : Designed ran) (fin : Finished E st F ran.hist src clock ran.w) {cells : Row} (hc : cells ∈ src.rows) :
    List.Forall₂ (fun cells new =>
        ∃ version, new = newRow E st src.names (colsOf E st ran.hist src) (lld clock) version cells)
      (if opensRow E st F ran.hist src cells then [cells] else [])
      (fin.news.filter fun new => keyOf st (colsOf E st ran.hist src) new = keyOf st src.names cells) := by
  have both := List.rel_filter (p := fun row => keyOf st src.names row = keyOf st src.names cells)
    (q := fun new => keyOf st (colsOf E st ran.hist src) new = keyOf st src.names cells) (fun row new h => by
      obtain ⟨version,rfl⟩ := h
      simp only [keyNew designed.key]) (newsMade fin)
  rw [List.filter_comm,filterUnique (keysNodup fin) hc,List.filter_singleton,Bool.cond_eq_ite] at both
  exact both

/-- No new version has a key the source does not have. -/
theorem newsAbsent (designed : Designed ran) (fin : Finished E st F ran.hist src clock ran.w) {k : List Bytes}
    (other : ∀ cells ∈ src.rows, keyOf st src.names cells ≠ k) :
    (fin.news.filter fun new => keyOf st (colsOf E st ran.hist src) new = k) = [] := by
  refine List.filter_eq_nil_iff.mpr fun new hn => ?_
  obtain ⟨cells,hc,version,rfl⟩ := partner (newsMade fin) hn
  rw [keyNew designed.key]
  simpa using other cells (List.mem_filter.mp hc).1

section
variable (designed : Designed ran) (fin : Finished E st F ran.hist src clock ran.w)
  (wide : ∀ row ∈ rowsOf ran.hist, row.length = (colsOf E st ran.hist src).length)
include designed fin wide

/-- The open versions of a source row's key after the run. -/
theorem afterSource {cells : Row} (hc : cells ∈ src.rows) :
    openOf st (colsOf E st ran.hist src) ran.w.out.rows (keyOf st src.names cells) =
      (if closesKey E st F ran.hist src cells then [] else
        (openOf st (colsOf E st ran.hist src) (rowsOf ran.hist) (keyOf st src.names cells)).map
          (carryRow st (colsOf E st ran.hist src) fin.closed (lld clock))) ++
      fin.news.filter fun new => keyOf st (colsOf E st ran.hist src) new = keyOf st src.names cells := by
  rw [openAfter designed fin wide]
  congr 1
  have all : ∀ row ∈ openOf st (colsOf E st ran.hist src) (rowsOf ran.hist) (keyOf st src.names cells),
      closesRow st (colsOf E st ran.hist src) fin.closed row = closesKey E st F ran.hist src cells := fun row hr => by
    obtain ⟨_,here⟩ := List.mem_filter.mp hr
    obtain ⟨same,open_⟩ := of_decide_eq_true here
    rw [closesSource designed fin hc same,open_,Bool.true_and]
  rw [List.filter_congr fun row hr => congrArg (!·) (all row hr)]
  cases closesKey E st F ran.hist src cells <;> simp

/-- A key marked deleted has no open version. -/
theorem afterGone {cells : Row} (hc : cells ∈ src.rows) (del : deleted st src.names cells = true) :
    openOf st (colsOf E st ran.hist src) ran.w.out.rows (keyOf st src.names cells) = [] := by
  have news := newsOf designed fin hc
  rw [show opensRow E st F ran.hist src cells = false by rw [opensRow,opens,del]; rfl,if_neg Bool.false_ne_true,
    List.forall₂_nil_left_iff] at news
  rw [afterSource designed fin wide hc,news,List.append_nil]
  split
  · rfl
  · rename_i stays
    -- a key that is not closed here has no current version, hence no open one
    have none_ : findCurrent st src.names (currentOf E st F ran.hist) cells = none := by
      rw [closesKey,designed.read,closes] at stays
      split at stays
      · assumption
      · rw [del] at stays
        exact absurd rfl stays
    have empty : openOf st (colsOf E st ran.hist src) (rowsOf ran.hist) (keyOf st src.names cells) = [] :=
      List.filter_eq_nil_iff.mpr fun row hr here => by
        obtain ⟨same,open_⟩ := of_decide_eq_true here
        rw [noneOpen designed none_ hr same] at open_
        cases open_
    rw [empty,List.map_nil]

/-- A key that is opened has the new version alone, with the compare columns of the source. -/
theorem afterOpened {cells : Row} (hc : cells ∈ src.rows) (copied : ∀ c ∈ compareCols st src.names,
      Copied st (colsOf E st ran.hist src) c) (opened : opensRow E st F ran.hist src cells = true)
    (clear : closesKey E st F ran.hist src cells = true ∨
      openOf st (colsOf E st ran.hist src) (rowsOf ran.hist) (keyOf st src.names cells) = []) :
    ∃ v, openOf st (colsOf E st ran.hist src) ran.w.out.rows (keyOf st src.names cells) = [v] ∧
      ∀ c ∈ compareCols st src.names, cellOf (colsOf E st ran.hist src) v c = cellOf src.names cells c := by
  have news := newsOf designed fin hc
  rw [if_pos opened] at news
  obtain ⟨v,rest,⟨version,rfl⟩,tail,is⟩ := List.forall₂_cons_left_iff.mp news
  rw [List.forall₂_nil_left_iff.mp tail] at is
  refine ⟨newRow E st src.names (colsOf E st ran.hist src) (lld clock) version cells,?_,fun c hcol =>
    newCopied (copied c hcol) ..⟩
  rw [afterSource designed fin wide hc,is]
  rcases clear with closed | empty
  · rw [if_pos closed]
    rfl
  · rw [empty,List.map_nil,ite_self]
    rfl

/-- A key not marked deleted has one open version, with the compare columns of the source. -/
theorem afterCurrent (single : ∀ k, (openOf st (colsOf E st ran.hist src) (rowsOf ran.hist) k).length ≤ 1)
    (compared : Compared ran) {cells : Row} (hc : cells ∈ src.rows) (del : deleted st src.names cells = false) :
    ∃ v, openOf st (colsOf E st ran.hist src) ran.w.out.rows (keyOf st src.names cells) = [v] ∧
      ∀ c ∈ compareCols st src.names, cellOf (colsOf E st ran.hist src) v c = cellOf src.names cells c := by
  cases found : findCurrent st src.names (currentOf E st F ran.hist) cells with
  | none =>
    refine afterOpened designed fin wide hc compared.copied ?_ (.inr (List.filter_eq_nil_iff.mpr fun row hr here => ?_))
    · rw [opensRow,designed.read,opens,del,found]
      rfl
    · obtain ⟨same,open_⟩ := of_decide_eq_true here
      rw [noneOpen designed found hr same] at open_
      cases open_
  | some c =>
    cases change : changed E st src.names (currentOf E st F ran.hist).names cells c with
    | true =>
      refine afterOpened designed fin wide hc compared.copied ?_ (.inl ?_)
      · rw [opensRow,designed.read,opens,del,found]
        exact change
      · rw [closesKey,designed.read,closes,found,del]
        exact change
    | false =>
      obtain ⟨open_,equal⟩ := unchangedOpen compared hc del found change
      obtain ⟨v,hv,key,form⟩ := foundRow designed hc found
      obtain ⟨j,to_,_⟩ := designed.to_
      have mem : v ∈ openOf st (colsOf E st ran.hist src) (rowsOf ran.hist) (keyOf st src.names cells) :=
        List.mem_filter.mpr ⟨hv,decide_eq_true ⟨key,by rw [openIn,← form _ (by rw [to_]; exact Option.some_ne_none j)]; exact open_⟩⟩
      have one : openOf st (colsOf E st ran.hist src) (rowsOf ran.hist) (keyOf st src.names cells) = [v] := by
        obtain ⟨x,is⟩ := List.length_eq_one_iff.mp (Nat.le_antisymm (single _) (List.length_pos_of_mem mem))
        rw [is] at mem ⊢
        rw [List.mem_singleton.mp mem]
      have news := newsOf designed fin hc
      rw [show opensRow E st F ran.hist src cells = false by rw [opensRow,designed.read,opens,del,found]; exact change,
        if_neg Bool.false_ne_true,List.forall₂_nil_left_iff] at news
      have stays : closesKey E st F ran.hist src cells = false := by
        rw [closesKey,designed.read,closes,found,del]
        exact change
      refine ⟨_,by rw [afterSource designed fin wide hc,news,stays,one,if_neg Bool.false_ne_true]; rfl,fun col hcol => ?_⟩
      obtain ⟨i,at_,_⟩ := compared.copied col hcol
      rw [carryCopied (compared.copied col hcol),← form col (by rw [at_]; exact Option.some_ne_none i)]
      exact equal col hcol

/-- A key the source does not have keeps its open versions. -/
theorem afterAbsent {k : List Bytes} (other : ∀ cells ∈ src.rows, keyOf st src.names cells ≠ k) :
    List.Forall₂ (SameVersion st (colsOf E st ran.hist src)) (openOf st (colsOf E st ran.hist src) (rowsOf ran.hist) k)
      (openOf st (colsOf E st ran.hist src) ran.w.out.rows k) := by
  have stays : ∀ row ∈ openOf st (colsOf E st ran.hist src) (rowsOf ran.hist) k,
      closesRow st (colsOf E st ran.hist src) fin.closed row = false := fun row hr => by
    obtain ⟨mem,here⟩ := List.mem_filter.mp hr
    exact closesAbsent designed fin mem fun cells hc => by rw [(of_decide_eq_true here).1]; exact other cells hc
  rw [openAfter designed fin wide,newsAbsent designed fin other,List.append_nil,
    List.filter_eq_self.mpr fun row hr => by rw [stays row hr]; rfl]
  refine List.forall₂_map_right_iff.mpr (List.forall₂_same.mpr fun row hr n flag_ => ?_)
  rw [carryRow,stays row hr]
  cases at_ : colIndex (colsOf E st ran.hist src) n with
  | none =>
    simp only [cellOf,at_]
    rfl
  | some j => rw [cellAtIndex at_,cellAtIndex at_,setAtOther fun e => flag_ (at_.trans e.symm)]; rfl

end

/-- The rows of an empty history are under any columns. -/
theorem historicCols (designed : Designed ran) (before : ∀ h, ran.hist = some h → Historic st h.names h.rows) :
    Historic st (colsOf E st ran.hist src) (rowsOf ran.hist) := by
  rcases Option.eq_none_or_eq_some ran.hist with e | ⟨h,e⟩
  · rw [show rowsOf ran.hist = [] by rw [e]; rfl]
    exact ⟨fun row hr => (List.not_mem_nil hr).elim,fun k => Nat.zero_le _⟩
  · rw [colsHist designed e,show rowsOf ran.hist = h.rows by rw [e]; rfl]
    exact before h e

/-- One run: the history it leaves follows the snapshot, and is again one with at most one open version of a key. -/
theorem runHistorised (designed : Designed ran) (compared : Compared ran)
    (before : Historic st (colsOf E st ran.hist src) (rowsOf ran.hist)) :
    ∃ h, selectStar t' = some h ∧ Historic st h.names h.rows ∧ Historised st src ran.hist h := by
  obtain ⟨fin⟩ := finished ran.step
  have names : ran.w.out.names = colsOf E st ran.hist src := writtenNames fin
  have current := fun cells (hc : cells ∈ src.rows) => afterCurrent designed fin before.wide before.single compared hc
  have gone := fun cells (hc : cells ∈ src.rows) => afterGone designed fin before.wide hc
  have absent := fun (k : List Bytes) other => @afterAbsent _ _ _ _ _ _ _ _ _ _ _ designed fin before.wide k other
  have single : ∀ k, (openOf st (colsOf E st ran.hist src) ran.w.out.rows k).length ≤ 1 := fun k => by
    by_cases mine : ∃ cells ∈ src.rows, keyOf st src.names cells = k
    · obtain ⟨cells,hc,rfl⟩ := mine
      cases del : deleted st src.names cells with
      | false =>
        obtain ⟨v,is,_⟩ := current cells hc del
        rw [is]
        exact Nat.le_refl _
      | true =>
        rw [gone cells hc del]
        exact Nat.zero_le _
    · rw [← (absent k fun cells hc e => mine ⟨cells,hc,e⟩).length_eq]
      exact before.single k
  refine ⟨_,designed.stored,?_,?_⟩
  · rw [names]
    refine ⟨fun row hr => ?_,single⟩
    rw [outRows designed fin] at hr
    rcases List.mem_append.mp hr with hr | hr
    · obtain ⟨old,ho,rfl⟩ := List.mem_map.mp hr
      rw [carryLength]
      exact before.wide old ho
    · obtain ⟨_,_,version,rfl⟩ := partner (newsMade fin) hr
      exact newLength ..
  · refine ⟨?_,?_,?_,?_,?_⟩ <;> simp only [names]
    · exact current
    · exact gone
    · exact single
    · exact fun b e => colsHist designed e
    · exact absent

end

/-! ### Sequences of runs -/

section
variable [Floats] {build : Build}

/-- Every table reached has at most one open version of a key. -/
theorem reachedHistoric {t : Option Target} (reached : Reached E st F build Sound t) :
    ∃ hist, history t = some hist ∧ ∀ h, hist = some h → Historic st h.names h.rows := by
  induction reached with
  | empty => exact ⟨none,rfl,fun h e => nomatch e⟩
  | run _ ran sound ih =>
    obtain ⟨designed,compared⟩ := sound
    obtain ⟨hist,reads,before⟩ := ih
    have same : ran.hist = hist := Option.some.inj (ran.reads.symm.trans reads)
    obtain ⟨h,stored,after,_⟩ := runHistorised designed compared (historicCols designed (same ▸ before))
    exact ⟨some h,by rw [history,stored]; rfl,fun h' e => Option.some.inj e ▸ after⟩

/-- In every sequence of runs from an empty history, each run leaves the history that follows its snapshot. -/
theorem runsHistorised {t : Option Target} {src : Rs} {clock : Int64} {t' : Target} (reached : Reached E st F build Sound t)
    (ran : Ran E st F build t src clock t') (designed : Designed ran) (compared : Compared ran) :
    ∃ h, selectStar t' = some h ∧ Historised st src ran.hist h := by
  obtain ⟨hist,reads,before⟩ := reachedHistoric reached
  have same : ran.hist = hist := Option.some.inj (ran.reads.symm.trans reads)
  obtain ⟨h,stored,_,after⟩ := runHistorised designed compared (historicCols designed (same ▸ before))
  exact ⟨h,stored,after⟩

end

/-! ### Two runs over a table of two keys -/

def twoKeys : Written :=
  ⟨⟨⟨[["1","a","0","10"].map ascii ++ [nullSentinel,ascii "1",ascii "1"],
    ["2","b","0","10"].map ascii ++ [nullSentinel,ascii "1",ascii "1"]],false⟩,dimensionCols⟩,2⟩

def twoKeysTable : Target :=
  ⟨dimensionCols,[18,0,0,0] ++ ascii "1,a,0,10,NULL,1,1\n" ++ [18,0,0,0] ++ ascii "2,b,0,10,NULL,1,1\n"⟩

/-- The second snapshot has the first key only. -/
def oneLeft : Written :=
  ⟨⟨⟨[["1","a","0","10","20","0","1"].map ascii,["2","b","0","10"].map ascii ++ [nullSentinel,ascii "1",ascii "1"],
    ["1","c","0","20"].map ascii ++ [nullSentinel,ascii "1",ascii "2"]],false⟩,dimensionCols⟩,1⟩

def oneLeftTable : Target :=
  ⟨dimensionCols,[16,0,0,0] ++ ascii "1,a,0,10,20,0,1\n" ++ [18,0,0,0] ++ ascii "2,b,0,10,NULL,1,1\n" ++ [18,0,0,0] ++
    ascii "1,c,0,20,NULL,1,2\n"⟩

set_option maxRecDepth 10000 in
theorem twoKeysWritten : @writeRsToTable wholeFloats .rows twoKeys.out = some twoKeysTable := by rfl

set_option maxRecDepth 10000 in
theorem oneLeftWritten : @writeRsToTable wholeFloats .rows oneLeft.out = some oneLeftTable := by rfl

def twoKeysRun : @Ran plainEngine dimension Int _ wholeFloats .rows none (snapshot [["1","a","0"],["2","b","0"]]) 10 twoKeysTable :=
  @Ran.mk plainEngine dimension Int _ wholeFloats .rows none _ 10 twoKeysTable none twoKeys rfl (by rfl) twoKeysWritten

def oneLeftRun : @Ran plainEngine dimension Int _ wholeFloats .rows (some twoKeysTable) (snapshot [["1","c","0"]]) 20 oneLeftTable :=
  @Ran.mk plainEngine dimension Int _ wholeFloats .rows _ _ 20 oneLeftTable (some twoKeys.out) oneLeft (by rfl) (by rfl)
    oneLeftWritten

theorem twoKeysDesigned : @Designed plainEngine dimension Int _ wholeFloats _ _ _ _ _ twoKeysRun :=
  @Designed.mk plainEngine dimension Int _ wholeFloats _ _ _ _ _ twoKeysRun rfl (fun h e => nomatch e) (by rfl) (by decide)
    (fun n hn => by cases List.mem_singleton.mp hn; exact ⟨0,by decide⟩) ⟨4,by decide⟩ (by unfold KeysTold; decide)

theorem twoKeysCompared : @Compared plainEngine dimension Int _ wholeFloats _ _ _ _ _ twoKeysRun :=
  @Compared.mk plainEngine dimension Int _ wholeFloats _ _ _ _ _ twoKeysRun
    (fun c hc => by cases List.mem_singleton.mp hc; exact ⟨1,by decide⟩) (fun cells _ _ c found => nomatch found)
    fun cells _ c found => nomatch found

theorem oneLeftDesigned : @Designed plainEngine dimension Int _ wholeFloats _ _ _ _ _ oneLeftRun :=
  @Designed.mk plainEngine dimension Int _ wholeFloats _ _ _ _ _ oneLeftRun rfl (fun h e => .inl rfl) (by rfl) (by decide)
    (fun n hn => by cases List.mem_singleton.mp hn; exact ⟨0,by decide⟩) ⟨4,by decide⟩ (by unfold KeysTold; decide)

theorem oneLeftCompared : @Compared plainEngine dimension Int _ wholeFloats _ _ _ _ _ oneLeftRun :=
  @Compared.mk plainEngine dimension Int _ wholeFloats _ _ _ _ _ oneLeftRun
    (fun c hc => by cases List.mem_singleton.mp hc; exact ⟨1,by decide⟩)
    (fun cells hc _ c found closed => by
      cases List.mem_singleton.mp hc
      cases found
      cases closed)
    fun cells _ c found i hash => nomatch hash

theorem twoKeysReached : @Reached plainEngine dimension Int _ wholeFloats .rows
    (@Sound plainEngine dimension Int _ wholeFloats .rows) (some twoKeysTable) :=
  @Reached.run plainEngine dimension Int _ wholeFloats .rows _ _ _ _ _
    (@Reached.empty plainEngine dimension Int _ wholeFloats .rows _) twoKeysRun ⟨twoKeysDesigned,twoKeysCompared⟩

/-- After both runs the first key has the second snapshot's version, and the second key the first's. -/
theorem runsTwice : ∃ h, selectStar oneLeftTable = some h ∧
    Historised dimension (snapshot [["1","c","0"]]) (some twoKeys.out) h :=
  @runsHistorised plainEngine dimension Int _ wholeFloats .rows _ _ _ _ twoKeysReached oneLeftRun oneLeftDesigned oneLeftCompared

/-- Deletions are tracked, and the key the second snapshot does not have still has an open version. -/
theorem absentStaysOpen : dimension.deletedFlag ≠ [] ∧
    @Reached plainEngine dimension Int _ wholeFloats .rows (@Sound plainEngine dimension Int _ wholeFloats .rows) (some oneLeftTable) ∧
    (∀ cells ∈ (snapshot [["1","c","0"]]).rows, keyOf dimension (snapshot [["1","c","0"]]).names cells ≠ [ascii "2"]) ∧
    ∃ h, selectStar oneLeftTable = some h ∧ (openOf dimension h.names h.rows [ascii "2"]).length = 1 :=
  ⟨by decide,@Reached.run plainEngine dimension Int _ wholeFloats .rows _ _ _ _ _ twoKeysReached oneLeftRun
    ⟨oneLeftDesigned,oneLeftCompared⟩,by decide,oneLeft.out,by rfl,by decide⟩

end Napastak.Scd2
