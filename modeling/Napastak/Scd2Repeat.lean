import Napastak.Scd2Runs

/-! A run repeated over one snapshot. Where every version a run opens starts after those its key has, the repeat finds
that version current and leaves the table as it is; two versions that start at one time make the older one current. -/
namespace Napastak.Scd2
open Store Query Codec Groups

/-- The time a row begins at, as the window query sees it. -/
def timeOf (st : PipelineStep) (names : List Bytes) (row : Row) : Bytes := engineText names row (timeCol st)

section
variable {E : Engine} {st : PipelineStep} {F : Type} [Doubles F] [Floats] {build : Build}

/-- The query for the current versions runs, with the columns of the table under their names. -/
def Windowed (E : Engine) (st : PipelineStep) (names : List Bytes) : Prop :=
  E.window names (bkCols st) (timeCol st) = .columns ∨ E.window names (bkCols st) (timeCol st) = .rejected

/-- The columns of the step do not get in each other's way: neither flag nor end is hash or time, the row number is not
the hash, and what is compared without a hash is copied. -/
structure OwnMetadata (st : PipelineStep) (srcNames cols : List Bytes) : Prop where
  flag : ∀ j, colIndex cols st.currentFlagCol = some j → colIndex cols st.hashCol ≠ some j
  number : colIndex (cols ++ [ascii "__scd2_rn"]) st.hashCol = colIndex cols st.hashCol
  time : ∀ j, colIndex cols (timeCol st) = some j →
    colIndex cols st.effectiveToCol ≠ some j ∧ colIndex cols st.currentFlagCol ≠ some j
  copied : colIndex cols st.hashCol = none → ∀ c ∈ compareCols st srcNames, Copied st cols c

/-- A run whose repeat changes nothing. -/
structure Settled (t : Option Target) (src : Rs) (clock : Int64) (t' : Target) (ran : Ran E st F build t src clock t') :
    Prop where
  designed : Designed ran
  selects : E.selects = true
  windowed : Windowed E st (colsOf E st ran.hist src)
  own : OwnMetadata st src.names (colsOf E st ran.hist src)
  later : E.window (colsOf E st ran.hist src) (bkCols st) (timeCol st) = .columns → ∀ cells ∈ src.rows,
    opensRow E st F ran.hist src cells = true → ∀ row ∈ rowsOf ran.hist,
      keyOf st (colsOf E st ran.hist src) row = keyOf st src.names cells → ∀ version,
        0 < ordCmpDesc F (timeOf st (colsOf E st ran.hist src) row)
          (timeOf st (colsOf E st ran.hist src) (newRow E st src.names (colsOf E st ran.hist src) (lld clock) version cells))

end

section
variable (E : Engine) (st : PipelineStep) (F : Type) [Doubles F]

/-- The older versions of a key are closed, and begin before the newer ones. -/
def Ordered (names : List Bytes) (rows : List Row) : Prop :=
  rows.Pairwise fun a b => keyOf st names a = keyOf st names b → openIn st names a = false ∧
    (E.window names (bkCols st) (timeCol st) = .columns → 0 < ordCmpDesc F (timeOf st names a) (timeOf st names b))

end

/-! ### The newest version is found -/

variable {E : Engine} {st : PipelineStep} {F : Type} [Doubles F]

/-- The window query sorts the rows of a key together. -/
theorem winGrouped (names : List Bytes) : Grouped (winCmp st F names) (fun a => partKey names (bkCols st) a.1)
    (fun g g' => strcmp g g' < 0) where
  trans := strcmpTrans
  irrefl a := by rw [strcmpSelf]; omega
  before {a b} h := by
    by_cases same : strcmp (partKey names (bkCols st) a.1) (partKey names (bkCols st) b.1) = 0
    · exact .inl (strcmpZero same)
    · unfold winCmp at h
      simp only [if_neg same] at h
      exact .inr (by omega)
  after {a b} h := by
    by_cases same : strcmp (partKey names (bkCols st) a.1) (partKey names (bkCols st) b.1) = 0
    · exact .inl (strcmpZero same)
    · unfold winCmp at h
      simp only [if_neg same] at h
      exact .inr (by rw [strcmpFlip]; omega)

theorem findOnly {xs : List Row} {p : Row → Bool} {x : Row} (mem : x ∈ xs) (hit : p x = true)
    (only : ∀ y ∈ xs, p y = true → y = x) : xs.find? p = some x := by
  cases found : xs.find? p with
  | none => exact absurd hit (List.find?_eq_none.mp found x mem)
  | some y => rw [only y (List.mem_of_find?_eq_some found) (List.find?_some found)]

/-- The newest version of a key: its last row. -/
def Newest (st : PipelineStep) (names : List Bytes) (rows : List Row) (k : List Bytes) (v : Row) : Prop :=
  keyOf st names v = k ∧ ∃ pre post, rows = pre ++ v :: post ∧ ∀ z ∈ post, keyOf st names z ≠ k

theorem newestOf {names : List Bytes} {rows : List Row} {row : Row} (mem : row ∈ rows) :
    ∃ v, Newest st names rows (keyOf st names row) v := by
  induction rows using List.reverseRecOn with
  | nil => cases mem
  | append_singleton rows x ih =>
    by_cases here : keyOf st names x = keyOf st names row
    · exact ⟨x,here,rows,[],rfl,fun z hz => (List.not_mem_nil hz).elim⟩
    · have before : row ∈ rows := (List.mem_append.mp mem).resolve_right fun e => here (by rw [List.mem_singleton.mp e])
      obtain ⟨v,key,pre,post,rfl,last⟩ := ih before
      refine ⟨v,key,pre,post ++ [x],by rw [List.append_assoc]; rfl,fun z hz => ?_⟩
      rcases List.mem_append.mp hz with hz | hz
      · exact last z hz
      · rw [List.mem_singleton.mp hz]
        exact here

theorem newestMem {names : List Bytes} {rows : List Row} {k : List Bytes} {v : Row} (newest : Newest st names rows k v) :
    v ∈ rows := by
  obtain ⟨_,pre,post,rfl,_⟩ := newest
  exact List.mem_append_right _ (List.mem_cons_self ..)

/-- Rows behind that have other keys change nothing. -/
theorem newestKept {names : List Bytes} {rows news : List Row} {k : List Bytes} {v : Row} (newest : Newest st names rows k v)
    {f : Row → Row} (key : ∀ row, keyOf st names (f row) = keyOf st names row) (other : ∀ z ∈ news, keyOf st names z ≠ k) :
    Newest st names (rows.map f ++ news) k (f v) := by
  obtain ⟨mine,pre,post,rfl,last⟩ := newest
  refine ⟨(key v).trans mine,pre.map f,post.map f ++ news,by simp,fun z hz => ?_⟩
  rcases List.mem_append.mp hz with hz | hz
  · obtain ⟨row,hr,rfl⟩ := List.mem_map.mp hz
    rw [key]
    exact last row hr
  · exact other z hz

theorem newestNew {names : List Bytes} {olds news : List Row} {k : List Bytes} {v : Row}
    (one : (news.filter fun new => keyOf st names new = k) = [v]) : Newest st names (olds ++ news) k v := by
  obtain ⟨pre,post,rfl,_,here,rest⟩ := List.filter_eq_cons_iff.mp one
  refine ⟨of_decide_eq_true here,olds ++ pre,post,by rw [List.append_assoc],fun z hz same => ?_⟩
  exact List.filter_eq_nil_iff.mp rest z hz (decide_eq_true same)

section
variable {h src : Rs} (told : KeysTold (h.rows.map (keyOf st h.names) ++ src.rows.map (keyOf st src.names)))
include told

theorem toldPart {a b : Row} (ha : a ∈ h.rows) (hb : b ∈ h.rows)
    (same : partKey h.names (bkCols st) a = partKey h.names (bkCols st) b) : keyOf st h.names a = keyOf st h.names b := by
  rw [partKeyIs,partKeyIs] at same
  exact (told _ (List.mem_append_left _ (List.mem_map_of_mem ha)) _ (List.mem_append_left _ (List.mem_map_of_mem hb))).2 same

theorem toldText {a cells : Row} (ha : a ∈ h.rows) (hc : cells ∈ src.rows)
    (same : keyText st h.names a = keyText st src.names cells) : keyOf st h.names a = keyOf st src.names cells :=
  (told _ (List.mem_append_left _ (List.mem_map_of_mem ha)) _ (List.mem_append_right _ (List.mem_map_of_mem hc))).1 same

/-- Of the rows of a key, the newest alone has number 1. -/
theorem numberedNewest (plain : E.window h.names (bkCols st) (timeCol st) = .columns) (ordered : Ordered E st F h.names h.rows)
    {k : List Bytes} {v : Row} (newest : Newest st h.names h.rows k v) :
    v ∈ firstNumbered st F h.names h.rows ∧
      ∀ y ∈ firstNumbered st F h.names h.rows, keyOf st h.names y = k → y = v := by
  obtain ⟨mine,pre,post,split,last⟩ := newest
  have mem : ∀ y, y ∈ pre ∨ y = v ∨ y ∈ post → y ∈ h.rows := fun y hy => by rw [split]; simpa using hy
  have zip : h.rows.zipIdx = pre.zipIdx ++ (v,pre.length) :: post.zipIdx (pre.length + 1) := by
    rw [split,List.zipIdx_append,List.zipIdx_cons,Nat.zero_add]
  have beats : ∀ y ∈ pre.zipIdx, partKey h.names (bkCols st) y.1 = partKey h.names (bkCols st) v →
      0 < winCmp st F h.names y (v,pre.length) := fun y hy same => by
    have hy' := List.fst_mem_of_mem_zipIdx hy
    have one := toldPart told (mem _ (.inl hy')) (mem _ (.inr (.inl rfl))) same
    rw [Ordered,split,List.pairwise_append] at ordered
    have time := (ordered.2.2 _ hy' v (List.mem_cons_self ..) one).2 plain
    unfold winCmp
    simp only [same,strcmpSelf,if_true]
    exact time
  have other : ∀ z ∈ post.zipIdx (pre.length + 1), partKey h.names (bkCols st) z.1 ≠ partKey h.names (bkCols st) v :=
    fun z hz same => by
      have hz' := List.fst_mem_of_mem_zipIdx hz
      exact last _ hz' ((toldPart told (mem _ (.inr (.inr hz'))) (mem _ (.inr (.inl rfl))) same).trans mine)
  have lead := leadersLast (@winGrouped st F _ h.names) (x := (v,pre.length)) rfl beats other
  rw [← zip] at lead
  have first : (v,pre.length) ∈ leaders (winCmp st F h.names) (fun a => partKey h.names (bkCols st) a.1) h.rows.zipIdx :=
    (List.mem_filter.mp (lead.symm ▸ List.mem_singleton.mpr rfl)).1
  refine ⟨List.mem_map.mpr ⟨_,List.mem_filter.mpr ⟨leadersMem first,decide_eq_true first⟩,rfl⟩,fun y hy same => ?_⟩
  obtain ⟨p,hp,rfl⟩ := List.mem_map.mp hy
  have group : partKey h.names (bkCols st) p.1 = partKey h.names (bkCols st) v := by rw [partKeyIs,partKeyIs,same,mine]
  have only : p ∈ [(v,pre.length)] :=
    lead ▸ List.mem_filter.mpr ⟨of_decide_eq_true (List.mem_filter.mp hp).2,decide_eq_true group⟩
  rw [List.mem_singleton.mp only]

/-- The version a source row is compared with is the newest of its key. -/
theorem foundColumns (key : ∀ n ∈ bkCols st, colIndex h.names n ≠ none)
    (plain : E.window h.names (bkCols st) (timeCol st) = .columns) (ordered : Ordered E st F h.names h.rows)
    {cells v : Row} (hc : cells ∈ src.rows) (newest : Newest st h.names h.rows (keyOf st src.names cells) v) :
    findCurrent st src.names (currentRs E st F h) cells = some (h.names.map (cellOf h.names v) ++ [ascii "1"]) := by
  obtain ⟨mem,only⟩ := numberedNewest told plain ordered newest
  have text : ∀ row, buildKey (h.names ++ [ascii "__scd2_rn"]) (bkCols st) (h.names.map (cellOf h.names row) ++ [ascii "1"]) =
      keyText st h.names row := fun row => currentKey key fun n some_ => numberedCells h.names row some_
  rw [findCurrent,currentPlain plain]
  refine findOnly (List.mem_map_of_mem mem) (decide_eq_true ?_) fun y hy hit => ?_
  · rw [text,keyTextIs,newest.1]
    rfl
  · obtain ⟨row,hr,rfl⟩ := List.mem_map.mp hy
    obtain ⟨p,hp,rfl⟩ := List.mem_map.mp hr
    have same := of_decide_eq_true hit
    rw [text] at same
    rw [only p.1 hr (toldText told (List.fst_mem_of_mem_zipIdx (List.mem_filter.mp hp).1) hc same)]

/-- Without the window query it is the newest of its key if that one is open. -/
theorem foundRejected (rejected : E.window h.names (bkCols st) (timeCol st) = .rejected) (ordered : Ordered E st F h.names h.rows)
    {cells v : Row} (hc : cells ∈ src.rows) (newest : Newest st h.names h.rows (keyOf st src.names cells) v) :
    findCurrent st src.names (currentRs E st F h) cells = if openIn st h.names v then some v else none := by
  rw [findCurrent,currentRejected rejected]
  have only : ∀ y ∈ openRows st h.names h.rows, keyText st h.names y = keyText st src.names cells → y = v := fun y hy same => by
    obtain ⟨mem,open_⟩ := List.mem_filter.mp hy
    have mine := toldText told mem hc same
    obtain ⟨key_,pre,post,split,last⟩ := newest
    rw [split] at mem
    rcases List.mem_append.mp mem with before | here
    · rw [Ordered,split,List.pairwise_append] at ordered
      have shut := (ordered.2.2 y before v (List.mem_cons_self ..) (mine.trans key_.symm)).1
      rw [openIn,open_] at shut
      cases shut
    · rcases List.mem_cons.mp here with here | after
      · exact here
      · exact absurd mine (last y after)
  cases open_ : openIn st h.names v with
  | true =>
    refine findOnly (List.mem_filter.mpr ⟨newestMem newest,open_⟩) (decide_eq_true ?_) fun y hy hit =>
      only y hy (of_decide_eq_true hit)
    rw [← keyText,keyTextIs,newest.1]
    rfl
  | false =>
    refine List.find?_eq_none.mpr fun y hy hit => ?_
    rw [only y hy (of_decide_eq_true hit)] at hy
    rw [openIn] at open_
    rw [(List.mem_filter.mp hy).2] at open_
    cases open_

end

/-! ### What a comparison sees -/

/-- A version is compared by its cells, whatever stands behind them. -/
theorem changedShown {srcNames cols names : List Bytes} {cells c v : Row}
    (form : ∀ n, colIndex cols n ≠ none → cellOf names c n = cellOf cols v n)
    (number : colIndex names st.hashCol = colIndex cols st.hashCol)
    (copied : colIndex cols st.hashCol = none → ∀ n ∈ compareCols st srcNames, Copied st cols n) :
    changed E st srcNames names cells c = changed E st srcNames cols cells v := by
  unfold changed
  rw [number]
  cases hash : colIndex cols st.hashCol with
  | some i =>
    have same := form st.hashCol (by rw [hash]; exact Option.some_ne_none i)
    rw [cellAtIndex (number.trans hash),cellAtIndex hash] at same
    simp only [same]
  | none =>
    have same : ∀ n ∈ compareCols st srcNames, cellOf names c n = cellOf cols v n := fun n hn => by
      obtain ⟨j,at_,_⟩ := copied hash n hn
      exact form n (by rw [at_]; exact Option.some_ne_none j)
    rw [Bool.eq_iff_iff,List.any_eq_true,List.any_eq_true]
    exact exists_congr fun n => and_congr_right fun hn => by rw [same n hn]

/-- A source row is compared with the newest version of its key, which is open where the window query does not run. -/
theorem foundNewest {h src : Rs} (told : KeysTold (h.rows.map (keyOf st h.names) ++ src.rows.map (keyOf st src.names)))
    (key : ∀ n ∈ bkCols st, colIndex h.names n ≠ none) (windowed : Windowed E st h.names)
    (own : OwnMetadata st src.names h.names) (ordered : Ordered E st F h.names h.rows) {cells v : Row} (hc : cells ∈ src.rows)
    (newest : Newest st h.names h.rows (keyOf st src.names cells) v) :
    (∀ c, findCurrent st src.names (currentRs E st F h) cells = some c →
      changed E st src.names (currentRs E st F h).names cells c = changed E st src.names h.names cells v ∧
        (E.window h.names (bkCols st) (timeCol st) = .rejected → openIn st h.names v = true)) ∧
      ((E.window h.names (bkCols st) (timeCol st) = .rejected → openIn st h.names v = true) →
        findCurrent st src.names (currentRs E st F h) cells ≠ none) := by
  rcases windowed with plain | rejected
  · rw [foundColumns told key plain ordered hc newest]
    refine ⟨fun c e => ?_,fun _ => Option.some_ne_none _⟩
    cases e
    rw [currentPlain plain,plain]
    exact ⟨changedShown (fun n some_ => numberedCells h.names v some_) own.number own.copied,fun e => nomatch e⟩
  · rw [foundRejected told rejected ordered hc newest]
    refine ⟨fun c e => ?_,fun open_ => by rw [open_ rejected]; exact Option.some_ne_none _⟩
    split at e
    · rename_i open_
      cases e
      rw [currentRejected rejected]
      exact ⟨rfl,fun _ => open_⟩
    · cases e

/-- A new version is what its source row is compared with as unchanged. -/
theorem changedNew {srcNames cols : List Bytes} (own : OwnMetadata st srcNames cols) (now version : Bytes) (cells : Row) :
    changed E st srcNames cols cells (newRow E st srcNames cols now version cells) = false := by
  unfold changed
  cases hash : colIndex cols st.hashCol with
  | some i =>
    have lt : i < (cols.zipIdx.map fun c => newCell st srcNames cols now version cells c.1 c.2).length := by
      rw [List.length_map,List.length_zipIdx]
      exact colIndexLt hash
    simp only [newRow,hash,setAtSelf lt]
    simp
  | none =>
    refine List.any_eq_false.mpr fun n hn => ?_
    rw [newCopied (own.copied hash n hn)]
    simp

/-- A version carried over and not closed is compared as before. -/
theorem changedCarried {srcNames cols : List Bytes} (own : OwnMetadata st srcNames cols) {closed : List Bytes} {now : Bytes}
    {row : Row} (stays : closesRow st cols closed row = false) (cells : Row) :
    changed E st srcNames cols cells (carryRow st cols closed now row) = changed E st srcNames cols cells row := by
  unfold changed
  cases hash : colIndex cols st.hashCol with
  | some i =>
    have flag_ : colIndex cols st.currentFlagCol ≠ some i := fun e => own.flag i e hash
    simp only [carryRow,stays,setAtOther flag_,Bool.false_eq_true,if_false]
  | none =>
    rw [Bool.eq_iff_iff,List.any_eq_true,List.any_eq_true]
    exact exists_congr fun n => and_congr_right fun hn => by rw [carryCopied (own.copied hash n hn)]

theorem timeCarried {srcNames cols : List Bytes} (own : OwnMetadata st srcNames cols) (closed : List Bytes) (now : Bytes)
    (row : Row) : timeOf st cols (carryRow st cols closed now row) = timeOf st cols row := by
  have same : cellOf cols (carryRow st cols closed now row) (timeCol st) = cellOf cols row (timeCol st) := by
    cases at_ : colIndex cols (timeCol st) with
    | none =>
      simp only [cellOf,at_]
      rfl
    | some j => rw [cellAtIndex at_,cellAtIndex at_,carryOther (own.time j at_).1 (own.time j at_).2]
  rw [timeOf,timeOf,engineText,engineText,same]

/-- The flag says whether the row is open. -/
def FlagRight (st : PipelineStep) (cols : List Bytes) (row : Row) : Prop :=
  ∀ j, colIndex cols st.currentFlagCol = some j → row.getD j [] = flag (openIn st cols row)

theorem flagCarried {cols : List Bytes} {j : Nat} (to_ : colIndex cols st.effectiveToCol = some j)
    (flag_ : colIndex cols st.currentFlagCol ≠ some j) {row : Row} (wide : row.length = cols.length) (closed : List Bytes)
    (clock : Int64) : FlagRight st cols (carryRow st cols closed (lld clock) row) := by
  intro i at_
  rw [openCarried to_ flag_ wide,carryRow,at_,setAtSelf (by
    split
    · rw [setAtLength,wide]
      exact colIndexLt at_
    · rw [wide]
      exact colIndexLt at_)]
  rfl

theorem flagNew {srcNames cols : List Bytes} (own : OwnMetadata st srcNames cols) {j : Nat}
    (to_ : colIndex cols st.effectiveToCol = some j) (flag_ : colIndex cols st.currentFlagCol ≠ some j)
    (hash : colIndex cols st.hashCol ≠ some j) (now version : Bytes) (cells : Row) :
    FlagRight st cols (newRow E st srcNames cols now version cells) := by
  intro i at_
  obtain ⟨_,n,here,_⟩ := colIndexFound at_
  have other : colIndex cols st.effectiveToCol ≠ some i := fun e => flag_ (at_.trans (e.symm.trans to_))
  rw [openIn,newOpen to_ hash,newCellAt here (own.flag i at_),newCell,if_neg other,if_pos at_]
  rfl

/-- A row that is not closed and has its flag right is carried over as it is. -/
theorem carryFix {cols : List Bytes} {closed : List Bytes} {now : Bytes} {row : Row} (stays : closesRow st cols closed row = false)
    (wide : row.length = cols.length) (right : FlagRight st cols row) : carryRow st cols closed now row = row := by
  rw [carryRow,stays]
  simp only [Bool.false_eq_true,if_false,Bool.not_false,Bool.and_true]
  cases at_ : colIndex cols st.currentFlagCol with
  | none => rfl
  | some j =>
    have lt : j < row.length := wide ▸ colIndexLt at_
    have here := right j at_
    rw [List.getD_eq_getElem?_getD,List.getElem?_eq_getElem lt] at here
    rw [setAt,show (if isOpen (cellOf cols row st.effectiveToCol) then ascii "1" else ascii "0") = row[j] from here.symm]
    exact List.set_getElem_self lt

/-! ### One run and its repeat -/

section
variable [Floats] {build : Build} {t : Option Target} {src : Rs} {clock : Int64} {t' : Target}
  {ran : Ran E st F build t src clock t'}

omit [Floats] in
theorem KeysTold.mono {ks ks' : List (List Bytes)} (told : KeysTold ks) (sub : ∀ k ∈ ks', k ∈ ks) : KeysTold ks' :=
  fun k hk k' hk' => told k (sub k hk) k' (sub k' hk')

/-- The table a run leaves. -/
def Ran.after (ran : Ran E st F build t src clock t') : Rs := ⟨⟨ran.w.out.rows,false⟩,colsOf E st ran.hist src⟩

section
variable (settled : Settled t src clock t' ran) (fin : Finished E st F ran.hist src clock ran.w)
  (wide : ∀ row ∈ rowsOf ran.hist, row.length = (colsOf E st ran.hist src).length)

include settled fin in
theorem afterStored : selectStar t' = some ran.after := by
  rw [settled.designed.stored,writtenNames fin]
  rfl

include settled in
theorem orderedCols (before : ∀ h, ran.hist = some h →
      (∀ row ∈ h.rows, row.length = h.names.length) ∧ Ordered E st F h.names h.rows) :
    (∀ row ∈ rowsOf ran.hist, row.length = (colsOf E st ran.hist src).length) ∧
      Ordered E st F (colsOf E st ran.hist src) (rowsOf ran.hist) := by
  rcases Option.eq_none_or_eq_some ran.hist with e | ⟨h,e⟩
  · rw [show rowsOf ran.hist = [] by rw [e]; rfl]
    exact ⟨fun row hr => (List.not_mem_nil hr).elim,List.Pairwise.nil⟩
  · rw [colsHist settled.designed e,show rowsOf ran.hist = h.rows by rw [e]; rfl]
    exact before h e

include settled fin in
/-- The table a run leaves can be read, as it has its key columns. -/
theorem afterReadable : readable E (some ran.after) = some ran.after := by
  have cols : ran.after.names ≠ [] := fun none_ => by
    obtain ⟨n,hn⟩ := List.exists_mem_of_ne_nil _ fin.configured.1
    obtain ⟨j,at_,_⟩ := settled.designed.key n hn
    have lt := colIndexLt at_
    rw [show colsOf E st ran.hist src = [] from none_] at lt
    exact absurd lt (Nat.not_lt_zero j)
  rw [readable,settled.selects,if_pos rfl,Option.filter_some,if_pos (decide_eq_true cols)]

include settled in
theorem newKey {cells new : Row}
    (h : ∃ version, new = newRow E st src.names (colsOf E st ran.hist src) (lld clock) version cells) :
    keyOf st (colsOf E st ran.hist src) new = keyOf st src.names cells := by
  obtain ⟨version,rfl⟩ := h
  exact keyNew settled.designed.key ..

include settled fin in
/-- The keys of the table after a run are those of the run. -/
theorem afterTold : KeysTold (ran.after.rows.map (keyOf st ran.after.names) ++ src.rows.map (keyOf st src.names)) := by
  refine settled.designed.told.mono fun k hk => ?_
  rcases List.mem_append.mp hk with hk | hk
  · obtain ⟨row,hr,rfl⟩ := List.mem_map.mp hk
    rw [Ran.after,outRows settled.designed fin] at hr
    rcases List.mem_append.mp hr with hr | hr
    · obtain ⟨old,ho,rfl⟩ := List.mem_map.mp hr
      refine List.mem_append_left _ ?_
      rw [Ran.after,keyCarried settled.designed.key]
      exact List.mem_map_of_mem ho
    · obtain ⟨cells,hc,h⟩ := partner (newsMade fin) hr
      refine List.mem_append_right _ ?_
      rw [Ran.after,newKey settled h]
      exact List.mem_map_of_mem (List.mem_filter.mp hc).1
  · exact List.mem_append_right _ hk

include settled in
theorem comparedNewest (ordered : Ordered E st F (colsOf E st ran.hist src) (rowsOf ran.hist)) {cells v c : Row}
    (hc : cells ∈ src.rows) (newest : Newest st (colsOf E st ran.hist src) (rowsOf ran.hist) (keyOf st src.names cells) v)
    (found : findCurrent st src.names (currentOf E st F ran.hist) cells = some c) :
    changed E st src.names (currentOf E st F ran.hist).names cells c = changed E st src.names (colsOf E st ran.hist src) cells v ∧
      (E.window (colsOf E st ran.hist src) (bkCols st) (timeCol st) = .rejected →
        openIn st (colsOf E st ran.hist src) v = true) := by
  rcases Option.eq_none_or_eq_some ran.hist with e | ⟨h,e⟩
  · rw [e] at found
    cases found
  · have cols := colsHist settled.designed e
    have told := settled.designed.told
    have key := fun n hn => keyPresent settled.designed (n := n) hn
    have windowed := settled.windowed
    have own := settled.own
    rw [Ran.keys] at told
    rw [cols] at told key windowed own ordered newest ⊢
    rw [e] at told ordered newest found ⊢
    exact (foundNewest told key windowed own ordered hc newest).1 c found

include settled fin wide

/-- Where a source row opens a version, the older ones of its key are closed. -/
theorem olderClosed {cells row : Row} (hc : cells ∈ src.rows) (opened : opensRow E st F ran.hist src cells = true)
    (hr : row ∈ rowsOf ran.hist) (same : keyOf st (colsOf E st ran.hist src) row = keyOf st src.names cells) :
    openIn st (colsOf E st ran.hist src) (carryRow st (colsOf E st ran.hist src) fin.closed (lld clock) row) = false := by
  obtain ⟨j,to_,flag_,_⟩ := settled.designed.to_
  rw [openCarried to_ flag_ (wide row hr),closesSource settled.designed fin hc same]
  rw [opensRow,settled.designed.read,opens,Bool.and_eq_true] at opened
  obtain ⟨del,match_⟩ := opened
  cases found : findCurrent st src.names (currentOf E st F ran.hist) cells with
  | none =>
    rw [noneOpen settled.designed found hr same]
    rfl
  | some c =>
    rw [found] at match_
    have closed : closesKey E st F ran.hist src cells = true := by
      rw [closesKey,settled.designed.read,closes,found]
      simp only [match_,Bool.or_true]
    rw [closed]
    cases openIn st (colsOf E st ran.hist src) row <;> rfl

theorem afterWide : ∀ row ∈ ran.after.rows, row.length = ran.after.names.length := fun row hr => by
  rw [Ran.after,outRows settled.designed fin] at hr
  rcases List.mem_append.mp hr with hr | hr
  · obtain ⟨old,ho,rfl⟩ := List.mem_map.mp hr
    rw [carryLength]
    exact wide old ho
  · obtain ⟨_,_,version,rfl⟩ := partner (newsMade fin) hr
    exact newLength ..

theorem afterFlagged : ∀ row ∈ ran.after.rows, FlagRight st ran.after.names row := fun row hr => by
  obtain ⟨j,to_,flag_,hash⟩ := settled.designed.to_
  rw [Ran.after,outRows settled.designed fin] at hr
  rcases List.mem_append.mp hr with hr | hr
  · obtain ⟨old,ho,rfl⟩ := List.mem_map.mp hr
    exact flagCarried to_ flag_ (wide old ho) _ _
  · obtain ⟨_,_,version,rfl⟩ := partner (newsMade fin) hr
    exact flagNew settled.own to_ flag_ hash _ _ _

/-- A run keeps the versions of a key in order. -/
theorem afterOrdered (ordered : Ordered E st F (colsOf E st ran.hist src) (rowsOf ran.hist)) :
    Ordered E st F ran.after.names ran.after.rows := by
  obtain ⟨j,to_,flag_,_⟩ := settled.designed.to_
  rw [Ran.after,outRows settled.designed fin]
  refine List.pairwise_append.mpr ⟨?_,?_,fun a ha b hb same => ?_⟩
  · refine List.pairwise_map.mpr (ordered.imp_of_mem fun {a b} ha hb h same => ?_)
    rw [keyCarried settled.designed.key,keyCarried settled.designed.key] at same
    obtain ⟨shut,time⟩ := h same
    refine ⟨?_,fun plain => ?_⟩
    · rw [openCarried to_ flag_ (wide a ha),shut]
      rfl
    · rw [timeCarried settled.own,timeCarried settled.own]
      exact time plain
  · have keys : fin.news.map (keyOf st (colsOf E st ran.hist src)) =
        (src.rows.filter (opensRow E st F ran.hist src)).map (keyOf st src.names) := by
      refine Eq.mp (congrFun (congrFun List.forall₂_eq_eq_eq _) _) (List.forall₂_map_left_iff.mpr
        (List.forall₂_map_right_iff.mpr ((newsMade fin).flip.imp fun new cells h => newKey settled h)))
    have distinct : (fin.news.map (keyOf st (colsOf E st ran.hist src))).Nodup := by
      rw [keys]
      exact (keysNodup fin).sublist (List.filter_sublist.map _)
    exact (List.pairwise_map.mp distinct).imp fun ne same => absurd same ne
  · obtain ⟨row,hr,rfl⟩ := List.mem_map.mp ha
    obtain ⟨cells,hc,version,rfl⟩ := partner (newsMade fin) hb
    obtain ⟨hc,opened⟩ := List.mem_filter.mp hc
    rw [keyCarried settled.designed.key,keyNew settled.designed.key] at same
    refine ⟨olderClosed settled fin wide hc opened hr same,fun plain => ?_⟩
    rw [timeCarried settled.own]
    exact settled.later plain cells hc opened row hr same version

/-- The newest version of a source row's key after the run is what the row passes for unchanged against. -/
theorem newestAfter (ordered : Ordered E st F (colsOf E st ran.hist src) (rowsOf ran.hist)) {cells : Row} (hc : cells ∈ src.rows)
    (del : deleted st src.names cells = false) : ∃ v, Newest st ran.after.names ran.after.rows (keyOf st src.names cells) v ∧
      changed E st src.names ran.after.names cells v = false ∧
      (E.window ran.after.names (bkCols st) (timeCol st) = .rejected → openIn st ran.after.names v = true) := by
  obtain ⟨j,to_,flag_,hash⟩ := settled.designed.to_
  have news := newsOf settled.designed fin hc
  cases opened : opensRow E st F ran.hist src cells with
  | true =>
    rw [if_pos opened] at news
    obtain ⟨v,rest,⟨version,rfl⟩,tail,is⟩ := List.forall₂_cons_left_iff.mp news
    rw [List.forall₂_nil_left_iff.mp tail] at is
    refine ⟨newRow E st src.names (colsOf E st ran.hist src) (lld clock) version cells,?_,changedNew settled.own ..,fun _ => ?_⟩
    · rw [Ran.after,outRows settled.designed fin]
      exact newestNew is
    · rw [openIn,Ran.after,newOpen to_ hash]
      rfl
  | false =>
    rw [opened,if_neg Bool.false_ne_true,List.forall₂_nil_left_iff] at news
    rw [opensRow,settled.designed.read,opens,del] at opened
    cases found : findCurrent st src.names (currentOf E st F ran.hist) cells with
    | none => rw [found] at opened; cases opened
    | some c =>
      rw [found] at opened
      have same : changed E st src.names (currentOf E st F ran.hist).names cells c = false := opened
      obtain ⟨row,hr,key,_⟩ := foundRow settled.designed hc found
      obtain ⟨v,newest⟩ := @newestOf st (colsOf E st ran.hist src) _ _ hr
      rw [key] at newest
      have stays : closesRow st (colsOf E st ran.hist src) fin.closed v = false := by
        rw [closesSource settled.designed fin hc newest.1,closesKey,settled.designed.read,closes,found,del]
        simp only [same,Bool.or_false,Bool.and_false]
      obtain ⟨before,open_⟩ := comparedNewest settled ordered hc newest found
      refine ⟨carryRow st (colsOf E st ran.hist src) fin.closed (lld clock) v,?_,?_,fun rejected => ?_⟩
      · rw [Ran.after,outRows settled.designed fin]
        refine newestKept newest (fun row => keyCarried settled.designed.key ..) fun z hz e => ?_
        exact List.filter_eq_nil_iff.mp news z hz (decide_eq_true e)
      · rw [Ran.after,changedCarried settled.own stays,← before]
        exact same
      · rw [Ran.after,openCarried to_ flag_ (wide v (newestMem newest)),stays,open_ rejected]
        rfl

variable (ordered : Ordered E st F (colsOf E st ran.hist src) (rowsOf ran.hist))
include ordered

/-- The repeat opens no version. -/
theorem againOpens : ∀ cells ∈ src.rows, opensRow E st F (some ran.after) src cells = false := fun cells hc => by
  have read := afterReadable settled fin
  rw [opensRow,read,opens]
  cases del : deleted st src.names cells with
  | true => rfl
  | false =>
    obtain ⟨v,newest,same,open_⟩ := newestAfter settled fin wide ordered hc del
    obtain ⟨compared,some_⟩ := foundNewest (afterTold settled fin) (fun n hn => keyPresent settled.designed hn) settled.windowed
      settled.own (afterOrdered settled fin wide ordered) hc newest
    obtain ⟨c,found⟩ := Option.ne_none_iff_exists'.mp (some_ open_)
    have unchanged := (compared c found).1.trans same
    rw [show findCurrent st src.names (currentOf E st F (some ran.after)) cells = some c from found]
    exact unchanged

/-- The repeat closes no row. -/
theorem againCloses {clock' : Int64} {w : Written} (again : Finished E st F (some ran.after) src clock' w) :
    ∀ row ∈ ran.after.rows, closesRow st ran.after.names again.closed row = false := fun row hr => by
  cases closes_ : closesRow st ran.after.names again.closed row with
  | false => rfl
  | true =>
    obtain ⟨_,open_,text⟩ := closesRowIs.mp closes_
    obtain ⟨cells,hc,closed,same⟩ := (closedMem again).mp text
    have key := toldText (afterTold settled fin) hr hc same.symm
    cases del : deleted st src.names cells with
    | true =>
      have gone := afterGone settled.designed fin wide hc del
      exact absurd (decide_eq_true ⟨key,open_⟩) (List.filter_eq_nil_iff.mp gone row hr)
    | false =>
      -- what is not marked deleted closes its key only where it opens a version
      have opened : opensRow E st F (some ran.after) src cells = closesKey E st F (some ran.after) src cells := by
        rw [closesKey,closes] at closed
        rw [opensRow,closesKey,opens,closes,del]
        split
        · rename_i none_
          rw [none_] at closed
          cases closed
        · rfl
      rw [closed,againOpens settled fin wide ordered cells hc] at opened
      cases opened

/-- The repeat writes the rows it read. -/
theorem againRows {clock' : Int64} {w : Written} (again : Finished E st F (some ran.after) src clock' w) :
    w.nNew = 0 ∧ w.out.rows = ran.after.rows ∧ w.out.names = ran.after.names := by
  have read := afterReadable settled fin
  have none_ : src.rows.countP (opensRow E st F (some ran.after) src) = 0 := List.countP_eq_zero.mpr fun cells hc => by
    rw [againOpens settled fin wide ordered cells hc]
    exact Bool.false_ne_true
  have count : w.nNew = 0 := again.count.trans none_
  have names : w.out.names = ran.after.names := by rw [again.names,read]; rfl
  have news : again.news = [] := List.eq_nil_of_length_eq_zero ((newsLength again).trans count)
  have room : ran.after.rows.length ≤ maxRsRows := by
    rw [Ran.after,fin.rows]
    exact List.length_take_le ..
  have fix : ran.after.rows.map (carryRow st ran.after.names again.closed (lld clock')) = ran.after.rows :=
    (List.map_congr_left fun row hr => carryFix (againCloses settled fin wide ordered again row hr)
      (afterWide settled fin wide row hr) (afterFlagged settled fin wide row hr)).trans (List.map_id ran.after.rows)
  refine ⟨count,?_,names⟩
  rw [again.rows,read,names,news,List.append_nil,show rowsOf (some ran.after) = ran.after.rows from rfl,fix]
  exact List.take_of_length_le room

end

/-- Every table reached has the versions of a key in order. -/
theorem reachedOrdered (reached : Reached E st F build Settled t) : ∃ hist, history t = some hist ∧
    ∀ h, hist = some h → (∀ row ∈ h.rows, row.length = h.names.length) ∧ Ordered E st F h.names h.rows := by
  induction reached with
  | empty => exact ⟨none,rfl,fun h e => nomatch e⟩
  | run _ ran settled ih =>
    obtain ⟨hist,reads,before⟩ := ih
    have same : ran.hist = hist := Option.some.inj (ran.reads.symm.trans reads)
    obtain ⟨wide,ordered⟩ := orderedCols settled (same ▸ before)
    obtain ⟨fin⟩ := finished ran.step
    refine ⟨some ran.after,by rw [history,afterStored settled fin]; rfl,fun h e => ?_⟩
    cases e
    exact ⟨afterWide settled fin wide,afterOrdered settled fin wide ordered⟩

/-- After runs from an empty history that all meet the condition, a run repeated over its snapshot opens and closes
nothing: it leaves the table as it is, whatever the clock says. -/
theorem repeatKeeps (reached : Reached E st F build Settled t) (settled : Settled t src clock t' ran) {clock' : Int64}
    {t'' : Target} (again : Ran E st F build (some t') src clock' t'') : again.w.nNew = 0 ∧ t'' = t' := by
  obtain ⟨hist,reads,before⟩ := reachedOrdered reached
  have same : ran.hist = hist := Option.some.inj (ran.reads.symm.trans reads)
  obtain ⟨wide,ordered⟩ := orderedCols settled (same ▸ before)
  obtain ⟨fin⟩ := finished ran.step
  have here : again.hist = some ran.after := by
    have read := again.reads
    rw [history,afterStored settled fin] at read
    exact (Option.some.inj read).symm
  obtain ⟨fin'⟩ := finished (here ▸ again.step)
  obtain ⟨count,rows,names⟩ := againRows settled fin wide ordered fin'
  have written : batches again.w.out = batches ran.w.out := by
    rw [batches,batches,rows,names,writtenNames fin]
    rfl
  have stored := again.writes
  rw [writeRsToTable,written,names] at stored
  have first := ran.writes
  rw [writeRsToTable,writtenNames fin] at first
  exact ⟨count,Option.some.inj (stored.symm.trans first)⟩

end

theorem dimensionOwn : OwnMetadata dimension ((snapshot []).names) dimensionCols where
  flag := fun j _ hash => nomatch hash
  number := rfl
  time := fun j at_ => by cases at_; decide
  copied := fun _ c hc => by cases List.mem_singleton.mp hc; exact ⟨1,by decide⟩

theorem twoKeysSettled : @Settled plainEngine dimension Int _ wholeFloats .rows _ _ _ _ twoKeysRun :=
  @Settled.mk plainEngine dimension Int _ wholeFloats .rows _ _ _ _ twoKeysRun twoKeysDesigned rfl (.inl rfl) dimensionOwn
    fun _ _ _ _ _ hr => (List.not_mem_nil hr).elim

theorem oneLeftSettled : @Settled plainEngine dimension Int _ wholeFloats .rows _ _ _ _ oneLeftRun :=
  @Settled.mk plainEngine dimension Int _ wholeFloats .rows _ _ _ _ oneLeftRun oneLeftDesigned rfl (.inl rfl) dimensionOwn
    fun _ cells hc _ row hr same version => by
      cases List.mem_singleton.mp hc
      rcases List.mem_cons.mp hr with rfl | hr
      · exact (by decide : 0 < ordCmpDesc Int (ascii "10") (ascii "20"))
      · cases List.mem_singleton.mp hr
        exact absurd same (by decide)

def oneLeftAgain : @Ran plainEngine dimension Int _ wholeFloats .rows (some oneLeftTable) (snapshot [["1","c","0"]]) 30 oneLeftTable :=
  @Ran.mk plainEngine dimension Int _ wholeFloats .rows _ _ 30 oneLeftTable (some oneLeft.out) ⟨oneLeft.out,0⟩ (by rfl) (by rfl)
    oneLeftWritten

theorem repeatsOneLeft : (@Ran.w plainEngine dimension Int _ wholeFloats .rows _ _ _ _ oneLeftAgain).nNew = 0 ∧
    oneLeftTable = oneLeftTable :=
  @repeatKeeps plainEngine dimension Int _ wholeFloats .rows _ _ _ _ oneLeftRun
    (@Reached.run plainEngine dimension Int _ wholeFloats .rows _ _ _ _ _
      (@Reached.empty plainEngine dimension Int _ wholeFloats .rows _) twoKeysRun twoKeysSettled) oneLeftSettled _ _ oneLeftAgain

/-! ### Two versions of one second -/

def version1 : Written := ⟨⟨⟨[["1","a","0","10"].map ascii ++ [nullSentinel,ascii "1",ascii "1"]],false⟩,dimensionCols⟩,1⟩

def version1Table : Target := ⟨dimensionCols,[18,0,0,0] ++ ascii "1,a,0,10,NULL,1,1\n"⟩

def version2 : Written :=
  ⟨⟨⟨[["1","a","0","10","10","0","1"].map ascii,["1","b","0","10"].map ascii ++ [nullSentinel,ascii "1",ascii "2"]],false⟩,
    dimensionCols⟩,1⟩

def version2Table : Target :=
  ⟨dimensionCols,[16,0,0,0] ++ ascii "1,a,0,10,10,0,1\n" ++ [18,0,0,0] ++ ascii "1,b,0,10,NULL,1,2\n"⟩

def version3 : Written :=
  ⟨⟨⟨[["1","a","0","10","10","0","1"].map ascii,["1","b","0","10","10","0","2"].map ascii,
    ["1","b","0","10"].map ascii ++ [nullSentinel,ascii "1",ascii "3"]],false⟩,dimensionCols⟩,1⟩

def version3Table : Target :=
  ⟨dimensionCols,[16,0,0,0] ++ ascii "1,a,0,10,10,0,1\n" ++ [16,0,0,0] ++ ascii "1,b,0,10,10,0,2\n" ++ [18,0,0,0] ++
    ascii "1,b,0,10,NULL,1,3\n"⟩

theorem historyNone : history (none : Option Target) = history none := rfl

set_option maxRecDepth 10000 in
def version1Run : @Ran plainEngine dimension Int _ wholeFloats .rows none (snapshot [["1","a","0"]]) 10 version1Table :=
  @Ran.mk plainEngine dimension Int _ wholeFloats .rows none _ 10 version1Table none version1 historyNone (by rfl) (by rfl)

set_option maxRecDepth 10000 in
def version2Run : @Ran plainEngine dimension Int _ wholeFloats .rows (some version1Table) (snapshot [["1","b","0"]]) 10
    version2Table :=
  @Ran.mk plainEngine dimension Int _ wholeFloats .rows _ _ 10 version2Table (some version1.out) version2 (by rfl) (by rfl) (by rfl)

set_option maxRecDepth 10000 in
def version3Run : @Ran plainEngine dimension Int _ wholeFloats .rows (some version2Table) (snapshot [["1","b","0"]]) 10
    version3Table :=
  @Ran.mk plainEngine dimension Int _ wholeFloats .rows _ _ 10 version3Table (some version2.out) version3 (by rfl) (by rfl) (by rfl)

/-- The second of two runs in one second opens version 2, which its repeat closes for a version 3. -/
theorem repeatReopens : ∃ t t' t'' : Target,
    Nonempty (@Ran plainEngine dimension Int _ wholeFloats .rows none (snapshot [["1","a","0"]]) 10 t) ∧
    Nonempty (@Ran plainEngine dimension Int _ wholeFloats .rows (some t) (snapshot [["1","b","0"]]) 10 t') ∧
    ∃ again : @Ran plainEngine dimension Int _ wholeFloats .rows (some t') (snapshot [["1","b","0"]]) 10 t'',
      (@Ran.w plainEngine dimension Int _ wholeFloats .rows _ _ _ _ again).nNew = 1 ∧ t''.file ≠ t'.file :=
  ⟨version1Table,version2Table,version3Table,⟨version1Run⟩,⟨version2Run⟩,version3Run,rfl,by decide⟩

end Napastak.Scd2
