import Napastak.Scd2Columns
import Napastak.Scd2Store

/-! What a step leaves of the history it started from, and exactly when it leaves all of it. -/
namespace Napastak.Scd2
open Store Query Codec

section
variable (E : Engine) (st : PipelineStep) (F : Type) [Doubles F] (hist : Option Rs) (src : Rs)

/-- The columns of the table the step writes. -/
def colsOf : List Bytes := targetCols st (readable E hist) src.names

def opensRow (cells : Row) : Bool := opens E st src.names (currentOf E st F (readable E hist)) cells

def closesKey (cells : Row) : Bool := closes E st src.names (currentOf E st F (readable E hist)) cells

def openIn (cols : List Bytes) (row : Row) : Bool := isOpen (cellOf cols row st.effectiveToCol)

/-- The run closes the key of this row. -/
def KeyClosed (row : Row) : Prop :=
  ∃ cells ∈ src.rows, closesKey E st F hist src cells = true ∧ keyOf st src.names cells = keyOf st (colsOf E st hist src) row

/-- The row is kept: only its end and its flag may differ, and only when it was open and its key is closed. -/
structure Kept (old new : Row) : Prop where
  length : new.length = old.length
  cells : ∀ j, new.getD j [] = old.getD j [] ∨
    (colIndex (colsOf E st hist src) st.effectiveToCol = some j ∨ colIndex (colsOf E st hist src) st.currentFlagCol = some j) ∧
      openIn st (colsOf E st hist src) old = true ∧ KeyClosed E st F hist src old

/-- `table_append` writes every row of the batch. -/
def Taken [Floats] (build : Build) (b : ColBatch) : Prop := ∃ records, appendRecords build b = some (records,true)

/-- Every row of the history is kept, the new versions come behind, and all of it is stored. -/
def KeepsHistory [Floats] (build : Build) (w : Written) : Prop :=
  (∃ olds news, w.out.rows = olds ++ news ∧ news.length = w.nNew ∧ List.Forall₂ (Kept E st F hist src) (rowsOf hist) olds) ∧
    ∀ b ∈ batches w.out, Taken build b

def flag (on : Bool) : Bytes := if on then ascii "1" else ascii "0"

/-- A row of the history that this run has no reason to touch already has the flag it is given. -/
def Flagged (row : Row) : Prop :=
  ∀ i, colIndex (colsOf E st hist src) st.currentFlagCol = some i →
    ¬ (openIn st (colsOf E st hist src) row = true ∧ KeyClosed E st F hist src row) →
      row.getD i [] = flag (openIn st (colsOf E st hist src) row)

/-- An open row whose key reads like that of a closed one has that key. -/
def ToldApart (row : Row) : Prop :=
  colIndex (colsOf E st hist src) st.effectiveToCol ≠ none → openIn st (colsOf E st hist src) row = true →
    ∀ cells ∈ src.rows, closesKey E st F hist src cells = true →
      keyText st src.names cells = keyText st (colsOf E st hist src) row →
        keyOf st src.names cells = keyOf st (colsOf E st hist src) row

/-- Every row of the batch has room in the row buffer, or the batch in the encoder. -/
def Fits [Floats] (build : Build) (b : ColBatch) : Prop :=
  b.nrows = 0 ∨ match build with
    | .rows => ∀ r < b.nrows, rowBuf b r ≠ none
    | .compressed => batchRecord b ≠ none

structure KeepsWhen [Floats] (build : Build) (out : Rs) : Prop where
  read : readable E hist = none → rowsOf hist = []
  room : (rowsOf hist).length + src.rows.countP (opensRow E st F hist src) ≤ maxRsRows
  told : ∀ row ∈ rowsOf hist, ToldApart E st F hist src row
  flagged : ∀ row ∈ rowsOf hist, Flagged E st F hist src row
  fits : ∀ b ∈ batches out, Fits build b

end

/-- A result set with a cell for every column in every row. -/
def Rs.Wf (rs : Rs) : Prop := ∀ row ∈ rs.rows, row.length = rs.names.length

variable {E : Engine} {st : PipelineStep} {F : Type} [Doubles F] {hist : Option Rs} {src : Rs}

theorem readableSome {h : Rs} (e : readable E hist = some h) : hist = some h := by
  unfold readable at e
  split at e
  · exact (Option.filter_eq_some_iff.mp e).1
  · cases e

/-- A readable history gives the table its columns. -/
theorem colsReadable {h : Rs} (e : readable E hist = some h) : colsOf E st hist src = h.names := by
  rw [colsOf,e]
  rfl

theorem rowsReadable (read : readable E hist = none → rowsOf hist = []) : rowsOf (readable E hist) = rowsOf hist := by
  cases e : readable E hist with
  | none => rw [read e]; rfl
  | some h => rw [readableSome e]

theorem closesRowIs {closed : List Bytes} {row : Row} {cols : List Bytes} : closesRow st cols closed row = true ↔
    colIndex cols st.effectiveToCol ≠ none ∧ openIn st cols row = true ∧ keyText st cols row ∈ closed := by
  simp [closesRow,openIn,keyText,Option.isSome_iff_ne_none,and_assoc]

/-- The end a closed row gets is never that of an open one. -/
theorem clockClosed (clock : Int64) : isOpen (lld clock) = false := by
  have some_ := lldSome clock
  have other : lld clock ≠ nullSentinel := fun e => absurd (e ▸ lldBytes clock) (by decide)
  simp [isOpen,some_,other]

theorem flagClosed : isOpen (flag false) = false := by decide

section
variable {clock : Int64} {w : Written}

theorem closedMem (ran : Finished E st F hist src clock w) {k : Bytes} :
    k ∈ ran.closed ↔ ∃ cells ∈ src.rows, closesKey E st F hist src cells = true ∧ keyText st src.names cells = k := by
  rw [ran.closedIs,List.mem_map]
  simp only [List.mem_filter,closesKey]
  exact ⟨fun ⟨c,⟨hc,hs⟩,e⟩ => ⟨c,hc,hs,e⟩,fun ⟨c,hc,hs,e⟩ => ⟨c,⟨hc,hs⟩,e⟩⟩

theorem newsLength (ran : Finished E st F hist src clock w) : ran.news.length = w.nNew := by
  rw [ran.count,List.countP_eq_length_filter]
  exact (mapMSome.mp ran.newsIs).length_eq.symm

/-- Where the run closes a row it closes its key, if the keys are told apart. -/
theorem closedOwn (ran : Finished E st F hist src clock w) {row : Row} (told : ToldApart E st F hist src row)
    (closes_ : closesRow st (colsOf E st hist src) ran.closed row = true) :
    openIn st (colsOf E st hist src) row = true ∧ KeyClosed E st F hist src row := by
  obtain ⟨to_,open_,key⟩ := closesRowIs.mp closes_
  obtain ⟨cells,hc,hs,same⟩ := (closedMem ran).mp key
  exact ⟨open_,cells,hc,hs,told to_ open_ cells hc hs same⟩

/-- The step for one row: it is kept if its key is told apart and its flag is right. -/
theorem carryKept (ran : Finished E st F hist src clock w) {row : Row} (told : ToldApart E st F hist src row)
    (flagged : Flagged E st F hist src row) :
    Kept E st F hist src row (carryRow st (colsOf E st hist src) ran.closed (lld clock) row) where
  length := carryLength ..
  cells j := by
    by_cases mine : openIn st (colsOf E st hist src) row = true ∧ KeyClosed E st F hist src row
    · by_cases col : colIndex (colsOf E st hist src) st.effectiveToCol = some j ∨
          colIndex (colsOf E st hist src) st.currentFlagCol = some j
      · exact .inr ⟨col,mine⟩
      · exact .inl (carryOther (fun e => col (.inl e)) fun e => col (.inr e))
    · left
      have stays : closesRow st (colsOf E st hist src) ran.closed row = false := by
        cases closes_ : closesRow st (colsOf E st hist src) ran.closed row with
        | false => rfl
        | true => exact absurd (closedOwn ran told closes_) mine
      by_cases col : colIndex (colsOf E st hist src) st.currentFlagCol = some j
      · by_cases lt : j < row.length
        · rw [flagged j col mine,carryRow,stays,col]
          simp only [Bool.not_false,Bool.and_true,Bool.false_eq_true,if_false]
          exact setAtSelf lt _
        · have gone : row.getD j [] = [] := by
            rw [List.getD_eq_getElem?_getD,List.getElem?_eq_none (Nat.not_lt.mp lt)]
            rfl
          rw [gone,List.getD_eq_getElem?_getD,List.getElem?_eq_none (by rw [carryLength]; exact Nat.not_lt.mp lt)]
          rfl
      · rw [carryRow,stays,setAtOther col]
        rfl

/-- All rows of a batch are written exactly if each has room. -/
theorem takenIff [Floats] (build : Build) (b : ColBatch) : Taken build b ↔ Fits build b := by
  unfold Taken Fits appendRecords
  by_cases none_ : b.nrows = 0
  · simp [none_]
  · rw [if_neg none_]
    cases build with
    | compressed =>
      cases batchRecord b <;> simp [none_]
    | rows =>
      have all : ∀ rs : List Nat, (rowRecords b rs).2 = true ↔ ∀ r ∈ rs, rowBuf b r ≠ none := fun rs => by
        induction rs with
        | nil => simp [rowRecords]
        | cons r rs ih =>
          rw [rowRecords,rowRecord,List.forall_mem_cons]
          cases rowBuf b r <;> simp [ih]
      have whole := all (List.range b.nrows)
      simp only [List.mem_range] at whole
      refine ⟨fun taken => ?_,fun h => ?_⟩
      · obtain ⟨records,h⟩ := taken
        exact .inr (whole.mp (by rw [Option.some.inj h]))
      · exact ⟨_,congrArg some (Prod.ext rfl (whole.mpr (h.resolve_left none_)))⟩

theorem writtenNames (ran : Finished E st F hist src clock w) : w.out.names = colsOf E st hist src := ran.names

/-- With a readable history and room the written rows are the carried ones and the new ones. -/
theorem writtenRows (ran : Finished E st F hist src clock w) (read : readable E hist = none → rowsOf hist = [])
    (room : (rowsOf hist).length + w.nNew ≤ maxRsRows) :
    w.out.rows = (rowsOf hist).map (carryRow st (colsOf E st hist src) ran.closed (lld clock)) ++ ran.news := by
  rw [ran.rows,rowsReadable read,writtenNames ran]
  refine List.take_of_length_le ?_
  rw [List.length_append,List.length_map,newsLength ran]
  exact room

/-- Two rows of the source with one key text are one row. -/
theorem sourceKeys (ran : Finished E st F hist src clock w) {a b : Row} (ha : a ∈ src.rows) (hb : b ∈ src.rows)
    (same : keyText st src.names a = keyText st src.names b) : a = b :=
  List.inj_on_of_nodup_map ran.nodup ha hb same

theorem keysNodup (ran : Finished E st F hist src clock w) : (src.rows.map (keyOf st src.names)).Nodup := by
  have texts : src.rows.map (keyText st src.names) = (src.rows.map (keyOf st src.names)).map (joinCut 0x1f 1023) := by
    rw [List.map_map]
    rfl
  exact List.Nodup.of_map _ (texts ▸ ran.nodup)

/-- A row that reads like a closed one is given another end, so it is kept only if the run closes its key. -/
theorem keptTold (ran : Finished E st F hist src clock w) {row : Row}
    (wide : row.length = (colsOf E st hist src).length)
    (kept : Kept E st F hist src row (carryRow st (colsOf E st hist src) ran.closed (lld clock) row)) :
    ToldApart E st F hist src row := by
  intro to_ open_ cells hc hs same
  obtain ⟨j,at_⟩ := Option.ne_none_iff_exists'.mp to_
  have closes_ : closesRow st (colsOf E st hist src) ran.closed row = true :=
    closesRowIs.mpr ⟨to_,open_,(closedMem ran).mpr ⟨cells,hc,hs,same⟩⟩
  have lt : j < row.length := wide ▸ colIndexLt at_
  have shut : isOpen ((carryRow st (colsOf E st hist src) ran.closed (lld clock) row).getD j []) = false := by
    rw [carryRow,closes_,if_pos rfl,at_]
    simp only [Bool.not_true,Bool.and_false,Bool.false_eq_true,if_false]
    by_cases flag_ : colIndex (colsOf E st hist src) st.currentFlagCol = some j
    · rw [flag_,setAtSelf (by rw [setAtLength]; exact lt)]
      exact flagClosed
    · rw [setAtOther flag_,setAtSelf lt]
      exact clockClosed clock
  rcases kept.cells j with same_ | ⟨_,_,other,ho,hos,key⟩
  · rw [openIn,cellAtIndex at_,← same_,shut] at open_
    cases open_
  · have one : other = cells := sourceKeys ran ho hc (by rw [keyTextIs,key,same]; rfl)
    exact one ▸ key

theorem keptFlagged (ran : Finished E st F hist src clock w) {row : Row}
    (wide : row.length = (colsOf E st hist src).length) (told : ToldApart E st F hist src row)
    (kept : Kept E st F hist src row (carryRow st (colsOf E st hist src) ran.closed (lld clock) row)) :
    Flagged E st F hist src row := by
  intro i at_ other
  have stays : closesRow st (colsOf E st hist src) ran.closed row = false := by
    cases closes_ : closesRow st (colsOf E st hist src) ran.closed row with
    | false => rfl
    | true => exact absurd (closedOwn ran told closes_) other
  have given : (carryRow st (colsOf E st hist src) ran.closed (lld clock) row).getD i [] =
      flag (openIn st (colsOf E st hist src) row) := by
    rw [carryRow,stays,at_]
    simp only [Bool.not_false,Bool.and_true,Bool.false_eq_true,if_false]
    exact setAtSelf (wide ▸ colIndexLt at_) _
  rcases kept.cells i with same | ⟨_,mine⟩
  · rw [← same,given]
  · exact absurd mine other

/-- The history is kept and stored exactly under these conditions on it, the snapshot and the sizes. -/
theorem keepsIff [Floats] (build : Build) (wf : ∀ h, hist = some h → h.Wf) (ran : Finished E st F hist src clock w) :
    KeepsHistory E st F hist src build w ↔ KeepsWhen E st F hist src build w.out := by
  have opened : src.rows.countP (opensRow E st F hist src) = w.nNew := ran.count.symm
  constructor
  · rintro ⟨⟨olds,news,is,count,kept⟩,taken⟩
    have total : w.out.rows.length = (rowsOf hist).length + w.nNew := by
      rw [is,List.length_append,count,kept.length_eq]
    have limit : w.out.rows.length ≤ maxRsRows := by
      rw [ran.rows]
      exact List.length_take_le ..
    have read : readable E hist = none → rowsOf hist = [] := fun none_ => by
      have few : w.out.rows.length ≤ w.nNew := by
        rw [ran.rows,none_,← newsLength ran]
        exact List.length_take_le' ..
      exact List.eq_nil_of_length_eq_zero (by omega)
    have room : (rowsOf hist).length + w.nNew ≤ maxRsRows := total ▸ limit
    have carried : olds = (rowsOf hist).map (carryRow st (colsOf E st hist src) ran.closed (lld clock)) := by
      have both := is.symm.trans (writtenRows ran read room)
      exact (List.append_inj both (by rw [List.length_map,kept.length_eq])).1
    rw [carried,List.forall₂_map_right_iff,List.forall₂_same] at kept
    have wide : ∀ row ∈ rowsOf hist, row.length = (colsOf E st hist src).length := fun row hr => by
      cases e : readable E hist with
      | none => rw [read e] at hr; cases hr
      | some h =>
        rw [colsReadable e]
        rw [readableSome e] at hr
        exact wf h (readableSome e) row hr
    have told : ∀ row ∈ rowsOf hist, ToldApart E st F hist src row := fun row hr => keptTold ran (wide row hr) (kept row hr)
    exact ⟨read,opened ▸ room,told,fun row hr => keptFlagged ran (wide row hr) (told row hr) (kept row hr),
      fun b hb => (takenIff build b).mp (taken b hb)⟩
  · rintro ⟨read,room,told,flagged,fits⟩
    refine ⟨⟨_,ran.news,writtenRows ran read (opened ▸ room),newsLength ran,?_⟩,fun b hb => (takenIff build b).mpr (fits b hb)⟩
    exact List.forall₂_map_right_iff.mpr (List.forall₂_same.mpr fun row hr => carryKept ran (told row hr) (flagged row hr))

/-! ### Version numbers -/

/-- The versions of one key have strictly increasing numbers. -/
def Numbered (st : PipelineStep) (cols : List Bytes) (rows : List Row) : Prop :=
  rows.Pairwise fun a b => keyOf st cols a = keyOf st cols b →
    versionOf (cellOf cols a st.versionCol) < versionOf (cellOf cols b st.versionCol)

/-- The key and the version number have columns of their own in the table. -/
structure OwnColumns (st : PipelineStep) (cols : List Bytes) : Prop where
  key : ∀ n ∈ bkCols st, Copied st cols n
  version : ∃ j, colIndex cols st.versionCol = some j ∧ colIndex cols st.effectiveToCol ≠ some j ∧
    colIndex cols st.currentFlagCol ≠ some j ∧ colIndex cols st.hashCol ≠ some j

theorem foldMax (xs : List Int64) (m : Int64) :
    m ≤ xs.foldl (fun m v => if m < v then v else m) m ∧ ∀ x ∈ xs, x ≤ xs.foldl (fun m v => if m < v then v else m) m := by
  induction xs generalizing m with
  | nil => exact ⟨Int64.le_refl m,fun x hx => by cases hx⟩
  | cons y ys ih =>
    obtain ⟨first,others⟩ := ih (if m < y then y else m)
    have both : m ≤ (if m < y then y else m) ∧ y ≤ (if m < y then y else m) := by
      simp only [Int64.le_iff_toInt_le,Int64.lt_iff_toInt_lt]
      split <;> omega
    refine ⟨Int64.le_trans both.1 first,fun x hx => ?_⟩
    rcases List.mem_cons.mp hx with rfl | hx
    · exact Int64.le_trans both.2 first
    · exact others x hx

/-- The number of a new version is above those its key has. -/
theorem nextAbove {h : Rs} {row : Row} (mem : row ∈ h.rows) {key version : Bytes} (same : keyText st h.names row = key)
    (next : nextVersion st (some h) key = some version) :
    versionOf (cellOf h.names row st.versionCol) < versionOf version := by
  unfold nextVersion at next
  simp only at next
  split at next
  · cases next
  rename_i room
  cases next
  have upTo := (foldMax ((h.rows.filter fun row => buildKey h.names (bkCols st) row = key).map fun row =>
    versionOf (cellOf h.names row st.versionCol)) 0).2 _
    (List.mem_map_of_mem (List.mem_filter.mpr ⟨mem,decide_eq_true same⟩))
  have reads : versionOf (lld (maxVersion st (some h) key + 1)) = maxVersion st (some h) key + 1 := by
    rw [versionOf,if_neg fun e => e.elim (lldSome _) (lldKeeps _).notSentinel,strtollLld]
  have above : maxVersion st (some h) key < maxVersion st (some h) key + 1 := by
    have lo := Int64.le_toInt (maxVersion st (some h) key)
    have hi := Int64.toInt_le (maxVersion st (some h) key)
    have ne : (maxVersion st (some h) key).toInt ≠ Int64.maxValue.toInt := fun e => room (Int64.toInt_inj.mp e)
    rw [Int64.toInt_maxValue] at hi ne
    rw [Int64.lt_iff_toInt_lt,Int64.toInt_add,show (1 : Int64).toInt = 1 from rfl,Int.bmod_eq_of_le (by omega) (by omega)]
    omega
  rw [reads]
  exact Int64.lt_of_le_of_lt upTo above

theorem keyCarried {cols : List Bytes} (key : ∀ n ∈ bkCols st, Copied st cols n) (closed : List Bytes) (now : Bytes) (row : Row) :
    keyOf st cols (carryRow st cols closed now row) = keyOf st cols row :=
  List.map_congr_left fun n hn => carryCopied (key n hn) closed now row

theorem versionCarried (own : OwnColumns st (colsOf E st hist src)) (closed : List Bytes) (now : Bytes) (row : Row) :
    cellOf (colsOf E st hist src) (carryRow st (colsOf E st hist src) closed now row) st.versionCol =
      cellOf (colsOf E st hist src) row st.versionCol := by
  obtain ⟨j,at_,to_,flag_,_⟩ := own.version
  rw [cellAtIndex at_,cellAtIndex at_,carryOther to_ flag_]

theorem keyNew {cols : List Bytes} (key : ∀ n ∈ bkCols st, Copied st cols n) (srcNames : List Bytes) (now version : Bytes)
    (cells : Row) : keyOf st cols (newRow E st srcNames cols now version cells) = keyOf st srcNames cells :=
  List.map_congr_left fun n hn => newCopied (key n hn) srcNames now version cells

theorem versionNew (own : OwnColumns st (colsOf E st hist src)) (now version : Bytes) (cells : Row) :
    cellOf (colsOf E st hist src) (newRow E st src.names (colsOf E st hist src) now version cells) st.versionCol = version := by
  obtain ⟨j,at_,to_,flag_,hash⟩ := own.version
  obtain ⟨_,n,here,_⟩ := colIndexFound at_
  rw [cellAtIndex at_,newCellAt here hash,newCell,if_neg to_,if_neg flag_,if_pos at_]

/-- Every new row is the new version of one row of the source, under its key's next number. -/
theorem newsFrom (ran : Finished E st F hist src clock w) (own : OwnColumns st (colsOf E st hist src)) :
    List.Forall₂ (fun cells new => ∃ version, nextVersion st (readable E hist) (keyText st src.names cells) = some version ∧
      new = newRow E st src.names (colsOf E st hist src) (lld clock) version cells)
      (src.rows.filter (opensRow E st F hist src)) ran.news := by
  obtain ⟨j,at_,_⟩ := own.version
  refine (mapMSome.mp ran.newsIs).imp fun cells new h => ?_
  rw [writtenNames ran,if_neg (by rw [at_]; exact Option.some_ne_none j)] at h
  obtain ⟨version,next,rfl⟩ := Option.map_eq_some_iff.mp h
  exact ⟨version,next,rfl⟩

/-- A step run on numbered versions leaves them numbered. -/
theorem keepsNumbered (ran : Finished E st F hist src clock w) (own : OwnColumns st (colsOf E st hist src))
    (numbered : Numbered st (colsOf E st hist src) (rowsOf hist)) : Numbered st (colsOf E st hist src) w.out.rows := by
  have seen : rowsOf (readable E hist) = rowsOf hist ∨ rowsOf (readable E hist) = [] := by
    cases e : readable E hist with
    | none => exact .inr rfl
    | some h => rw [readableSome e]; exact .inl rfl
  have carried : Numbered st (colsOf E st hist src) ((rowsOf (readable E hist)).map
      (carryRow st (colsOf E st hist src) ran.closed (lld clock))) := by
    refine List.pairwise_map.mpr ?_
    have here : (rowsOf (readable E hist)).Pairwise fun a b =>
        keyOf st (colsOf E st hist src) a = keyOf st (colsOf E st hist src) b →
          versionOf (cellOf (colsOf E st hist src) a st.versionCol) < versionOf (cellOf (colsOf E st hist src) b st.versionCol) := by
      rcases seen with e | e
      · rw [e]; exact numbered
      · rw [e]; exact List.Pairwise.nil
    refine here.imp fun {a b} h => ?_
    rw [keyCarried own.key,keyCarried own.key,versionCarried own,versionCarried own]
    exact h
  have news := newsFrom ran own
  have fresh : Numbered st (colsOf E st hist src) ran.news := by
    -- the new rows have the keys of different rows of the source
    have keys : ran.news.map (keyOf st (colsOf E st hist src)) =
        (src.rows.filter (opensRow E st F hist src)).map (keyOf st src.names) := by
      refine Eq.mp (congrFun (congrFun List.forall₂_eq_eq_eq _) _) ?_
      refine List.forall₂_map_left_iff.mpr (List.forall₂_map_right_iff.mpr (news.flip.imp fun new cells h => ?_))
      obtain ⟨version,_,rfl⟩ := h
      exact keyNew own.key ..
    have distinct : (ran.news.map (keyOf st (colsOf E st hist src))).Nodup := by
      rw [keys]
      exact (keysNodup ran).sublist (List.filter_sublist.map _)
    exact (List.pairwise_map.mp distinct).imp fun ne same => absurd same ne
  have cross : ∀ a ∈ (rowsOf (readable E hist)).map (carryRow st (colsOf E st hist src) ran.closed (lld clock)),
      ∀ b ∈ ran.news, keyOf st (colsOf E st hist src) a = keyOf st (colsOf E st hist src) b →
        versionOf (cellOf (colsOf E st hist src) a st.versionCol) < versionOf (cellOf (colsOf E st hist src) b st.versionCol) := by
    intro a ha b hb same
    obtain ⟨row,hr,rfl⟩ := List.mem_map.mp ha
    obtain ⟨cells,_,version,next,rfl⟩ := partner news hb
    rw [keyCarried own.key,keyNew own.key] at same
    rw [versionCarried own,versionNew own]
    cases e : readable E hist with
    | none => rw [e] at hr; cases hr
    | some h =>
      rw [e] at hr next
      rw [colsReadable e] at same ⊢
      exact nextAbove hr (by rw [keyTextIs,same]; rfl) next
  rw [ran.rows,writtenNames ran]
  exact (List.pairwise_append.mpr ⟨carried,fresh,cross⟩).sublist (List.take_sublist ..)

end

/-- An engine that takes the columns of the table by their names; no hash is used. -/
def plainEngine : Engine := ⟨id,true,fun _ _ _ => .columns⟩

def dimension : PipelineStep where
  businessKey := ascii "id"
  effectiveFromCol := ascii "vf"
  effectiveToCol := ascii "vt"
  transactionTime := []
  currentFlagCol := ascii "cur"
  versionCol := ascii "ver"
  hashCol := []
  deletedFlag := ascii "del"
  compareColumns := []
  ignoredColumns := []

def dimensionCols : List Bytes := ["id","name","del","vf","vt","cur","ver"].map ascii

def snapshot (rows : List (List String)) : Rs := ⟨⟨rows.map (·.map ascii),false⟩,["id","name","del"].map ascii⟩

/-- One open version of one key. -/
def oneOpen : Rs := ⟨⟨[["1","a","0","10"].map ascii ++ [nullSentinel,ascii "1",ascii "1"]],false⟩,dimensionCols⟩

def oneOpenAfter : Written :=
  ⟨⟨⟨[["1","a","0","10","20","0","1"].map ascii,["1","b","0","20"].map ascii ++ [nullSentinel,ascii "1",ascii "2"]],false⟩,
    dimensionCols⟩,1⟩

theorem oneOpenRuns : runScd2Step plainEngine dimension Int (some oneOpen) (snapshot [["1","b","0"]]) 20 = .ok oneOpenAfter := by
  rfl

/-- A history of closed versions of key 1, as long as a result set may be, loses the first version of key 2. -/
theorem fullLoses {h : Rs} (whole : h.truncated = false) (names : h.names = dimensionCols)
    (rows : ∀ r ∈ h.rows, r = ["1","a","0","5","10","0","1"].map ascii) (full : h.rows.length = maxRsRows) :
    ∃ w, runScd2Step plainEngine dimension Int (some h) (snapshot [["2","b","0"]]) 20 = .ok w ∧
      ¬ @KeepsHistory plainEngine dimension Int _ (some h) (snapshot [["2","b","0"]]) wholeFloats .rows w := by
  have seen : readable plainEngine (some h) = some h := by simp [readable,plainEngine,names,dimensionCols]
  have absent : findCurrent dimension (snapshot [["2","b","0"]]).names (currentOf plainEngine dimension Int (some h))
      (["2","b","0"].map ascii) = none := by
    refine List.find?_eq_none.mpr fun r hr => ?_
    obtain ⟨row,ho,rfl⟩ := currentMem
      (show plainEngine.window h.names (bkCols dimension) (timeCol dimension) = .columns from rfl) hr
    rw [rows row ho,show (currentOf plainEngine dimension Int (some h)).names = h.names ++ [ascii "__scd2_rn"] by rfl,names]
    decide
  have opened : opensRow plainEngine dimension Int (some h) (snapshot [["2","b","0"]]) (["2","b","0"].map ascii) = true := by
    rw [opensRow,seen,opens,absent]
    rfl
  have checks : rejects plainEngine dimension Int (some h) (snapshot [["2","b","0"]]) = none := by
    have fit : (namesFit 4096 h.names && namesFit 1024 (bkCols dimension)) = true := by rw [names]; decide
    have all : (currentRs plainEngine dimension Int h).truncated = false := rfl
    simp only [rejects,whole,fit,all]
    decide
  have sorted : classify plainEngine dimension (snapshot [["2","b","0"]]).names (currentOf plainEngine dimension Int (some h)) 0 []
      ⟨[],[]⟩ (snapshot [["2","b","0"]]).rows = .ok ⟨[],[["2","b","0"].map ascii]⟩ := by
    have here : classifyRow plainEngine dimension (snapshot [["2","b","0"]]).names (currentOf plainEngine dimension Int (some h))
        ⟨[],[]⟩ (["2","b","0"].map ascii) = ⟨[],[["2","b","0"].map ascii]⟩ := by
      simp only [classifyRow,absent]
      rfl
    show classify plainEngine dimension _ _ 0 [] ⟨[],[]⟩ [["2","b","0"].map ascii] = _
    rw [classify,if_neg (by decide),if_neg (by decide),here,classify]
  have first : nextVersion dimension (some h) (keyText dimension (snapshot [["2","b","0"]]).names (["2","b","0"].map ascii)) =
      some (ascii "1") := by
    have other : h.rows.filter (fun row => buildKey h.names (bkCols dimension) row =
        keyText dimension (snapshot [["2","b","0"]]).names (["2","b","0"].map ascii)) = [] :=
      List.filter_eq_nil_iff.mpr fun r hr => by rw [rows r hr,names]; decide
    simp only [nextVersion,maxVersion,other]
    exact (by decide : (if (0 : Int64) = Int64.maxValue then none else some (lld (0 + 1))) = some (ascii "1"))
  have run : ∃ w, runScd2Step plainEngine dimension Int (some h) (snapshot [["2","b","0"]]) 20 = .ok w := by
    unfold runScd2Step
    simp only [seen,checks,sorted]
    split
    · rename_i failed
      have at_ : colIndex (targetCols dimension (some h) (snapshot [["2","b","0"]]).names) dimension.versionCol ≠ none := by
        rw [show targetCols dimension (some h) (snapshot [["2","b","0"]]).names = h.names from rfl,names]
        decide
      have made : newRows plainEngine dimension (some h) (snapshot [["2","b","0"]]).names
          (targetCols dimension (some h) (snapshot [["2","b","0"]]).names) (lld 20) [["2","b","0"].map ascii] ≠ none := by
        rw [newRows,mapMCons,if_neg at_,← keyText,first]
        exact Option.some_ne_none _
      exact absurd failed made
    · exact ⟨_,rfl⟩
  obtain ⟨w,run⟩ := run
  obtain ⟨ran⟩ := finished run
  refine ⟨w,run,fun keeps => ?_⟩
  let _ : Floats := wholeFloats
  have room := ((keepsIff .rows (fun t e r hr => by cases e; rw [rows r hr,names]; rfl) ran).mp keeps).room
  have one : (snapshot [["2","b","0"]]).rows.countP (opensRow plainEngine dimension Int (some h) (snapshot [["2","b","0"]])) = 1 := by
    show [["2","b","0"].map ascii].countP _ = 1
    rw [List.countP_singleton,if_pos opened]
  have length : (rowsOf (some h)).length = maxRsRows := full
  omega

def fullHistory : Rs := ⟨⟨List.replicate maxRsRows (["1","a","0","5","10","0","1"].map ascii),false⟩,dimensionCols⟩

end Napastak.Scd2
