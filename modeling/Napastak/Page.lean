import Napastak.StreamScan
import Napastak.BtreeFile
import Mathlib.Data.List.Basic

/-! LIMIT and OFFSET of a query of one table with no grouping, DISTINCT, ORDER BY or window: `collect_row`
counts them while the scan, or the rows an index found, are fed to it. -/
namespace Napastak.Store
open Codec Framing Feed

def maxRsRows : Nat := 100000

/-- What of a statement decides its pages: the truth of WHERE on a row, the projected row, LIMIT (-1 for none)
and OFFSET. -/
structure SelectStmt where
  where_ : Option (Row → Bool)
  project : Row → Row
  limit : Int
  offset : Int

def SelectStmt.keep (sel : SelectStmt) (row : Row) : Bool := (sel.where_.map (· row)).getD true

structure ResultSet where
  rows : List Row
  truncated : Bool

def rsAdd (rs : ResultSet) (cells : Row) : ResultSet :=
  if maxRsRows ≤ rs.rows.length then {rs with truncated := true} else {rs with rows := rs.rows ++ [cells]}

structure ExecState where
  rs : ResultSet
  earlyPage : Bool
  skipLeft : Nat
  takeLeft : Int

def execStart (sel : SelectStmt) : ExecState where
  rs := ⟨[],false⟩
  earlyPage := 0 < sel.offset ∨ 0 ≤ sel.limit
  skipLeft := if 0 < sel.offset then sel.offset.toNat else 0
  takeLeft := if 0 ≤ sel.limit then sel.limit else -1

/-- `collect_row`. -/
def collectRow (sel : SelectStmt) (st : ExecState) (row : Row) : ExecState :=
  if sel.keep row = false then st
  else if st.earlyPage then
    if st.takeLeft = 0 then st
    else if 0 < st.skipLeft then {st with skipLeft := st.skipLeft - 1}
    else
      let st := if 0 < st.takeLeft then {st with takeLeft := st.takeLeft - 1} else st
      {st with rs := rsAdd st.rs (sel.project row)}
  else {st with rs := rsAdd st.rs (sel.project row)}

/-- `DFO_SCAN_DONE`. -/
def scanDone (st : ExecState) : Bool := (st.earlyPage ∧ st.takeLeft = 0) ∨ st.rs.truncated

def selectSink (sel : SelectStmt) : Sink ExecState where
  collect := collectRow sel
  done := scanDone
  fastSkip := (execStart sel).earlyPage ∧ sel.where_.isNone
  skipLeft st := st.skipLeft
  skip st n := {st with skipLeft := st.skipLeft - n}

/-- `parse_wal_row`. -/
def parseWalRow (ncols : Nat) (file : Bytes) (off : Int) : Option Row :=
  let rest := file.drop off.toNat
  if off < 0 ∨ rest.length < 4 then none
  else
    let l := leValue (rest.take 4)
    if l = 0 ∨ 262144 < l then none
    else if (rest.drop 4).length < l then none
    else some (rowOf ncols (trimEnd (cstr ((rest.drop 4).take l))))

/-- The rows `load_tbl` takes from an index. -/
def indexRows (ncols : Nat) (file : Bytes) (offs : List Int) : List Row := offs.filterMap (parseWalRow ncols file)

/-- A table as a query finds it: its columns, its log and, if the hint of WHERE has a usable index, the index
and the bounds of the hint. -/
structure TableFile where
  ncols : Nat
  file : Bytes
  index : Option (Btree.BTree × Int × Int)

/-- The LIMIT and OFFSET at the end of `exec_select`. -/
def finalSlice (sel : SelectStmt) (st : ExecState) : List Row :=
  let off := if st.earlyPage then 0 else if 0 < sel.offset then sel.offset.toNat else 0
  let lim := if st.earlyPage then -1 else sel.limit
  let rows := st.rs.rows.drop off
  if 0 ≤ lim then rows.take lim.toNat else rows

/-- The rows of the scan, or of the index, fed to the query. -/
def execFeed (t : TableFile) (sel : SelectStmt) : Option ExecState :=
  match t.index with
  | none => (selectSink sel).streamTblScan t.ncols t.file (execStart sel)
  | some (bt,lo,hi) =>
    (Btree.btreeRange bt lo hi).map fun offs => (indexRows t.ncols t.file offs).foldl (collectRow sel) (execStart sel)

def execSelect (t : TableFile) (sel : SelectStmt) : Option (List Row) := (execFeed t sel).map (finalSlice sel)

/-! ### One page -/

/-- A query that counts its page and has room for it. -/
structure Paging (st : ExecState) : Prop where
  early : st.earlyPage
  whole : st.rs.truncated = false
  more : 0 ≤ st.takeLeft
  room : st.rs.rows.length + st.takeLeft.toNat ≤ maxRsRows

/-- What is still to come of the rows that are left. -/
def rest (sel : SelectStmt) (st : ExecState) (xs : List Row) : List Row :=
  (((xs.filter sel.keep).drop st.skipLeft).take st.takeLeft.toNat).map sel.project

theorem collectKeeps {sel : SelectStmt} {st : ExecState} (paging : Paging st) (row : Row) (xs : List Row) :
    Paging (collectRow sel st row) ∧
      (collectRow sel st row).rs.rows ++ rest sel (collectRow sel st row) xs = st.rs.rows ++ rest sel st (row :: xs) := by
  obtain ⟨early,whole,more,room⟩ := paging
  rw [collectRow]
  cases hk : sel.keep row with
  | false => exact ⟨⟨early,whole,more,room⟩,by simp [rest,hk]⟩
  | true =>
    rw [if_neg (by simp),if_pos early]
    by_cases full : st.takeLeft = 0
    · rw [if_pos full]
      exact ⟨⟨early,whole,more,room⟩,by simp [rest,full]⟩
    rw [if_neg full]
    by_cases skips : 0 < st.skipLeft
    · rw [if_pos skips]
      refine ⟨⟨early,whole,more,room⟩,?_⟩
      obtain ⟨n,hn⟩ := Nat.exists_eq_add_of_lt skips
      simp [rest,hk,hn]
    · have left : 0 < st.takeLeft := by omega
      have none_ : st.skipLeft = 0 := by omega
      obtain ⟨n,hn⟩ := Int.eq_ofNat_of_zero_le more
      have some_ : 0 < n := by omega
      obtain ⟨m,rfl⟩ := Nat.exists_eq_add_of_lt some_
      have fits : ¬ maxRsRows ≤ st.rs.rows.length := by rw [hn] at room; simp at room; omega
      rw [if_neg skips]
      simp only [if_pos left,rsAdd,if_neg fits]
      refine ⟨⟨early,whole,by simp only; omega,by simp only [List.length_append,List.length_singleton]; omega⟩,?_⟩
      have one : (st.takeLeft - 1).toNat = m := by omega
      have all : st.takeLeft.toNat = m + 1 := by omega
      simp [rest,hk,none_,one,all]

theorem collectRows {sel : SelectStmt} {st : ExecState} (paging : Paging st) (xs : List Row) :
    Paging (xs.foldl (collectRow sel) st) ∧ (xs.foldl (collectRow sel) st).rs.rows = st.rs.rows ++ rest sel st xs := by
  induction xs generalizing st with
  | nil => exact ⟨paging,by simp [rest]⟩
  | cons row xs ih =>
    obtain ⟨next,same⟩ := @collectKeeps sel _ paging row xs
    obtain ⟨last,rows⟩ := ih next
    exact ⟨last,by rw [List.foldl_cons,rows,same]⟩

/-- Rows that come after the page is full change nothing. -/
theorem collectFull {sel : SelectStmt} {st : ExecState} (early : st.earlyPage) (full : st.takeLeft = 0) (row : Row) :
    collectRow sel st row = st := by
  rw [collectRow]
  cases sel.keep row <;> simp [early,full]

theorem selectLawful (sel : SelectStmt) : (selectSink sel).Lawful where
  skipDone _ _ := rfl
  skipLeft _ _ := rfl
  skipAdd st m n := by simp [selectSink,Nat.sub_sub]

/-- Early stop and fast skip leave the page as it is. -/
theorem feedCollects {sel : SelectStmt} {st : ExecState} (paging : Paging st) (xs : List Row) :
    feed (selectSink sel).done (selectSink sel).feedRow st xs = xs.foldl (collectRow sel) st := by
  induction xs generalizing st with
  | nil => rfl
  | cons row xs ih =>
    rw [feed,List.foldl_cons,List.foldl_cons]
    have next := (@collectKeeps sel _ paging row xs).1
    by_cases full : st.takeLeft = 0
    · have done : (selectSink sel).done st = true := by simp [selectSink,scanDone,paging.early,full]
      rw [if_pos done,collectFull paging.early full]
      exact ih paging
    · have going : ¬ (selectSink sel).done st = true := by simp [selectSink,scanDone,full,paging.whole]
      rw [if_neg going]
      have same : (selectSink sel).feedRow st row = collectRow sel st row := by
        rw [Sink.feedRow]
        split
        · rename_i pass
          have every : sel.where_ = none := by
            have := pass.1
            simp only [selectSink,decide_eq_true_eq,Option.isNone_iff_eq_none] at this
            exact this.2
          have left : 0 < st.skipLeft := pass.2
          rw [collectRow,if_neg (by simp [SelectStmt.keep,every]),if_pos paging.early,if_neg full,if_pos left]
          rfl
        · rfl
      rw [same]
      exact ih next

/-! ### All the pages -/

/-- The log of a table whose scan is defined and whose batches hold the rows their headers promise. -/
structure Readable (t : TableFile) : Prop where
  decoded : ∃ rows, streamRows t.ncols t.file = some rows
  headers : ∀ p ∈ records t.file, p.head? = some walVersionCompressed → HeaderKept p

/-- The query with LIMIT n OFFSET k * n. -/
def SelectStmt.paged (sel : SelectStmt) (n k : Nat) : SelectStmt := {sel with limit := n, offset := (k * n : Nat)}

/-- The first `m` pages of `n` rows, one after the other. -/
def pages (t : TableFile) (sel : SelectStmt) (n m : Nat) : Option (List Row) :=
  ((List.range m).mapM fun k => execSelect t (sel.paged n k)).map List.flatten

/-- The projected rows that pass WHERE. -/
def SelectStmt.filtered (sel : SelectStmt) (rows : List Row) : List Row := (rows.filter sel.keep).map sel.project

theorem pagedStart (sel : SelectStmt) {n : Nat} (cap : n ≤ maxRsRows) (k : Nat) :
    Paging (execStart (sel.paged n k)) ∧ ∀ xs, rest (sel.paged n k) (execStart (sel.paged n k)) xs = page n k (sel.filtered xs) := by
  have limit : (0 : Int) ≤ (n : Int) := Int.natCast_nonneg n
  refine ⟨⟨by simp [execStart,SelectStmt.paged,limit],rfl,by simp [execStart,SelectStmt.paged],
    by simpa [execStart,SelectStmt.paged] using cap⟩,fun xs => ?_⟩
  have skip : (execStart (sel.paged n k)).skipLeft = k * n := by
    simp only [execStart,SelectStmt.paged,Int.toNat_natCast]
    by_cases none_ : k * n = 0
    · simp [none_]
    · exact if_pos (by exact_mod_cast Nat.pos_of_ne_zero none_)
  have take : (execStart (sel.paged n k)).takeLeft.toNat = n := by simp [execStart,SelectStmt.paged]
  rw [rest,skip,take,page,SelectStmt.filtered,← List.map_drop,← List.map_take]
  rfl

theorem finalEarly {sel : SelectStmt} {st : ExecState} (early : st.earlyPage) : finalSlice sel st = st.rs.rows := by
  simp [finalSlice,early]

/-- Either path feeds its rows to the page. -/
theorem pageOf {t : TableFile} (sel : SelectStmt) {n : Nat} (cap : n ≤ maxRsRows) {rows : List Row}
    (feeds : ∀ k, execFeed t (sel.paged n k) = some (rows.foldl (collectRow (sel.paged n k)) (execStart (sel.paged n k))))
    (m : Nat) :
    pages t sel n m = some ((sel.filtered rows).take (m * n)) := by
  have each : ∀ k ∈ List.range m, execSelect t (sel.paged n k) = some (page n k (sel.filtered rows)) := fun k _ => by
    obtain ⟨paging,window⟩ := pagedStart sel cap k
    obtain ⟨last,is⟩ := @collectRows (sel.paged n k) _ paging rows
    rw [execSelect,feeds k,Option.map_some,finalEarly last.early,is,window]
    rfl
  rw [pages,mapMMap each,Option.map_some,← List.flatMap_def,pagesTake]

theorem scanPages {t : TableFile} (readable : Readable t) (sel : SelectStmt) {n : Nat} (cap : n ≤ maxRsRows)
    {rows : List Row} (is : streamRows t.ncols t.file = some rows) (none_ : t.index = none) (m : Nat) :
    pages t sel n m = some ((sel.filtered rows).take (m * n)) := by
  rw [streamRowsJoin] at is
  obtain ⟨rowss,all,rfl⟩ := Option.map_eq_some_iff.mp is
  refine pageOf sel cap (fun k => ?_) m
  rw [execFeed,none_]
  simp only
  rw [streamFeeds (selectLawful _) readable.headers all,feedCollects (pagedStart sel cap k).1]

theorem indexPages {t : TableFile} (sel : SelectStmt) {n : Nat} (cap : n ≤ maxRsRows) {bt : Btree.BTree}
    {lo hi : Int} {offs : List Int} (some_ : t.index = some (bt,lo,hi)) (found : Btree.btreeRange bt lo hi = some offs) (m : Nat) :
    pages t sel n m = some ((sel.filtered (indexRows t.ncols t.file offs)).take (m * n)) := by
  refine pageOf sel cap (fun k => ?_) m
  rw [execFeed,some_]
  simp only [found,Option.map_some]

/-- Every column of every row. -/
def selectAll : SelectStmt := ⟨none,id,-1,0⟩

/-- Two rows of one column, the first deleted, and no index. -/
def oneLeft : TableFile := ⟨1,frame [ascii "7\n",ascii "8\n",deleteRecord 0],none⟩

theorem oneLeftReadable : Readable oneLeft where
  decoded := ⟨[[ascii "8"]],by decide⟩
  headers p hp batch := by
    have plain : ∀ p ∈ records oneLeft.file, p.head? ≠ some walVersionCompressed := by decide
    exact absurd batch (plain p hp)

/-- The same table with an index on its column that was built before the DELETE, asked for 7. -/
def oneLeftIndexed : TableFile :=
  {oneLeft with index := some ((Btree.inserts Btree.btreeCreate [⟨7,0⟩,⟨8,6⟩]).getD Btree.btreeCreate,7,7)}

end Napastak.Store
