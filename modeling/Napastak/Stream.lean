import Napastak.Scan
import Napastak.Lib.Feed

/-! `stream_tbl_scan`: the full scan of one table without keeping it, and how far it feeds the
rows that `load_tbl` keeps. -/
namespace Napastak.Store
open Codec Framing Feed

/-- What the streaming scan needs of the query state it feeds: `collect_row`, `DFO_SCAN_DONE` and
the rows of OFFSET that it may pass over on its own. -/
structure Sink (σ : Type) where
  collect : σ → Row → σ
  done : σ → Bool
  fastSkip : Bool
  skipLeft : σ → Nat
  skip : σ → Nat → σ

variable {σ : Type}

/-- A row that is there: passed over or collected. -/
def Sink.feedRow (k : Sink σ) (s : σ) (row : Row) : σ :=
  if k.fastSkip ∧ 0 < k.skipLeft s then k.skip s 1 else k.collect s row

/-- The header the fast skip trusts. -/
def headerOk (data : Bytes) : Bool :=
  data.take 4 = dcmb ∧ data[4]? = some 1 ∧ 0 < headerRows data ∧ headerRows data ≤ 16777216

/-- The rows of a decoded batch, as long as they are wanted. -/
def Sink.feedBatch (k : Sink σ) (ncols : Nat) (data : Bytes) (s : σ) : Option σ :=
  if batchRejected data then some s
  else do
    let cb ← deserialize data
    let batch := decompressBatch cb
    (List.range batch.nrows).foldlM (fun s r =>
      if k.done s then some s
      else if k.fastSkip ∧ 0 < k.skipLeft s then some (k.skip s 1)
      else ((List.range ncols).mapM (batchCell batch r)).map (k.collect s)) s

/-- One turn of the scan's loop; the first tombstone of a record decides. -/
def Sink.streamRecord (k : Sink σ) (tbs : List Tombstone) (ncols : Nat) (s : σ) (rec : Nat × Bytes) : Option σ :=
  match rec.2 with
  | [] => some s
  | op :: body =>
    if 16777216 < rec.2.length then some s
    else if op = walOpDelete ∨ op = walOpUpdate then some s
    else
      let stone := tbs.find? fun t => t.origOff = rec.1
      let updCsv := stone.bind (·.newCsv)
      if op = walVersionCompressed ∧ body ≠ [] then
        if stone.isSome ∧ updCsv.isNone then some s
        else if rec.2.length ≤ 14 then some s
        else if k.fastSkip ∧ headerOk body ∧ headerRows body ≤ k.skipLeft s then some (k.skip s (headerRows body))
        else k.feedBatch ncols body s
      else if stone.isSome ∧ updCsv.isNone then some s
      else
        let line := trimEnd (cstr rec.2)
        if printable line = false then some s
        else match updCsv with
          | some csv => some (k.feedRow s (rowOf ncols (trimEnd (cstr csv))))
          | none => some (k.feedRow s (rowOf ncols line))

/-- `stream_tbl_scan` over the log file of a table of `ncols` columns. -/
def Sink.streamTblScan (k : Sink σ) (ncols : Nat) (file : Bytes) (s : σ) : Option σ :=
  (placed 0 (records file)).foldlM
    (fun s r => if k.done s then some s else k.streamRecord (tombstones (records file)) ncols s r) s

/-- A sink that keeps every row. -/
def recorder : Sink (List Row) where
  collect out row := out ++ [row]
  done _ := false
  fastSkip := false
  skipLeft _ := 0
  skip out _ := out

/-- All the rows the streaming scan feeds. -/
def streamRows (ncols : Nat) (file : Bytes) : Option (List Row) := recorder.streamTblScan ncols file []

/-- The same, record by record of the log. -/
def streamByRecord (ncols : Nat) (file : Bytes) : List (Option (List Row)) :=
  (placed 0 (records file)).map fun r => recorder.streamRecord (tombstones (records file)) ncols [] r

/-- The rows of `load_tbl`, record by record of the log. -/
def loadByRecord (ncols : Nat) (file : Bytes) : List (Option (List Row)) :=
  (placed 0 (records file)).map (scanRecord (tombstones (records file)) ncols)

/-! ### Any sink gets the rows the recorder keeps -/

/-- What passing over rows does to a sink. -/
structure Sink.Lawful (k : Sink σ) : Prop where
  skipDone : ∀ s n, k.done (k.skip s n) = k.done s
  skipLeft : ∀ s n, k.skipLeft (k.skip s n) = k.skipLeft s - n
  skipAdd : ∀ s m n, k.skip (k.skip s m) n = k.skip s (m + n)

theorem recorderBatch (ncols : Nat) (data : Bytes) (out : List Row) :
    recorder.feedBatch ncols data out = (batchRows ncols data).map (out ++ ·) := by
  have all : ∀ (f : Nat → Option Row) (rs : List Nat) (out : List Row),
      rs.foldlM (fun s r => (f r).map fun row => s ++ [row]) out = (rs.mapM f).map (out ++ ·) := by
    intro f rs
    induction rs with
    | nil => simp
    | cons r rs ih =>
      intro out
      rw [List.foldlM_cons,mapMCons]
      cases f r with
      | none => rfl
      | some row =>
        rw [Option.map_some,Option.bind_eq_bind,Option.bind_some,ih]
        cases rs.mapM f <;> simp
  rw [Sink.feedBatch,batchRows]
  split
  · simp
  · cases deserialize data with
    | none => rfl
    | some cb => exact all _ _ out

/-- What was kept before stays in front. -/
theorem recorderShift (tbs : List Tombstone) (ncols : Nat) (out : List Row) (r : Nat × Bytes) :
    recorder.streamRecord tbs ncols out r = (recorder.streamRecord tbs ncols [] r).map (out ++ ·) := by
  have feed_ : ∀ row, recorder.feedRow out row = out ++ recorder.feedRow [] row := fun row => rfl
  have batch : ∀ data, recorder.feedBatch ncols data out = (recorder.feedBatch ncols data []).map (out ++ ·) := fun data => by
    rw [recorderBatch,recorderBatch,Option.map_map]
    congr 1
  obtain ⟨off,record⟩ := r
  cases record with
  | nil => simp [Sink.streamRecord]
  | cons op body =>
    have slow : recorder.fastSkip = false := rfl
    simp only [Sink.streamRecord,feed_,batch,slow,Bool.false_eq_true,false_and,if_false]
    cases (tbs.find? fun t => decide (t.origOff = off)).bind (·.newCsv) <;> split_ifs <;> simp

/-- The batch fed row by row. -/
theorem feedBatchRows (k : Sink σ) {ncols : Nat} {data : Bytes} {rows : List Row} (is : batchRows ncols data = some rows)
    (s : σ) : k.feedBatch ncols data s = some (feed k.done k.feedRow s rows) := by
  rw [batchRows] at is
  rw [Sink.feedBatch]
  split at is
  · rename_i rejected
    cases is
    rw [if_pos rejected]
    rfl
  · rename_i taken
    rw [if_neg taken]
    cases hd : deserialize data with
    | none => rw [hd] at is; cases is
    | some cb =>
      rw [hd] at is
      have each := mapMSome.mp is
      simp only [Option.bind_eq_bind,Option.bind_some]
      generalize List.range (decompressBatch cb).nrows = rs at each
      clear is
      induction each generalizing s with
      | nil => rfl
      | @cons r row rs rows here _ ih =>
        rw [List.foldlM_cons,feed,List.foldl_cons]
        cases hdone : k.done s with
        | true =>
          rw [if_pos rfl,if_pos rfl]
          exact ih s
        | false =>
          rw [if_neg Bool.false_ne_true,if_neg Bool.false_ne_true,here]
          by_cases pass : k.fastSkip ∧ 0 < k.skipLeft s
          · rw [if_pos pass,Sink.feedRow,if_pos pass]
            exact ih _
          · rw [if_neg pass,Sink.feedRow,if_neg pass]
            exact ih _

/-- Passing over as many rows as there are, one by one or at once. -/
theorem feedSkipped {k : Sink σ} (lawful : k.Lawful) (fast : k.fastSkip) {rows : List Row} {s : σ}
    (left : rows.length ≤ k.skipLeft s) (more : k.done s = false) (some_ : rows ≠ []) :
    feed k.done k.feedRow s rows = k.skip s rows.length := by
  induction rows generalizing s with
  | nil => exact absurd rfl some_
  | cons row rows ih =>
    rw [List.length_cons] at left
    have pass : k.feedRow s row = k.skip s 1 := if_pos ⟨fast,by omega⟩
    rw [feed,List.foldl_cons,if_neg (by simp [more]),pass]
    cases rows with
    | nil => rfl
    | cons next rows =>
      have rest := ih (s := k.skip s 1) (by rw [lawful.skipLeft]; omega) (by rw [lawful.skipDone,more]) (by simp)
      rw [feed] at rest
      rw [rest,lawful.skipAdd,Nat.add_comm]
      rfl

theorem batchRowsLength {ncols : Nat} {data : Bytes} {rows : List Row} (is : batchRows ncols data = some rows)
    (taken : batchRejected data = false) : rows.length = headerRows data := by
  rw [batchRows,if_neg (by simp [taken])] at is
  cases hd : deserialize data with
  | none => rw [hd] at is; cases is
  | some cb =>
    rw [hd] at is
    have each := (mapMSome.mp is).length_eq
    rw [List.length_range] at each
    rw [← each,← (deserializeHeader hd).2]
    rfl

/-- A record of a batch whose header the skip may trust: what it promises is there. -/
def HeaderKept (rec : Bytes) : Prop := batchRejected (rec.drop 1) = false ∨ headerOk (rec.drop 1) = false

theorem streamRecordFeeds {k : Sink σ} (lawful : k.Lawful) {tbs : List Tombstone} {ncols : Nat} {r : Nat × Bytes}
    {rows : List Row} (is : recorder.streamRecord tbs ncols [] r = some rows)
    (kept : r.2.head? = some walVersionCompressed → HeaderKept r.2) {s : σ} (more : k.done s = false) :
    k.streamRecord tbs ncols s r = some (feed k.done k.feedRow s rows) := by
  obtain ⟨off,record⟩ := r
  cases record with
  | nil => cases is; rfl
  | cons op body =>
    simp only [Sink.streamRecord] at is ⊢
    by_cases size : 16777216 < (op :: body).length
    · rw [if_pos size] at is ⊢
      cases is; rfl
    rw [if_neg size] at is ⊢
    by_cases ops : op = walOpDelete ∨ op = walOpUpdate
    · rw [if_pos ops] at is ⊢
      cases is; rfl
    rw [if_neg ops] at is ⊢
    by_cases batch : op = walVersionCompressed ∧ body ≠ []
    · rw [if_pos batch] at is ⊢
      split at is
      · cases is; rename_i dead; rw [if_pos dead]; rfl
      rename_i live
      rw [if_neg live]
      split at is
      · cases is; rename_i short; rw [if_pos short]; rfl
      rename_i long
      rw [if_neg long]
      rw [if_neg (by simp [recorder]),recorderBatch] at is
      obtain ⟨rows',decoded,e⟩ := Option.map_eq_some_iff.mp is
      rw [List.nil_append] at e
      subst e
      split
      · rename_i pass
        have taken : batchRejected body = false :=
          (kept (congrArg some batch.1)).resolve_right (by simpa using pass.2.1)
        have count := batchRowsLength decoded taken
        have pos : 0 < headerRows body := by
          have := pass.2.1
          rw [headerOk] at this
          exact (of_decide_eq_true this).2.2.1
        rw [feedSkipped lawful pass.1 (by omega) more (by rintro rfl; simp at count; omega),count]
      · exact feedBatchRows k decoded s
    · rw [if_neg batch] at is ⊢
      split at is
      · cases is; rename_i dead; rw [if_pos dead]; rfl
      rename_i live
      rw [if_neg live]
      split at is
      · cases is; rename_i dark; rw [if_pos dark]; rfl
      rename_i shown
      rw [if_neg shown]
      have one : ∀ row, recorder.feedRow [] row = [row] := fun row => rfl
      split at is <;> cases is <;> simp [one,feed,more]

/-- Every sink is fed the recorder's rows until it is done. -/
theorem streamFeeds {k : Sink σ} (lawful : k.Lawful) {ncols : Nat} {file : Bytes}
    (kept : ∀ p ∈ records file, p.head? = some walVersionCompressed → HeaderKept p) {rows : List (List Row)}
    (is : (streamByRecord ncols file).mapM id = some rows) (s : σ) :
    k.streamTblScan ncols file s = some (feed k.done k.feedRow s rows.flatten) := by
  rw [streamByRecord,List.mapM_map,Function.id_comp] at is
  let shown := fun r : Nat × Bytes => (recorder.streamRecord (tombstones (records file)) ncols [] r).getD []
  have each : ∀ r ∈ placed 0 (records file),
      recorder.streamRecord (tombstones (records file)) ncols [] r = some (shown r) := fun r hr => by
    obtain ⟨rows',here⟩ := forallExists.mp ⟨rows,mapMSome.mp is⟩ r hr
    simp only [shown,here,Option.getD_some]
  have all : rows.flatten = (placed 0 (records file)).flatMap shown := by
    rw [mapMMap each] at is
    rw [← Option.some.inj is]
    rfl
  rw [Sink.streamTblScan,all]
  refine feedFold (fun r hr s more => streamRecordFeeds lawful (each r hr) ?_ more) s
  exact kept r.2 (placedRecords 0 (records file) ▸ List.mem_map_of_mem hr)

end Napastak.Store
