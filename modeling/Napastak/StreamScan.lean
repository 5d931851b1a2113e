import Napastak.Stream
import Napastak.CompactScan

/-! The streaming scan feeds the rows `load_tbl` keeps where both read the tombstones of a batch alike. -/
namespace Napastak.Store
open Codec Framing Feed

/-- The first tombstone of a record takes it away and puts nothing in its place. -/
def Buried (ts : List Tombstone) : Prop := ∃ t, ts.head? = some t ∧ t.newCsv = none

instance : ∀ ts : List Tombstone, Decidable (Buried ts)
  | [] => isFalse (by rintro ⟨t,h,_⟩; cases h)
  | t :: _ => decidable_of_iff (t.newCsv = none) ⟨fun h => ⟨t,rfl,h⟩,fun ⟨_,h,e⟩ => Option.some.inj h ▸ e⟩

/-- The streaming scan with a record's own tombstones only. -/
theorem streamOwn {tbs : List Tombstone} {ncols off : Nat} {op : UInt8} {body : Bytes} (scanned : Scanned (op :: body)) :
    recorder.streamRecord tbs ncols [] (off,op :: body) =
      if isBatch (op :: body) then
        if Buried (stonesAt tbs off) then some [] else batchRows ncols body
      else if printable (lineOf (op :: body)) = false then some []
      else match (stonesAt tbs off).head? with
        | none => some [rowOf ncols (lineOf (op :: body))]
        | some t => match t.newCsv with
          | none => some []
          | some csv => some [rowOf ncols (lineOf csv)] := by
  have size := scanned.2.1
  have ops := scanned.ops
  have batch : isBatch (op :: body) = true ↔ op = walVersionCompressed ∧ body ≠ [] := by
    simp [isBatch,List.length_pos_iff]
  have dead : ((stonesAt tbs off).head?.isSome = true ∧ ((stonesAt tbs off).head?.bind (·.newCsv)).isNone = true) ↔
      Buried (stonesAt tbs off) := by
    cases h : (stonesAt tbs off).head? <;> simp [Buried,h]
  have one : ∀ row, recorder.feedRow [] row = [row] := fun row => rfl
  simp only [Sink.streamRecord,if_neg (Nat.not_lt.mpr size),if_neg ops,findAt,dead]
  by_cases hb : isBatch (op :: body)
  · rw [if_pos (batch.mp hb),if_pos hb]
    by_cases hd : Buried (stonesAt tbs off)
    · rw [if_pos hd,if_pos hd]
    · rw [if_neg hd,if_neg hd,if_neg (show ¬ (recorder.fastSkip = true ∧ _) by simp [recorder]),recorderBatch]
      by_cases short : (op :: body).length ≤ 14
      · have rejected : batchRejected body = true := by
          simp only [batchRejected,decide_eq_true_eq]
          exact .inl (Nat.lt_of_succ_le short)
        rw [if_pos short,batchRows,if_pos rejected]
      · rw [if_neg short]
        simp
  · rw [if_neg fun h => hb (batch.mpr h),if_neg hb]
    simp only [lineOf,one]
    cases stonesAt tbs off with
    | nil =>
      have alive : ¬ Buried [] := by rintro ⟨_,h,_⟩; cases h
      rw [if_neg alive]
      rfl
    | cons t ts =>
      cases hc : t.newCsv with
      | none =>
        have buried : Buried (t :: ts) := ⟨t,rfl,hc⟩
        simp [buried,hc]
      | some csv =>
        have shown : ¬ Buried (t :: ts) := by rintro ⟨_,h,e⟩; cases h; rw [hc] at e; cases e
        simp [shown,hc]

/-- A batch that some DELETE names is one whose first tombstone is a DELETE or has no text, or it has no rows. -/
def StonesAgree (ncols : Nat) (p : Bytes) (ts : List Tombstone) : Prop :=
  ((∃ t ∈ ts, t.op = walOpDelete) ↔ Buried ts) ∨ batchRows ncols (p.drop 1) = some []

theorem recordAgrees (tbs : List Tombstone) (ncols : Nat) (r : Nat × Bytes) :
    recorder.streamRecord tbs ncols [] r = scanRecord tbs ncols r ↔
      (Scanned r.2 → isBatch r.2 → StonesAgree ncols r.2 (stonesAt tbs r.1)) := by
  obtain ⟨off,p⟩ := r
  by_cases scanned : Scanned p
  · cases p with
    | nil => exact absurd rfl scanned.1
    | cons op body =>
      rw [streamOwn scanned,scanOwn scanned]
      by_cases hb : isBatch (op :: body)
      · rw [if_pos hb,if_pos hb]
        simp only [scanned,hb,true_imp_iff,StonesAgree,List.drop_succ_cons,List.drop_zero]
        by_cases hd : ∃ t ∈ stonesAt tbs off, t.op = walOpDelete <;> by_cases hu : Buried (stonesAt tbs off)
        · simp [hd,hu]
        · rw [if_neg hu,if_pos hd]
          simp [hd,hu]
        · rw [if_pos hu,if_neg hd]
          simp only [hd,hu,false_iff,not_true,false_or]
          exact eq_comm
        · simp [hd,hu]
      · rw [if_neg hb,if_neg hb]
        exact iff_of_true rfl fun _ h => absurd h hb
  · refine iff_of_true ?_ fun h => absurd h scanned
    cases p with
    | nil => rfl
    | cons op body =>
      by_cases size : 16777216 < (op :: body).length
      · simp only [Sink.streamRecord,scanRecord,if_pos size]
      · have ops : op = walOpDelete ∨ op = walOpUpdate := by
          by_contra other
          rw [not_or] at other
          exact scanned ⟨by simp,Nat.le_of_not_lt size,fun e => other.1 (Option.some.inj e),
            fun e => other.2 (Option.some.inj e)⟩
        simp only [Sink.streamRecord,scanRecord,if_neg size,if_pos ops]

/-- The rows of the whole scan are those of its records. -/
theorem streamRowsJoin (ncols : Nat) (file : Bytes) :
    streamRows ncols file = ((streamByRecord ncols file).mapM id).map List.flatten := by
  have step : ∀ (rs : List (Nat × Bytes)) (out : List Row),
      rs.foldlM (fun s r => recorder.streamRecord (tombstones (records file)) ncols s r) out =
        ((rs.map fun r => recorder.streamRecord (tombstones (records file)) ncols [] r).mapM id).map
          fun rows => out ++ rows.flatten := by
    intro rs
    induction rs with
    | nil => simp
    | cons r rs ih =>
      intro out
      have here : recorder.streamRecord (tombstones (records file)) ncols out r =
          (recorder.streamRecord (tombstones (records file)) ncols [] r).map (out ++ ·) := recorderShift _ _ _ _
      rw [List.foldlM_cons,List.map_cons,mapMCons,here]
      cases recorder.streamRecord (tombstones (records file)) ncols [] r with
      | none => rfl
      | some row =>
        rw [Option.map_some,Option.bind_eq_bind,Option.bind_some,ih]
        cases (rs.map fun r => recorder.streamRecord (tombstones (records file)) ncols [] r).mapM id <;> simp
  have all := step (placed 0 (records file)) []
  simpa [streamRows,Sink.streamTblScan,recorder,streamByRecord] using all

theorem loadTblJoin (ncols : Nat) (file : Bytes) :
    loadTbl ncols file = ((loadByRecord ncols file).mapM id).map List.flatten := by
  rw [loadTbl,scanRecords,loadByRecord,List.mapM_map,Function.id_comp]

/-- Record by record the streaming scan feeds what `load_tbl` keeps exactly if both go by the same tombstone
of every batch that has rows; then the two sequences of rows are one. -/
theorem streamMatches (ncols : Nat) (file : Bytes) :
    (streamByRecord ncols file = loadByRecord ncols file ↔
      ∀ r ∈ placed 0 (records file), Scanned r.2 → isBatch r.2 →
        StonesAgree ncols r.2 (stonesAt (tombstones (records file)) r.1)) ∧
    (streamByRecord ncols file = loadByRecord ncols file → streamRows ncols file = loadTbl ncols file) := by
  constructor
  · rw [streamByRecord,loadByRecord,List.map_inj_left]
    exact forall₂_congr fun r _ => recordAgrees _ ncols r
  · intro same
    rw [streamRowsJoin,loadTblJoin,same]

def oneText : ColBatch where
  schema := some [.text]
  ncols := 1
  nrows := 1
  cols := [⟨none,.texts [some (ascii "a")]⟩]

/-- Its record in the compressed build. -/
def oneTextRecord : Bytes := [1,68,67,77,66,1,1,0,0,0,1,0,0,0,2,2,0,1,0,0,0,1,1,0,0,0,97,0]

/-- A batch with an UPDATE: one without a text hides it from the streaming scan only, one with a text and a
DELETE after it from `load_tbl` only. -/
theorem streamDiffers :
    (∃ file, @runLog wholeFloats .compressed [] [.append oneText,.update 0 []] = some file ∧
      loadTbl 1 file = some [[ascii "a"]] ∧ streamRows 1 file = some []) ∧
    ∃ file, @runLog wholeFloats .compressed [] [.append oneText,.update 0 (ascii "b\n"),.delete 0] = some file ∧
      loadTbl 1 file = some [] ∧ streamRows 1 file = some [[ascii "a"]] := by
  exact ⟨⟨frame [oneTextRecord,updateRecord 0 []],
    by decide,by decide,by decide⟩,
    frame [oneTextRecord,updateRecord 0 (ascii "b\n"),deleteRecord 0],
    by decide,by decide,by decide⟩

end Napastak.Store
