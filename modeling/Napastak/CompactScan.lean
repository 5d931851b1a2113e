import Napastak.AppendScan
import Napastak.Compact

/-! Compaction keeps what the scan sees, on the logs where both read the tombstones alike. -/
namespace Napastak.Store
open Codec Framing

/-! ### Both passes look only at a record's own tombstones -/

/-- The stones compaction keeps of a record with the given tombstones. -/
def asCompact (t : Tombstone) : Nat × Option Bytes :=
  (t.origOff,if t.op = walOpUpdate then some (t.newCsv.getD []) else none)

theorem stoneAlike {p : Bytes} (alike : ¬ (p.head? = some walOpDelete ∧ 9 < p.length ∧ p.length ≤ rowBufMax)) :
    compactStone p = (scanTombstone p).map asCompact := by
  cases p with
  | nil => rfl
  | cons op body =>
    simp only [List.head?_cons,Option.some.injEq] at alike
    simp only [compactStone,scanTombstone,rowBufMax] at *
    by_cases long : 262143 < (op :: body).length
    · simp only [long,if_true,Option.map_none]
    · simp only [long,if_false]
      by_cases hd : op = walOpDelete
      · subst hd
        have short : (walOpDelete :: body).length ≤ 9 :=
          Nat.le_of_not_lt fun h => alike ⟨rfl,h,Nat.le_of_not_lt long⟩
        by_cases nine : (walOpDelete :: body).length = 9
        · rw [if_pos ⟨rfl,nine⟩,if_pos ⟨.inl rfl,by omega⟩]
          rfl
        · rw [if_neg fun h => nine h.2,if_neg fun h => by omega,if_neg fun h => by omega]
          rfl
      · by_cases hu : op = walOpUpdate
        · subst hu
          rw [if_neg fun h => hd h.1]
          by_cases nine : 9 ≤ (walOpUpdate :: body).length
          · rw [if_pos ⟨rfl,nine⟩,if_pos ⟨.inr rfl,nine⟩]
            by_cases text : 9 < (walOpUpdate :: body).length
            · rw [if_pos ⟨rfl,text⟩]; rfl
            · have none_ : (walOpUpdate :: body).drop 9 = [] := List.drop_eq_nil_of_le (by omega)
              rw [if_neg fun h => text h.2,none_]; rfl
          · rw [if_neg fun h => nine h.2,if_neg fun h => nine h.2]
            rfl
        · rw [if_neg fun h => hd h.1,if_neg fun h => hu h.1,if_neg fun h => h.1.elim hd hu]
          rfl

theorem oddStone {p : Bytes} (odd : p.head? = some walOpDelete ∧ 9 < p.length ∧ p.length ≤ rowBufMax) :
    compactStone p = none ∧ ∃ t, scanTombstone p = some t ∧ t.origOff = offsetValue p := by
  obtain ⟨head,long,short⟩ := odd
  cases p with
  | nil => cases head
  | cons op body =>
    cases head
    have small : ¬ 262143 < (walOpDelete :: body).length := Nat.not_lt.mpr short
    constructor
    · simp only [compactStone,rowBufMax,if_neg small]
      rw [if_neg fun h => by omega,if_neg fun h => absurd h.1 (by decide)]
    · simp only [scanTombstone,if_neg small]
      rw [if_pos ⟨.inl trivial,by omega⟩]
      exact ⟨_,rfl,rfl⟩

theorem stonesAlike {ps : List Bytes} (off : Nat)
    (alike : ∀ p ∈ ps, p.head? = some walOpDelete → 9 < p.length → p.length ≤ rowBufMax → off ≠ offsetValue p) :
    (ps.filterMap compactStone).filter (fun s => s.1 = off) = (stonesAt (tombstones ps) off).map asCompact := by
  induction ps with
  | nil => rfl
  | cons p ps ih =>
    have ih := ih fun q hq => alike q (List.mem_cons_of_mem _ hq)
    have here := alike p List.mem_cons_self
    simp only [stonesAt,tombstones] at ih ⊢
    by_cases odd : p.head? = some walOpDelete ∧ 9 < p.length ∧ p.length ≤ rowBufMax
    · obtain ⟨dropped,t,ht,off_⟩ := oddStone odd
      rw [List.filterMap_cons_none dropped,List.filterMap_cons_some ht,List.filter_cons_of_neg,ih]
      simpa [off_] using (here odd.1 odd.2.1 odd.2.2).symm
    · cases ht : scanTombstone p with
      | none => rw [List.filterMap_cons_none (by rw [stoneAlike odd,ht]; rfl),List.filterMap_cons_none ht,ih]
      | some t =>
        rw [List.filterMap_cons_some (by rw [stoneAlike odd,ht]; rfl),List.filterMap_cons_some ht]
        by_cases eq : t.origOff = off
        · rw [List.filter_cons_of_pos (by simp [asCompact,eq]),List.filter_cons_of_pos (by simp [eq]),ih]
          rfl
        · rw [List.filter_cons_of_neg (by simp [asCompact,eq]),List.filter_cons_of_neg (by simp [eq]),ih]

/-! ### One record -/

/-- What a record shows on its own, with no tombstone in the log. -/
def alone (ncols : Nat) (p : Bytes) : Option (List Row) := scanRecord [] ncols (0,p)

theorem scanAlone (ncols off : Nat) (p : Bytes) : scanRecord [] ncols (off,p) = alone ncols p := by
  cases p <;> rfl

theorem deadShowsNothing {tbs : List Tombstone} {ncols off : Nat} {p : Bytes} (scanned : Scanned p)
    (dead : Dead p (stonesAt tbs off)) : scanRecord tbs ncols (off,p) = some [] := by
  cases p with
  | nil => rfl
  | cons op body =>
    rw [scanOwn scanned]
    simp only [Dead] at dead
    split
    · rename_i batch
      rw [if_pos batch] at dead
      rw [if_pos dead]
    · rename_i line
      rw [if_neg line] at dead
      split
      · rfl
      · rename_i shown
        obtain ⟨t,head,none_⟩ := dead.resolve_left shown
        rw [head]
        simp only [none_]

theorem opFreeScanned {csv : Bytes} (some_ : csv ≠ []) (free : opFree csv) (size : csv.length ≤ rowBufMax) :
    Scanned csv ∧ isBatch csv = false := by
  simp only [opFree,decide_eq_true_eq] at free
  refine ⟨⟨some_,by unfold rowBufMax at size; omega,free.2.1,free.2.2⟩,?_⟩
  simp [isBatch,free.1]

/-- A text without an opcode is a line on its own. -/
theorem lineAlone {ncols : Nat} {csv : Bytes} (free : opFree csv) (size : csv.length ≤ rowBufMax) :
    alone ncols csv = if printable (lineOf csv) = false then some [] else some [rowOf ncols (lineOf csv)] := by
  cases csv with
  | nil => rfl
  | cons op body =>
    obtain ⟨scanned,line⟩ := opFreeScanned (by simp) free size
    rw [alone,scanOwn scanned,line]
    simp [stonesAt]

theorem blankAlone {ncols : Nat} {csv : Bytes} (size : csv.length ≤ rowBufMax) (blank : Blank csv) :
    alone ncols csv = some [] := by
  rcases blank with rfl | ⟨free,dark⟩
  · rfl
  · rw [lineAlone free size,if_pos dark]

/-- What compaction writes for a record that has tombstones. -/
theorem compactBuried {stones : List (Nat × Option Bytes)} {ts : List Tombstone} {off : Nat} {p : Bytes} (scanned : Scanned p)
    (at_ : stones.filter (fun s => s.1 = off) = ts.map asCompact) (some_ : ts ≠ []) :
    compactRecord stones (off,p) = if rowBufMax < p.length then [] else (replacements ts).getLast?.toList := by
  cases p with
  | nil => exact absurd rfl scanned.1
  | cons op body =>
    have ops := scanned.ops
    have any_ : (stones.any fun s => s.1 = off) = true := by
      obtain ⟨t,ht⟩ := List.exists_mem_of_ne_nil ts some_
      have : asCompact t ∈ stones.filter fun s => s.1 = off := at_ ▸ List.mem_map_of_mem ht
      obtain ⟨mem,eq⟩ := List.mem_filter.mp this
      exact List.any_eq_true.mpr ⟨_,mem,eq⟩
    have last : ((stones.reverse.filter fun s => s.1 = off).filterMap Prod.snd).head? = (replacements ts).getLast? := by
      rw [List.filter_reverse,at_,List.filterMap_reverse,List.head?_reverse,List.filterMap_map]
      rfl
    simp only [compactRecord,if_neg ops,any_,if_true,last]

theorem compactFree {stones : List (Nat × Option Bytes)} {off : Nat} {p : Bytes} (scanned : Scanned p)
    (at_ : stones.filter (fun s => s.1 = off) = []) :
    compactRecord stones (off,p) = if rowBufMax < p.length then [] else [p] := by
  cases p with
  | nil => exact absurd rfl scanned.1
  | cons op body =>
    have ops := scanned.ops
    have none_ : (stones.any fun s => s.1 = off) = false := by
      rw [List.any_eq_false]
      exact fun s hs => List.filter_eq_nil_iff.mp at_ s hs
    simp only [compactRecord,if_neg ops,none_,Bool.false_eq_true,if_false]

/-- A list of records on their own. -/
def aloneAll (ncols : Nat) (ps : List Bytes) : Option (List Row) := (ps.mapM (alone ncols)).map List.flatten

theorem aloneNone (ncols : Nat) : aloneAll ncols [] = some [] := rfl

theorem aloneOne (ncols : Nat) (p : Bytes) : aloneAll ncols [p] = alone ncols p := by
  rw [aloneAll,mapMCons]
  cases alone ncols p <;> simp

theorem unscanned (tbs : List Tombstone) (stones : List (Nat × Option Bytes)) (ncols : Nat) {off : Nat} {p : Bytes}
    (h : ¬ Scanned p) : scanRecord tbs ncols (off,p) = some [] ∧ compactRecord stones (off,p) = [] := by
  cases p with
  | nil => exact ⟨rfl,rfl⟩
  | cons op body =>
    by_cases size : 16777216 < (op :: body).length
    · have long : rowBufMax < (op :: body).length := Nat.lt_trans (by decide) size
      exact ⟨by simp only [scanRecord,if_pos size],by simp only [compactRecord,if_pos long]⟩
    · have ops : op = walOpDelete ∨ op = walOpUpdate := by
        by_contra other
        rw [not_or] at other
        exact h ⟨by simp,Nat.le_of_not_lt size,fun e => other.1 (Option.some.inj e),fun e => other.2 (Option.some.inj e)⟩
      refine ⟨by simp only [scanRecord,if_neg size,if_pos ops],?_⟩
      simp only [compactRecord,if_pos ops,ite_self]

theorem stoneCsvShort {p : Bytes} {t : Tombstone} (h : scanTombstone p = some t) :
    (t.newCsv.getD []).length ≤ rowBufMax := by
  cases p with
  | nil => cases h
  | cons op body =>
    simp only [scanTombstone] at h
    by_cases long : 262143 < (op :: body).length
    · rw [if_pos long] at h; cases h
    · rw [if_neg long] at h
      split at h
      · have rest : ((op :: body).drop 9).length ≤ rowBufMax := by
          rw [List.length_drop]; unfold rowBufMax; omega
        rw [← Option.some.inj h]
        dsimp only
        split
        · exact rest
        · exact Nat.zero_le _
      · cases h

theorem replacementShort {ps : List Bytes} {off : Nat} {csv : Bytes}
    (h : csv ∈ replacements (stonesAt (tombstones ps) off)) : csv.length ≤ rowBufMax := by
  obtain ⟨t,ht,e⟩ := List.mem_filterMap.mp h
  obtain ⟨p,_,hp⟩ := List.mem_filterMap.mp (List.mem_filter.mp ht).1
  by_cases up : t.op = walOpUpdate
  · rw [if_pos up] at e
    exact Option.some.inj e ▸ stoneCsvShort hp
  · rw [if_neg up] at e; cases e

/-- What compaction writes for a record shows what the record showed. -/
theorem recordKept {ps : List Bytes} (ok : Compactable ps) {r : Nat × Bytes} (hr : r ∈ placed 0 ps) (ncols : Nat) :
    aloneAll ncols (compactRecord (ps.filterMap compactStone) r) = scanRecord (tombstones ps) ncols r := by
  obtain ⟨off,p⟩ := r
  by_cases scanned : Scanned p
  · have at_ := stonesAlike off fun q hq h1 h2 h3 => ok.stones q hq h1 h2 h3 _ hr
    have short : ∀ csv, (replacements (stonesAt (tombstones ps) off)).getLast? = some csv → csv.length ≤ rowBufMax :=
      fun csv h => replacementShort (List.mem_of_getLast? h)
    rcases ok.records _ hr scanned with ⟨free,size⟩ | ⟨dead,gone,some_⟩ | ⟨line,shown,size,t,csv,head,text,last,csvFree,csvShown⟩
    · rw [compactFree scanned (by rw [at_,free]; rfl)]
      cases p with
      | nil => exact absurd rfl scanned.1
      | cons op body =>
        have own : scanRecord (tombstones ps) ncols (off,op :: body) = alone ncols (op :: body) := by
          have none_ : stonesAt [] 0 = [] := rfl
          rw [alone,scanOwn scanned,scanOwn scanned,none_,show stonesAt (tombstones ps) off = [] from free]
        split
        · rename_i long
          obtain ⟨line,dark⟩ := size.resolve_left (Nat.not_le.mpr long)
          rw [scanOwn scanned,line]
          simp only [Bool.false_eq_true,if_false,if_pos dark]
          rfl
        · rw [aloneOne,own]
    · rw [deadShowsNothing scanned dead,compactBuried scanned at_ some_]
      split
      · rfl
      · rename_i fits
        cases hl : (replacements (stonesAt (tombstones ps) off)).getLast? with
        | none => rfl
        | some csv =>
          rw [Option.toList_some,aloneOne]
          exact blankAlone (short csv hl) (gone.resolve_left fits csv hl)
    · have some_ : stonesAt (tombstones ps) off ≠ [] := by rintro e; rw [e] at head; cases head
      rw [compactBuried scanned at_ some_,if_neg (Nat.not_lt.mpr size),last,Option.toList_some,aloneOne,
        lineAlone csvFree (short csv last)]
      cases p with
      | nil => exact absurd rfl scanned.1
      | cons op body =>
        rw [scanOwn scanned,line]
        simp only [Bool.false_eq_true,if_false,shown,csvShown,Bool.true_eq_false,head,text]
  · obtain ⟨scan,compact⟩ := unscanned (tombstones ps) (ps.filterMap compactStone) ncols scanned
    rw [scan,compact,aloneNone]

/-- Every record compaction writes is short and no tombstone. -/
theorem compactWrites {ps : List Bytes} (ok : Compactable ps) {q : Bytes} (h : q ∈ compactRecords ps) :
    q.length ≤ rowBufMax ∧ scanTombstone q = none := by
  obtain ⟨⟨off,p⟩,hr,hq⟩ := List.mem_flatMap.mp h
  by_cases scanned : Scanned p
  · have at_ := stonesAlike off fun q hq h1 h2 h3 => ok.stones q hq h1 h2 h3 _ hr
    have free_ : ∀ csv, opFree csv → scanTombstone csv = none := fun csv free => by
      cases csv with
      | nil => rfl
      | cons op body =>
        simp only [opFree,decide_eq_true_eq] at free
        exact noStone ⟨fun e => free.2.1 (congrArg some e),fun e => free.2.2 (congrArg some e)⟩
    have written : ∀ csv, (stonesAt (tombstones ps) off) ≠ [] →
        csv ∈ (replacements (stonesAt (tombstones ps) off)).getLast?.toList →
        (replacements (stonesAt (tombstones ps) off)).getLast? = some csv ∧ csv.length ≤ rowBufMax := fun csv _ h => by
      have := Option.mem_toList.mp h
      exact ⟨this,replacementShort (List.mem_of_getLast? this)⟩
    rcases ok.records _ hr scanned with ⟨free,_⟩ | ⟨_,gone,some_⟩ | ⟨_,_,size,t,csv,head,_,last,csvFree,_⟩
    · rw [compactFree scanned (by rw [at_,free]; rfl)] at hq
      split at hq
      · cases hq
      · rw [List.mem_singleton] at hq
        subst hq
        cases q with
        | nil => exact ⟨Nat.zero_le _,rfl⟩
        | cons op body =>
          exact ⟨by omega,noStone ⟨fun e => scanned.ops (.inl e),fun e => scanned.ops (.inr e)⟩⟩
    · rw [compactBuried scanned at_ some_] at hq
      split at hq
      · cases hq
      · rename_i fits
        obtain ⟨last,short⟩ := written q some_ hq
        refine ⟨short,?_⟩
        rcases gone.resolve_left fits q last with rfl | blank
        · rfl
        · exact free_ q blank.1
    · have some_ : stonesAt (tombstones ps) off ≠ [] := by rintro e; rw [e] at head; cases head
      rw [compactBuried scanned at_ some_,if_neg (Nat.not_lt.mpr size)] at hq
      obtain ⟨last',short⟩ := written q some_ hq
      cases Option.some.inj (last.symm.trans last')
      exact ⟨short,free_ _ csvFree⟩
  · rw [(unscanned [] _ 0 scanned).2] at hq
    cases hq

theorem aloneFlat {α : Type} (ncols : Nat) (g : α → List Bytes) (xs : List α) :
    aloneAll ncols (xs.flatMap g) = (xs.mapM fun x => aloneAll ncols (g x)).map List.flatten := by
  have both : ∀ ps qs, aloneAll ncols (ps ++ qs) =
      (aloneAll ncols ps).bind fun rs => (aloneAll ncols qs).map (rs ++ ·) := by
    intro ps qs
    induction ps with
    | nil => rw [List.nil_append,aloneNone]; cases aloneAll ncols qs <;> rfl
    | cons p ps ih =>
      have head : ∀ qs, aloneAll ncols (p :: qs) =
          (alone ncols p).bind fun r => (aloneAll ncols qs).map (r ++ ·) := fun qs => by
        rw [aloneAll,mapMCons,aloneAll]
        cases alone ncols p <;> cases qs.mapM (alone ncols) <;> rfl
      rw [List.cons_append,head,head,ih]
      cases alone ncols p <;> cases aloneAll ncols ps <;> cases aloneAll ncols qs <;> simp
  induction xs with
  | nil => rfl
  | cons x xs ih =>
    rw [List.flatMap_cons,both,ih,mapMCons]
    cases aloneAll ncols (g x) <;> cases xs.mapM (fun x => aloneAll ncols (g x)) <;> rfl

theorem compactRows {ps : List Bytes} (ok : Compactable ps) (ncols : Nat) :
    loadTbl ncols (frame (compactRecords ps)) = scanRecords ncols ps := by
  have small : Framable (compactRecords ps) := fun q hq => by
    have := (compactWrites ok hq).1
    unfold rowBufMax at this
    omega
  have stones : tombstones (compactRecords ps) = [] := List.filterMap_eq_nil_iff.mpr fun q hq => (compactWrites ok hq).2
  have own : ∀ o qs, ((placed o qs).mapM (scanRecord [] ncols)) = qs.mapM (alone ncols) := by
    intro o qs
    induction qs generalizing o with
    | nil => rfl
    | cons q qs ih => rw [placed,mapMCons,mapMCons,ih,scanAlone]
  calc loadTbl ncols (frame (compactRecords ps))
      = aloneAll ncols (compactRecords ps) := by rw [loadTbl,recordsFrame small,scanRecords,stones,own,aloneAll]
    _ = ((placed 0 ps).mapM fun r => aloneAll ncols (compactRecord (ps.filterMap compactStone) r)).map List.flatten :=
        aloneFlat ncols _ _
    _ = scanRecords ncols ps := by
        rw [scanRecords]
        congr 1
        exact mapMCongr fun r hr => recordKept ok hr ncols

/-! ### Logs the calls write -/

section
variable [Floats]

theorem logOpRecords (build : Build) (op : LogOp) (ps : List Bytes) :
    op.run build (frame ps) = (op.records build).map fun rs => frame (ps ++ rs) := by
  cases op with
  | append b =>
    simp only [LogOp.run,LogOp.records,tableAppend,Option.map_map]
    congr 1
    funext r
    rw [Function.comp,Function.comp,walAppendAll,frameAppend]
  | delete off => simp [LogOp.run,LogOp.records,tableDelete,walAppend,frame]
  | update off csv => simp [LogOp.run,LogOp.records,tableUpdate,walAppend,frame]

theorem runRecords (build : Build) (ops : List LogOp) (ps : List Bytes) :
    runLog build (frame ps) ops = (written build ops).map fun qs => frame (ps ++ qs) := by
  induction ops generalizing ps with
  | nil => simp [runLog,written]
  | cons op ops ih =>
    rw [runLog,List.foldlM_cons,logOpRecords,written,mapMCons]
    cases op.records build with
    | none => rfl
    | some rs =>
      have rest := ih (ps ++ rs)
      rw [runLog,written] at rest
      rw [Option.map_some,Option.bind_eq_bind,Option.bind_some,rest]
      cases ops.mapM (LogOp.records build) <;> simp

/-- After any appends, deletes and updates that leave a log on which both passes agree, the scan sees the same
rows before and after compaction. -/
theorem compactKeeps {build : Build} {ops : List LogOp} {ps : List Bytes} (all : written build ops = some ps)
    (ok : Compactable ps) (ncols : Nat) :
    ∃ file, runLog build [] ops = some file ∧ loadTbl ncols (tableCompact file) = loadTbl ncols file := by
  have ran := runRecords build ops []
  rw [all,Option.map_some,List.nil_append] at ran
  refine ⟨frame ps,ran,?_⟩
  rw [tableCompact,recordsFrame ok.small,compactRows ok,loadTbl,recordsFrame ok.small]

end

/-- One column of two numbers. -/
def sevenEight : ColBatch where
  schema := some [.int64]
  ncols := 1
  nrows := 2
  cols := [⟨none,.nums [7,8]⟩]

/-- The two rows, then the first replaced by 9 and the second deleted. -/
def replaceDelete : List LogOp := [.append sevenEight,.update 0 (ascii "9\n"),.delete 6]

def replaceDeleteRecords : List Bytes := [ascii "7\n",ascii "8\n",updateRecord 0 (ascii "9\n"),deleteRecord 6]

theorem replaceDeleteCompactable : Compactable replaceDeleteRecords where
  small := by unfold Framable; decide
  records := by
    refine List.forall_mem_cons.mpr ⟨fun _ => ?_,List.forall_mem_cons.mpr ⟨fun _ => ?_,
      List.forall_mem_cons.mpr ⟨fun update => ?_,List.forall_mem_singleton.mpr fun delete => ?_⟩⟩⟩
    · exact .inr (.inr ⟨by decide,by decide,by decide,_,_,rfl,rfl,rfl,by decide,by decide⟩)
    · exact .inr (.inl ⟨Or.inr ⟨_,rfl,rfl⟩,.inr (fun _ h => by cases h),by decide⟩)
    · exact absurd rfl update.2.2.2
    · exact absurd rfl delete.2.2.1
  stones := by decide

theorem compactKeepsReplaceDelete : ∃ file, @runLog wholeFloats .rows [] replaceDelete = some file ∧
    loadTbl 1 (tableCompact file) = loadTbl 1 file :=
  @compactKeeps wholeFloats .rows replaceDelete replaceDeleteRecords (by decide) replaceDeleteCompactable 1

/-- A row deleted and then updated at the same offset. -/
def deleteReplace : List LogOp := [.append sevenEight,.delete 0,.update 0 (ascii "9\n")]

/-- The scan goes by the first tombstone of a record and compaction by its last UPDATE: the deleted row comes
back as 9. -/
theorem compactRevives : ∃ file, @runLog wholeFloats .rows [] deleteReplace = some file ∧
    loadTbl 1 file = some [[ascii "8"]] ∧ loadTbl 1 (tableCompact file) = some [[ascii "9"],[ascii "8"]] :=
  ⟨frame [ascii "7\n",ascii "8\n",deleteRecord 0,updateRecord 0 (ascii "9\n")],by decide,by decide,by decide⟩

end Napastak.Store
