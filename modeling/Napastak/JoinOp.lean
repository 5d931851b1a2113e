import Napastak.OpInput
import Napastak.Stmt
import Napastak.Lib.NestedLoop
import Napastak.Lib.Join
import Mathlib.Data.List.Nodup

/-! `op_hash_join` of `qengine.c`, a nested loop that goes on where the last call left off. -/
namespace Napastak.QEngine
open Store (maxCols)
open Access (JoinType)

/-! ### The code -/

/-- The cells of one row, without their flags. -/
def copyCells (sc : Schema) (b : Batch) (r : Nat) : List Col := sc.mapIdx fun c col => ⟨col.1,col.2,[],[b.cell c r]⟩

/-- The merged row, on which ON is evaluated and which is emitted. -/
def joinRow (lsc rsc : Schema) (lb : Batch) (lp : Nat) (rb : Batch) (rp : Nat) : Batch :=
  ⟨1,copyCells lsc lb lp ++ copyCells rsc rb rp⟩

structure JoinState where
  built : Bool
  rightBatch : Option Batch
  loop : NestedLoop.Pos Batch
  right : List Batch

section
variable (lsc rsc : Option Schema) (on : (Bytes → Scalar) → Bool)

/-- The right side is materialised once, if its schema is known by then. -/
def joinBuild (st : JoinState) : JoinState :=
  if st.built then st else {st with built := true, rightBatch := rsc.map (materialise · st.right)}

/-- ON for a pair of rows; `none` where the merged row has more columns than a batch. -/
def joinTest (rb lb : Batch) (lp rp : Nat) : Option Bool :=
  if maxCols < (lsc.getD []).length + (rsc.getD []).length then none
  else some (on ((joinRow (lsc.getD []) (rsc.getD []) lb lp rb rp).value 0))

/-- `join_next`; the join type is not looked at. -/
def joinNext (st : JoinState) : Option (Option Batch × JoinState) :=
  let st := joinBuild rsc st
  match st.rightBatch.filter (0 < ·.nrows) with
  | none =>
    match st.loop.rest with
    | [] => some (none,st)
    | b :: rest => some (some b,{st with loop := {st.loop with rest}})
  | some rb =>
    (NestedLoop.next Batch.nrows rb.nrows (joinTest lsc rsc on rb) st.loop).map fun found =>
      (found.1.map fun hit => joinRow (lsc.getD []) (rsc.getD []) hit.1 hit.2.1 rb hit.2.2,{st with loop := found.2})

end

/-! ### What is meant -/

def nullRow (sc : Schema) : Row := sc.map fun col => (col.1,.null)

def keepsLeft (jt : JoinType) : Bool := jt = .left || jt = .full

def keepsRight (jt : JoinType) : Bool := jt = .right || jt = .full

variable (jt : JoinType) (left right : Input)

/-- The SQL join; ON is a condition on the columns of both sides. -/
def sqlJoin (on : (Nat → Scalar) → Bool) : List Row :=
  Join.outer (keepsLeft jt) (keepsRight jt) (nullRow left.schema) (nullRow right.schema) (fun row => on (byPlace row)) left.rows right.rows

/-- The columns of ON by their names. -/
def named (on : (Nat → Scalar) → Bool) (value : Bytes → Scalar) : Bool :=
  on fun i => ((left.schema ++ right.schema)[i]?.map fun col => value col.1).getD .null

/-- What `op_hash_join` gives. -/
def Emits (on : (Nat → Scalar) → Bool) (rows : List Row) : Prop :=
  ∃ bs, Pull.Gives (joinNext left.output right.output (named left right on)) (·.nrows = 0)
    ⟨false,none,⟨none,0,0,left.batches⟩,right.batches⟩ bs ∧ rows = bs.flatMap Batch.rows

def Joins (on : (Nat → Scalar) → Bool) : Prop := ∃ rows, Emits left right on rows ∧ rows.Perm (sqlJoin jt left right on)

/-- Both schemas are known and fit in a batch, the copied rows are the rows, and the columns are found by their names. -/
structure Merges : Prop where
  knownLeft : left.known = true
  knownRight : right.known = true
  fits : left.schema.length + right.schema.length ≤ maxCols
  keptLeft : left.copied.Perm left.rows
  keptRight : right.copied.Perm right.rows
  found : ∀ l ∈ left.rows, ∀ r ∈ right.rows, byName (left.schema ++ right.schema) (l ++ r) = byPlace (l ++ r)

/-- Where the join is right for every ON. -/
def JoinsAlways : Prop :=
  match jt with
  | .inner | .cross => left.rows = [] ∨ (seen left.batches = [] ∧ right.rows = []) ∨ (right.rows ≠ [] ∧ Merges left right)
  | .left => left.rows = []
  | .right => seen left.batches = [] ∧ right.rows = []
  | .full => left.rows = [] ∧ right.rows = []

/-! ### A run -/

section
variable {lsc rsc : Option Schema} {on : (Bytes → Scalar) → Bool} {st : JoinState}

/-- What is still to be given. -/
def joinRem (lsc rsc : Option Schema) (on : (Bytes → Scalar) → Bool) (st : JoinState) : Option (List Batch) :=
  match (rsc.map (materialise · st.right)).filter (0 < ·.nrows) with
  | none => some (seen st.loop.rest)
  | some rb =>
    if maxCols < (lsc.getD []).length + (rsc.getD []).length then if seen st.loop.rest = [] then some [] else none
    else some ((st.loop.hits Batch.nrows rb.nrows fun lb lp rp => on ((joinRow (lsc.getD []) (rsc.getD []) lb lp rb rp).value 0)).map
      fun hit => joinRow (lsc.getD []) (rsc.getD []) hit.1 hit.2.1 rb hit.2.2)

/-- The right batch is the right side; a merged row that is too wide is not begun. -/
structure JoinState.Inv (lsc rsc : Option Schema) (st : JoinState) : Prop where
  built : st.built = true → st.rightBatch = rsc.map (materialise · st.right)
  fresh : maxCols < (lsc.getD []).length + (rsc.getD []).length → st.loop.item = none

theorem joinBuildIs (holds : st.Inv lsc rsc) : joinBuild rsc st = ⟨true,rsc.map (materialise · st.right),st.loop,st.right⟩ := by
  obtain ⟨built,batch,loop,right⟩ := st
  cases built with
  | false => rfl
  | true => rw [joinBuild,if_pos rfl,show batch = _ from holds.built rfl]

theorem seenCons (b : Batch) (bs : List Batch) : seen (b :: bs) = if b.nrows = 0 then [] else b :: seen bs := by
  rw [seen,List.takeWhile_cons]
  split <;> split <;> first | rfl | simp_all

theorem testWide (wide : maxCols < (lsc.getD []).length + (rsc.getD []).length) (rb : Batch) :
    joinTest lsc rsc on rb = fun _ _ _ => none := by
  funext lb lp rp
  exact if_pos wide

theorem testFits (fits : ¬maxCols < (lsc.getD []).length + (rsc.getD []).length) (rb : Batch) :
    joinTest lsc rsc on rb = fun lb lp rp => some (on ((joinRow (lsc.getD []) (rsc.getD []) lb lp rb rp).value 0)) := by
  funext lb lp rp
  exact if_neg fits

theorem joinKeeps {item : Option Batch} {st' : JoinState} (holds : st.Inv lsc rsc) (call : joinNext lsc rsc on st = some (item,st')) :
    st'.Inv lsc rsc := by
  rw [joinNext,joinBuildIs holds] at call
  dsimp only at call
  cases right : (rsc.map (materialise · st.right)).filter (0 < ·.nrows) with
  | none =>
    rw [right] at call
    dsimp only at call
    split at call
    · cases call
      exact ⟨fun _ => rfl,holds.fresh⟩
    · cases call
      exact ⟨fun _ => rfl,holds.fresh⟩
  | some rb =>
    rw [right] at call
    obtain ⟨found,next,same⟩ := Option.map_eq_some_iff.mp call
    cases same
    refine ⟨fun _ => rfl,fun wide => ?_⟩
    have some_ : 0 < rb.nrows := of_decide_eq_true (Option.filter_eq_some_iff.mp right).2
    rw [testWide wide,NestedLoop.nextStuck (holds.fresh wide) some_] at next
    split at next
    · cases next
      rfl
    · split at next
      · cases next
        rfl
      · cases next

theorem joinSteps (holds : st.Inv lsc rsc) : joinRem lsc rsc on st = (joinNext lsc rsc on st).bind fun r =>
    Pull.before (fun b : Batch => b.nrows = 0) r.1 (joinRem lsc rsc on r.2) := by
  rw [joinNext,joinBuildIs holds]
  dsimp only
  cases right : (rsc.map (materialise · st.right)).filter (0 < ·.nrows) with
  | none =>
    rw [joinRem,right]
    dsimp only
    cases st.loop.rest with
    | nil => rfl
    | cons b rest =>
      rw [Option.bind_some,seenCons,Pull.before,joinRem]
      dsimp only
      rw [right]
      by_cases none_ : b.nrows = 0
      · rw [if_pos none_,if_pos (decide_eq_true none_)]
      · rw [if_neg none_,if_neg (by rw [decide_eq_true_eq]; exact none_),Option.map_some]
  | some rb =>
    rw [joinRem,right]
    dsimp only
    have some_ : 0 < rb.nrows := of_decide_eq_true (Option.filter_eq_some_iff.mp right).2
    by_cases wide : maxCols < (lsc.getD []).length + (rsc.getD []).length
    · rw [if_pos wide,testWide wide,NestedLoop.nextStuck (holds.fresh wide) some_]
      cases st.loop.rest with
      | nil => rfl
      | cons b rest =>
        rw [seenCons]
        dsimp only
        by_cases none_ : b.nrows = 0
        · rw [if_pos none_,if_pos none_]
          rfl
        · rw [if_neg none_,if_neg none_,if_neg (List.cons_ne_nil _ _)]
          rfl
    · obtain ⟨found,next,hits⟩ := @NestedLoop.nextIs _ Batch.nrows rb.nrows
        (fun lb lp rp => on ((joinRow (lsc.getD []) (rsc.getD []) lb lp rb rp).value 0)) st.loop
      rw [if_neg wide,testFits wide,next,Option.map_some,Option.bind_some]
      obtain ⟨hit,later⟩ := found
      cases hit with
      | none => rw [show st.loop.hits _ _ _ = [] from hits]; rfl
      | some hit =>
        rw [show st.loop.hits _ _ _ = _ from hits,joinRem]
        dsimp only
        rw [right]
        dsimp only
        rw [if_neg wide]
        rfl

end

/-! ### The rows -/

/-- The left rows as they are merged. -/
def Input.merging (i : Input) : List Row := (places (seen i.batches)).map fun p => if i.known then p.1.copied p.2 else []

def part (sc : Schema) (b : Batch) (r : Nat) : Row := (copyCells sc b r).map fun c => (c.name,c.scalar 0)

theorem partCopied {sc : Schema} {b : Batch} (fits : b.schema = sc) (r : Nat) : part sc b r = b.copied r := by
  rw [part,copyCells,← fits,Batch.schema,Batch.copied]
  refine List.ext_getElem? fun i => ?_
  rw [List.getElem?_map,List.getElem?_mapIdx,List.getElem?_map,List.getElem?_map]
  cases here : b.cols[i]? with
  | none => rfl
  | some c =>
    simp only [Option.map_some,Batch.cell,here,Option.elim_some]
    rfl

theorem copyMaterialised {sc : Schema} {bs : List Batch} {k : Nat} (row : k < (places (seen bs)).length) :
    copyCells sc (materialise sc bs) k = copyCells sc (places (seen bs))[k].1 (places (seen bs))[k].2 := by
  refine List.ext_getElem? fun i => ?_
  rw [copyCells,copyCells,List.getElem?_mapIdx,List.getElem?_mapIdx]
  cases here : sc[i]? with
  | none => rfl
  | some col => rw [Option.map_some,Option.map_some,materialiseCell (List.getElem?_eq_some_iff.mp here).1 row]

theorem joinRowRow (lsc rsc : Schema) (lb : Batch) (lp : Nat) (rb : Batch) (rp : Nat) :
    (joinRow lsc rsc lb lp rb rp).row 0 = part lsc lb lp ++ part rsc rb rp := List.map_append

variable {jt left right} {on : (Nat → Scalar) → Bool}

theorem namedRow (b : Batch) : named left right on (b.value 0) = on (byName (left.schema ++ right.schema) (b.row 0)) := by
  rw [named]
  congr 1
  funext i
  rw [byName]
  congr 2
  funext col
  exact valueRow b 0 col.1

theorem placesNil {bs : List Batch} : places (seen bs) = [] ↔ seen bs = [] := by
  refine ⟨fun none_ => ?_,fun none_ => by rw [none_]; rfl⟩
  cases bs with
  | nil => rfl
  | cons b bs =>
    rw [seenCons] at none_ ⊢
    split
    · rfl
    · rename_i some_
      rw [if_neg some_,places,List.flatMap_cons,List.append_eq_nil_iff,List.map_eq_nil_iff,List.range_eq_nil] at none_
      exact absurd none_.1 some_

/-- The right side is not joined. -/
def Input.Passed (i : Input) : Prop := i.known = false ∨ seen i.batches = []

theorem rightNone (passed : right.Passed) : (right.output.map (materialise · right.batches)).filter (0 < ·.nrows) = none := by
  rw [Input.output]
  rcases passed with unknown | empty
  · rw [unknown]
    rfl
  · split
    · rw [Option.map_some,Option.filter_some,if_neg]
      rw [materialise,placesNil.mpr empty]
      exact of_decide_eq_false rfl
    · rfl

theorem rightSome (joined : ¬right.Passed) : right.output = some right.schema ∧
    (right.output.map (materialise · right.batches)).filter (0 < ·.nrows) = some (materialise right.schema right.batches) := by
  rw [Input.Passed,not_or,Bool.not_eq_false,← placesNil] at joined
  rw [Input.output,joined.1,if_pos rfl,Option.map_some,Option.filter_some,if_pos]
  · exact ⟨rfl,rfl⟩
  · exact decide_eq_true (List.length_pos_iff.mpr joined.2)

/-- The columns of the merged row. -/
def mergedWidth (left right : Input) : Nat := (left.output.getD []).length + right.schema.length

theorem copiedParts (i : Input) : i.copied = (List.range (materialise i.schema i.batches).nrows).map (part i.schema (materialise i.schema i.batches)) := by
  refine List.ext_getElem (by rw [Input.copied,List.length_map,List.length_map,List.length_range]; rfl) fun k less _ => ?_
  rw [Input.copied,List.length_map] at less
  have inside := seenIn (placesIn (List.getElem_mem less)).1
  simp only [Input.copied,List.getElem_map,List.getElem_range]
  rw [← partCopied (i.fits _ inside),part,part,copyMaterialised less]

theorem mergingParts (i : Input) : i.merging = (places (seen i.batches)).map fun p => part (i.output.getD []) p.1 p.2 := by
  refine List.map_congr_left fun p mem => ?_
  rw [Input.output]
  split
  · exact (partCopied (i.fits _ (seenIn (placesIn mem).1)) p.2).symm
  · rfl

/-- The hits of the loop are the merged rows for which ON holds. -/
theorem hitsRows : ((NestedLoop.Pos.hits Batch.nrows (materialise right.schema right.batches).nrows
      (fun lb lp rp => named left right on
        ((joinRow (left.output.getD []) right.schema lb lp (materialise right.schema right.batches) rp).value 0))
      ⟨none,0,0,left.batches⟩).map fun hit =>
        joinRow (left.output.getD []) right.schema hit.1 hit.2.1 (materialise right.schema right.batches) hit.2.2).flatMap Batch.rows =
    (Join.merged left.merging right.copied).filter fun row => on (byName (left.schema ++ right.schema) row) := by
  have one (lb : Batch) (lp rp : Nat) :
      (joinRow (left.output.getD []) right.schema lb lp (materialise right.schema right.batches) rp).rows =
        [part (left.output.getD []) lb lp ++ part right.schema (materialise right.schema right.batches) rp] :=
    congrArg (fun row => [row]) (joinRowRow ..)
  rw [NestedLoop.Pos.hits,Option.elim_none,List.nil_append,NestedLoop.itemHitsIs,Join.mergedFilter,mergingParts,copiedParts]
  simp only [List.map_flatMap,List.map_map,List.flatMap_assoc,List.flatMap_map,places,seen,one,namedRow,joinRowRow,Function.comp_def,
    List.filter_map,← List.map_eq_flatMap]

theorem emitsIff (rows : List Row) : Emits left right on rows ↔
    (right.Passed → rows = (seen left.batches).flatMap Batch.rows) ∧
    (¬right.Passed → (maxCols < mergedWidth left right → seen left.batches = [] ∧ rows = []) ∧
      (¬maxCols < mergedWidth left right → rows = (Join.merged left.merging right.copied).filter fun row =>
        on (byName (left.schema ++ right.schema) row))) := by
  have start : JoinState.Inv left.output right.output ⟨false,none,⟨none,0,0,left.batches⟩,right.batches⟩ := ⟨nofun,fun _ => rfl⟩
  have gives (bs : List Batch) : Pull.Gives (joinNext left.output right.output (named left right on)) (·.nrows = 0)
      ⟨false,none,⟨none,0,0,left.batches⟩,right.batches⟩ bs ↔
        joinRem left.output right.output (named left right on) ⟨false,none,⟨none,0,0,left.batches⟩,right.batches⟩ = some bs :=
    Pull.givesIff (fun _ _ _ => joinKeeps) (fun _ => joinSteps) start bs
  simp only [Emits,gives,joinRem]
  by_cases passed : right.Passed
  · rw [rightNone passed]
    simp [passed]
  obtain ⟨schema,batch⟩ := rightSome passed
  rw [batch]
  dsimp only
  rw [schema,Option.getD_some,show (left.output.getD []).length + right.schema.length = mergedWidth left right from rfl]
  by_cases wide : maxCols < mergedWidth left right
  · rw [if_pos wide]
    by_cases empty : seen left.batches = []
    · simp [passed,wide,empty]
    · simp [passed,wide,empty]
  rw [if_neg wide]
  simp only [passed,wide,Option.some.injEq,exists_eq_left',false_implies,true_implies,not_false_eq_true,true_and]
  rw [hitsRows]

/-! ### The join -/

theorem mergingWide (i : Input) : ∀ row ∈ i.merging, row.length = if i.known then i.schema.length else 0 := by
  intro row mem
  obtain ⟨p,at_,rfl⟩ := List.mem_map.mp mem
  split
  · rw [Batch.copied,List.length_map,schemaWidth (seenIn (placesIn at_).1)]
  · rfl

theorem nullWide (sc : Schema) : (nullRow sc).length = sc.length := List.length_map _

theorem sqlWide : ∀ row ∈ sqlJoin jt left right on, row.length = left.schema.length + right.schema.length := by
  have wide := @Join.outerWide _ left.rows right.rows (fun row => on (byPlace row)) (nullRow left.schema) (nullRow right.schema)
    (keepsLeft jt) (keepsRight jt) (by rw [nullWide]; exact rowsWide left) (by rw [nullWide]; exact rowsWide right)
  rwa [nullWide,nullWide] at wide

theorem seenNil {i : Input} (none_ : i.rows = []) : seen i.batches = [] := by
  rw [← placesNil]
  have length := copiedLength i
  rw [none_,Input.copied,List.length_map] at length
  exact List.length_eq_zero_iff.mp (Nat.le_zero.mp length)

/-- What is passed through has the left columns only. -/
theorem joinsPassed (passed : right.Passed) : Joins jt left right on ↔ seen left.batches = [] ∧ sqlJoin jt left right on = [] := by
  have rows : Joins jt left right on ↔ ((seen left.batches).flatMap Batch.rows).Perm (sqlJoin jt left right on) := by
    simp only [Joins,emitsIff,passed,true_implies,not_true_eq_false,false_implies,and_true,exists_eq_left]
  have wide : ∀ row ∈ (seen left.batches).flatMap Batch.rows, row.length = left.schema.length := by
    intro row mem
    obtain ⟨b,inSeen,mem⟩ := List.mem_flatMap.mp mem
    exact rowsWide left row (List.mem_flatMap.mpr ⟨b,seenIn inSeen,mem⟩)
  have more := List.length_pos_iff.mpr right.some_
  rw [rows,Join.widthsApart (by omega) wide sqlWide,placesRows,List.map_eq_nil_iff,placesNil]

/-- The rows of a join whose right side is not empty. -/
theorem joinsHits (joined : ¬right.Passed) : Joins jt left right on ↔
    (maxCols < mergedWidth left right → seen left.batches = []) ∧
      ((Join.merged left.merging right.copied).filter fun row => on (byName (left.schema ++ right.schema) row)).Perm
        (sqlJoin jt left right on) := by
  simp only [Joins,emitsIff,joined,false_implies,not_false_eq_true,true_implies,true_and]
  by_cases wide : maxCols < mergedWidth left right
  · simp only [wide,true_implies,not_true_eq_false,false_implies,and_true]
    refine ⟨fun ⟨rows,⟨empty,same⟩,perm⟩ => ⟨empty,?_⟩,fun ⟨empty,perm⟩ => ⟨[],⟨empty,rfl⟩,?_⟩⟩
    · rw [Input.merging,empty]
      rw [same] at perm
      exact perm
    · rw [Input.merging,empty] at perm
      exact perm
  · simp only [wide,false_implies,not_false_eq_true,true_implies,true_and,exists_eq_left]

theorem copiedNil {i : Input} : i.copied = [] ↔ seen i.batches = [] := by
  rw [Input.copied,List.map_eq_nil_iff,placesNil]

theorem hitsPerm (merges : Merges left right) :
    ((Join.merged left.merging right.copied).filter fun row => on (byName (left.schema ++ right.schema) row)).Perm
      ((Join.merged left.rows right.rows).filter fun row => on (byPlace row)) := by
  have copied : left.merging = left.copied := by simp only [Input.merging,merges.knownLeft,if_true,Input.copied]
  have same : ((Join.merged left.rows right.rows).filter fun row => on (byName (left.schema ++ right.schema) row)) =
      (Join.merged left.rows right.rows).filter fun row => on (byPlace row) := by
    refine List.filter_congr fun row mem => ?_
    obtain ⟨l,inLeft,r,inRight,rfl⟩ := Join.memMerged.mp mem
    rw [merges.found l inLeft r inRight]
  rw [copied,← same]
  exact (Join.mergedPerm merges.keptLeft merges.keptRight).filter _

theorem mergesJoined (merges : Merges left right) (some_ : right.rows ≠ []) : ¬right.Passed := by
  rintro (unknown | none_)
  · rw [merges.knownRight] at unknown
    cases unknown
  · exact some_ (List.perm_nil.mp (copiedNil.mpr none_ ▸ merges.keptRight.symm))

theorem joinsCovered (merges : Merges left right) : Joins jt left right on ↔
    if right.rows = [] then left.rows = []
    else Join.Covered (keepsLeft jt) (keepsRight jt) (fun row => on (byPlace row)) left.rows right.rows := by
  by_cases empty : right.rows = []
  · rw [if_pos empty,joinsPassed (.inr (seenNil empty))]
    constructor
    · rintro ⟨none_,_⟩
      exact List.perm_nil.mp (copiedNil.mpr none_ ▸ merges.keptLeft.symm)
    · intro none_
      exact ⟨seenNil none_,by rw [sqlJoin,none_,empty,Join.outerNil]⟩
  · have joined := mergesJoined merges empty
    have fits : ¬maxCols < mergedWidth left right := by
      rw [mergedWidth,Input.output,if_pos merges.knownLeft]
      exact Nat.not_lt.mpr merges.fits
    rw [if_neg empty,joinsHits joined,← Join.outerCovered]
    exact ⟨fun h => (hitsPerm merges).symm.trans h.2,fun h => ⟨fun wide => absurd wide fits,(hitsPerm merges).trans h⟩⟩

theorem timesFull {a b c d : Nat} (same : a * b = c * d) (left : a ≤ c) (right : b ≤ d) (pos : 0 < c) (pos' : 0 < d) : a = c ∧ b = d := by
  have up : a * b ≤ a * d := Nat.mul_le_mul_left a right
  have full : a = c := Nat.le_antisymm left (Nat.le_of_mul_le_mul_right (same ▸ up) pos')
  exact ⟨full,Nat.eq_of_mul_eq_mul_left pos (full ▸ same)⟩

/-- A join of all pairs that is right has merged the rows themselves. -/
theorem mergesAll (joined : ¬right.Passed) (some_ : left.rows ≠ []) (jt : JoinType) (inner : keepsLeft jt = false)
    (inner' : keepsRight jt = false) (all : ∀ on, Joins jt left right on) : Merges left right := by
  have meant (on : (Nat → Scalar) → Bool) :
      sqlJoin jt left right on = (Join.merged left.rows right.rows).filter fun row => on (byPlace row) := by
    rw [sqlJoin,inner,inner',Join.outer]
    exact List.append_nil _
  have pairs : (Join.merged left.merging right.copied).Perm (Join.merged left.rows right.rows) := by
    have every := ((joinsHits joined).mp (all fun _ => true)).2
    rwa [meant,List.filter_true,List.filter_true] at every
  obtain ⟨known,reads⟩ : right.known = true ∧ right.copied ≠ [] := by
    rw [Input.Passed,not_or,Bool.not_eq_false] at joined
    exact ⟨joined.1,fun none_ => joined.2 (copiedNil.mp none_)⟩
  have someRight : right.rows ≠ [] := fun none_ => reads (copiedNil.mpr (seenNil none_))
  obtain ⟨row,inPairs⟩ := List.exists_mem_of_ne_nil _ fun none_ => (Join.mergedNil.mp none_).elim some_ someRight
  obtain ⟨l,inLeft,r,inRight,same⟩ := Join.memMerged.mp (pairs.mem_iff.mpr inPairs)
  obtain ⟨l',inLeft',r',inRight',rfl⟩ := Join.memMerged.mp inPairs
  have knownLeft : left.known = true := by
    have width := congrArg List.length same
    rw [List.length_append,List.length_append,mergingWide left l inLeft,copiedWide right r inRight,rowsWide left l' inLeft',
      rowsWide right r' inRight'] at width
    by_contra no
    rw [if_neg no] at width
    exact left.some_ (List.length_eq_zero_iff.mp (by omega))
  have copied : left.merging = left.copied := by simp only [Input.merging,knownLeft,if_true,Input.copied]
  rw [copied] at pairs inLeft
  have fits : left.schema.length + right.schema.length ≤ maxCols := by
    by_contra wide
    have none_ := ((joinsHits joined).mp (all fun _ => true)).1 (by rw [mergedWidth,Input.output,if_pos knownLeft]; exact Nat.not_le.mp wide)
    rw [copiedNil.mpr none_] at inLeft
    cases inLeft
  obtain ⟨counts,counts'⟩ : left.copied.length = left.rows.length ∧ right.copied.length = right.rows.length := by
    have count := pairs.length_eq
    rw [Join.mergedLength,Join.mergedLength] at count
    exact timesFull count (copiedLength left) (copiedLength right) (List.length_pos_iff.mpr some_) (List.length_pos_iff.mpr someRight)
  refine ⟨knownLeft,known,fits,Join.leftOfPerm (copiedWide left) (rowsWide left) pairs counts' reads,
    Join.rightOfPerm (copiedWide left) (rowsWide left) pairs counts (List.ne_nil_of_mem inLeft),fun l inLeft r inRight => ?_⟩
  -- a condition on one column finds it
  funext i
  have one := ((joinsHits joined).mp (all fun value => value i = byPlace (l ++ r) i)).2
  rw [meant,copied] at one
  have here : l ++ r ∈ (Join.merged left.rows right.rows).filter fun row => decide (byPlace row i = byPlace (l ++ r) i) :=
    List.mem_filter.mpr ⟨Join.memMerged.mpr ⟨l,inLeft,r,inRight,rfl⟩,decide_eq_true rfl⟩
  exact of_decide_eq_true (List.mem_filter.mp (one.mem_iff.mpr here)).2

/-- Without a pair for which ON holds there are the rows that are kept. -/
theorem sqlNone : sqlJoin jt left right (fun _ => false) = (if keepsLeft jt then left.rows.map (· ++ nullRow right.schema) else []) ++
    if keepsRight jt then right.rows.map (nullRow left.schema ++ ·) else [] := by
  have every {β : Type} (xs : List β) : (xs.all fun _ => !false) = true := List.all_eq_true.mpr fun _ _ => rfl
  simp only [sqlJoin,Join.outer,Join.loneLeft,Join.loneRight,every,List.filter_true,List.filter_false,List.nil_append]

theorem sqlNil : (∀ on, sqlJoin jt left right on = []) ↔
    (left.rows = [] ∨ right.rows = []) ∧ (keepsLeft jt = true → left.rows = []) ∧ (keepsRight jt = true → right.rows = []) := by
  constructor
  · intro all
    have pairs := all fun _ => true
    have none_ := all fun _ => false
    rw [sqlJoin,Join.outer,List.append_eq_nil_iff,List.filter_true,Join.mergedNil] at pairs
    rw [sqlNone,List.append_eq_nil_iff] at none_
    refine ⟨pairs.1,fun keeps => ?_,fun keeps => ?_⟩
    · rw [if_pos keeps,List.map_eq_nil_iff] at none_
      exact none_.1
    · rw [if_pos keeps,List.map_eq_nil_iff] at none_
      exact none_.2
  · rintro ⟨pairs,keptLeft,keptRight⟩ on
    rw [sqlJoin,Join.outer,Join.mergedNil.mpr pairs,Join.loneLeft,Join.loneRight]
    rw [List.filter_nil,List.nil_append,List.append_eq_nil_iff]
    constructor
    · split
      · rename_i keeps
        rw [keptLeft keeps]
        rfl
      · rfl
    · split
      · rename_i keeps
        rw [keptRight keeps]
        rfl
      · rfl

/-- A join that is right also where ON never holds keeps no rows. -/
theorem joinsNone (joined : ¬right.Passed) (one : Joins jt left right fun _ => false) :
    (keepsLeft jt = true → left.rows = []) ∧ (keepsRight jt = true → right.rows = []) := by
  have none_ := ((joinsHits joined).mp one).2
  rw [List.filter_false,sqlNone] at none_
  have none_ := List.append_eq_nil_iff.mp none_.nil_eq.symm
  refine ⟨fun keeps => ?_,fun keeps => ?_⟩
  · rw [if_pos keeps,List.map_eq_nil_iff] at none_
    exact none_.1
  · rw [if_pos keeps,List.map_eq_nil_iff] at none_
    exact none_.2

theorem joinsNil (joined : ¬right.Passed) (none_ : left.rows = []) (keeps : keepsRight jt = false) : Joins jt left right on := by
  have meant := (@sqlNil jt left right).mpr ⟨.inl none_,fun _ => none_,fun kept => by rw [keeps] at kept; cases kept⟩ on
  rw [joinsHits joined,meant,Input.merging,seenNil none_]
  exact ⟨fun _ => rfl,.refl _⟩

theorem copiedSome (joined : ¬right.Passed) : right.rows ≠ [] := by
  rw [Input.Passed,not_or] at joined
  exact fun none_ => joined.2 (seenNil none_)

theorem joinsAlways : (∀ on, Joins jt left right on) ↔ JoinsAlways jt left right := by
  by_cases passed : right.Passed
  · have both : (∀ on, Joins jt left right on) ↔ seen left.batches = [] ∧ (left.rows = [] ∨ right.rows = []) ∧
        (keepsLeft jt = true → left.rows = []) ∧ (keepsRight jt = true → right.rows = []) := by
      rw [← @sqlNil jt]
      exact ⟨fun all => ⟨((joinsPassed passed).mp (all fun _ => true)).1,fun on => ((joinsPassed passed).mp (all on)).2⟩,
        fun h on => (joinsPassed passed).mpr ⟨h.1,h.2 on⟩⟩
    rw [both]
    have empty : left.rows = [] → seen left.batches = [] := seenNil
    have inner : seen left.batches = [] ∧ (left.rows = [] ∨ right.rows = []) ↔
        left.rows = [] ∨ (seen left.batches = [] ∧ right.rows = []) ∨ (right.rows ≠ [] ∧ Merges left right) := by
      constructor
      · rintro ⟨none_,nil | nil⟩
        · exact .inl nil
        · exact .inr (.inl ⟨none_,nil⟩)
      · rintro (nil | ⟨none_,nil⟩ | ⟨some_,merges⟩)
        · exact ⟨empty nil,.inl nil⟩
        · exact ⟨none_,.inr nil⟩
        · exact absurd passed (mergesJoined merges some_)
    cases jt with
    | inner => exact ⟨fun h => inner.mp ⟨h.1,h.2.1⟩,fun h => ⟨(inner.mpr h).1,(inner.mpr h).2,fun e => (by cases e),fun e => by cases e⟩⟩
    | cross => exact ⟨fun h => inner.mp ⟨h.1,h.2.1⟩,fun h => ⟨(inner.mpr h).1,(inner.mpr h).2,fun e => (by cases e),fun e => by cases e⟩⟩
    | left => exact ⟨fun h => h.2.2.1 rfl,fun nil => ⟨empty nil,.inl nil,fun _ => nil,fun e => by cases e⟩⟩
    | right => exact ⟨fun h => ⟨h.1,h.2.2.2 rfl⟩,fun h => ⟨h.1,.inr h.2,fun e => (by cases e),fun _ => h.2⟩⟩
    | full => exact ⟨fun h => ⟨h.2.2.1 rfl,h.2.2.2 rfl⟩,fun h => ⟨empty h.1,.inl h.1,fun _ => h.1,fun _ => h.2⟩⟩
  · have some_ := copiedSome passed
    have inner {jt : JoinType} (keepsNone : keepsLeft jt = false) (keepsNone' : keepsRight jt = false) : (∀ on, Joins jt left right on) ↔
        left.rows = [] ∨ (seen left.batches = [] ∧ right.rows = []) ∨ (right.rows ≠ [] ∧ Merges left right) := by
      constructor
      · intro all
        by_cases none_ : left.rows = []
        · exact .inl none_
        · exact .inr (.inr ⟨some_,mergesAll passed none_ jt keepsNone keepsNone' all⟩)
      · rintro (none_ | ⟨_,none_⟩ | ⟨_,merges⟩) on
        · exact joinsNil passed none_ keepsNone'
        · exact absurd none_ some_
        · rw [joinsCovered merges,if_neg some_,Join.Covered,keepsNone,keepsNone']
          exact ⟨fun e => (by cases e),fun e => by cases e⟩
    cases jt with
    | inner => exact inner rfl rfl
    | cross => exact inner rfl rfl
    | left => exact ⟨fun all => (joinsNone passed (all fun _ => false)).1 rfl,fun none_ on => joinsNil passed none_ rfl⟩
    | right => exact ⟨fun all => absurd ((joinsNone passed (all fun _ => false)).2 rfl) some_,fun h => absurd h.2 some_⟩
    | full => exact ⟨fun all => absurd ((joinsNone passed (all fun _ => false)).2 rfl) some_,fun h => absurd h.2 some_⟩

theorem rowsNames (i : Input) : ∀ row ∈ i.rows, row.map Prod.fst = i.schema.map Prod.fst := by
  intro row mem
  rw [Input.rows,placesRows] at mem
  obtain ⟨p,at_,rfl⟩ := List.mem_map.mp mem
  rw [← i.fits _ (placesIn at_).1,Batch.row,Batch.schema,List.map_map,List.map_map]
  rfl

/-- Columns of different names are found. -/
theorem foundApart (apart : ((left.schema ++ right.schema).map Prod.fst).Nodup) :
    ∀ l ∈ left.rows, ∀ r ∈ right.rows, byName (left.schema ++ right.schema) (l ++ r) = byPlace (l ++ r) := by
  intro l inLeft r inRight
  have names : (l ++ r).map Prod.fst = (left.schema ++ right.schema).map Prod.fst := by
    rw [List.map_append,rowsNames left l inLeft,rowsNames right r inRight,List.map_append]
  generalize l ++ r = row at names
  generalize left.schema ++ right.schema = cols at names apart
  funext i
  have here := congrArg (·[i]?) names
  simp only [List.getElem?_map] at here
  rw [byName,byPlace]
  cases col : cols[i]? with
  | none =>
    rw [col,Option.map_none,Option.map_eq_none_iff] at here
    rw [here]
    rfl
  | some name =>
    rw [col,Option.map_some,Option.map_eq_some_iff] at here
    obtain ⟨cell,at_,same⟩ := here
    have first : row.find? (·.1 = name.1) = some cell := by
      obtain ⟨less,is⟩ := List.getElem?_eq_some_iff.mp at_
      refine List.find?_eq_some_iff_getElem.mpr ⟨decide_eq_true same,i,less,is,fun j before => ?_⟩
      rw [← names] at apart
      have other : ¬row[j].1 = name.1 := fun equal => by
        have less' : i < (row.map Prod.fst).length := by rwa [List.length_map]
        have both : (row.map Prod.fst)[j] = (row.map Prod.fst)[i] := by
          rw [List.getElem_map,List.getElem_map,equal,is,same]
        exact Nat.ne_of_lt before (apart.getElem_inj_iff.mp both)
      rw [decide_eq_false other]
      rfl
    rw [at_,Option.map_some,first]
    rfl

def numbers (name : Bytes) (vs : List UInt64) : Input :=
  ⟨[(name,.int64)],true,[⟨vs.length,[⟨name,.int64,[],vs.map .bits⟩]⟩],by simp,fun b mem => by rw [List.mem_singleton.mp mem]; rfl⟩

/-- Where the join is right for every ON, and for which ON it is where the rows themselves are merged. -/
theorem hashJoinsIff (jt : JoinType) (left right : Input) : ((∀ on, Joins jt left right on) ↔ JoinsAlways jt left right) ∧
    (Merges left right → ∀ on, Joins jt left right on ↔
      if right.rows = [] then left.rows = []
      else Join.Covered (keepsLeft jt) (keepsRight jt) (fun row => on (byPlace row)) left.rows right.rows) :=
  ⟨joinsAlways,fun merges _ => joinsCovered merges⟩

/-- `a LEFT JOIN b ON a.x = b.y`, where each row of `a` has a partner. -/
theorem joinsPartners : Joins .left (numbers (ascii "x") [7,8]) (numbers (ascii "y") [8,7,9]) fun value => value 0 = value 1 :=
  ((hashJoinsIff .left (numbers (ascii "x") [7,8]) (numbers (ascii "y") [8,7,9])).2
    ⟨rfl,rfl,by decide,.refl _,.refl _,foundApart (by decide)⟩ fun value => value 0 = value 1).mpr (by decide)

/-- A row of a LEFT JOIN without a partner is not given. -/
theorem leftJoinLoses : ¬Joins .left (numbers (ascii "x") [7]) (numbers (ascii "y") [8]) fun value => value 0 = value 1 := by
  rw [joinsCovered ⟨rfl,rfl,by decide,.refl _,.refl _,foundApart (by decide)⟩]
  decide

end Napastak.QEngine
