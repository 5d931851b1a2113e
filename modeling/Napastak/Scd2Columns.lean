import Napastak.Scd2Plan

/-! Columns of the history table that a step only copies: what a row carried over and a new version hold in them. -/
namespace Napastak.Scd2
open Store Query Codec

theorem sameNameIff {a b : Bytes} : sameName a b = true ↔ a.map tolower = b.map tolower := by
  rw [sameName,decide_eq_true_iff,strcasecmp]
  exact ⟨strcmpZero,fun e => by rw [e,strcmpSelf]⟩

theorem sameNameCongr {a b : Bytes} (h : sameName a b = true) (c : Bytes) : sameName c a = sameName c b := by
  rw [Bool.eq_iff_iff,sameNameIff,sameNameIff,sameNameIff.mp h]

theorem sameNameLeft {a b : Bytes} (h : sameName a b = true) (c : Bytes) : sameName a c = sameName b c := by
  rw [Bool.eq_iff_iff,sameNameIff,sameNameIff,sameNameIff.mp h]

theorem sameNameEmpty {a b : Bytes} (h : sameName a b = true) : a = [] ↔ b = [] := by
  have := congrArg List.length (sameNameIff.mp h)
  rw [List.length_map,List.length_map] at this
  rw [← List.length_eq_zero_iff,← List.length_eq_zero_iff,this]

theorem colIndexSame {a b : Bytes} (h : sameName a b = true) (names : List Bytes) : colIndex names a = colIndex names b := by
  have eq : (sameName · a) = (sameName · b) := funext fun c => sameNameCongr h c
  simp only [colIndex,sameNameEmpty h,eq]

/-- The column found has the name, and lies in the table. -/
theorem colIndexFound {names : List Bytes} {name : Bytes} {j : Nat} (h : colIndex names name = some j) :
    name ≠ [] ∧ ∃ n, names[j]? = some n ∧ sameName n name = true := by
  rw [colIndex] at h
  split at h
  · cases h
  · rename_i some_
    obtain ⟨lt,hit,_⟩ := List.findIdx?_eq_some_iff_getElem.mp h
    exact ⟨some_,names[j],List.getElem?_eq_getElem lt,hit⟩

theorem colIndexLt {names : List Bytes} {name : Bytes} {j : Nat} (h : colIndex names name = some j) : j < names.length := by
  obtain ⟨_,n,at_,_⟩ := colIndexFound h
  exact (List.getElem?_eq_some_iff.mp at_).1

theorem cellSame {a b : Bytes} (h : sameName a b = true) (names : List Bytes) (row : Row) :
    cellOf names row a = cellOf names row b := by
  rw [cellOf,cellOf,colIndexSame h]

theorem cellAtIndex {names : List Bytes} {name : Bytes} {j : Nat} (h : colIndex names name = some j) (row : Row) :
    cellOf names row name = row.getD j [] := by
  rw [cellOf,h]
  rfl

theorem setAtLength (i : Option Nat) (v : Bytes) (row : Row) : (setAt i v row).length = row.length := by
  cases i with
  | none => rfl
  | some i => exact List.length_set ..

theorem setAtOther {i : Option Nat} {j : Nat} (h : i ≠ some j) (v : Bytes) (row : Row) :
    (setAt i v row).getD j [] = row.getD j [] := by
  cases i with
  | none => rfl
  | some i =>
    have ne : i ≠ j := fun e => h (congrArg some e)
    rw [setAt,List.getD_eq_getElem?_getD,List.getElem?_set_ne ne,List.getD_eq_getElem?_getD]

theorem setAtSelf {j : Nat} {row : Row} (lt : j < row.length) (v : Bytes) : (setAt (some j) v row).getD j [] = v := by
  rw [setAt,List.getD_eq_getElem?_getD,List.getElem?_set_self lt]
  rfl

section
variable (st : PipelineStep) (cols : List Bytes)

/-- A column of the table that is none of the step's own. -/
def Copied (name : Bytes) : Prop :=
  ∃ j, colIndex cols name = some j ∧ colIndex cols st.effectiveToCol ≠ some j ∧ colIndex cols st.currentFlagCol ≠ some j ∧
    colIndex cols st.versionCol ≠ some j ∧ colIndex cols st.hashCol ≠ some j ∧
    sameName name st.effectiveFromCol = false ∧ sameName name st.effectiveToCol = false

end

variable {E : Engine} {st : PipelineStep} {cols : List Bytes}

theorem carryLength (closed : List Bytes) (now : Bytes) (row : Row) : (carryRow st cols closed now row).length = row.length := by
  rw [carryRow,setAtLength]
  split
  · exact setAtLength ..
  · rfl

theorem carryOther {closed : List Bytes} {now : Bytes} {row : Row} {j : Nat} (to_ : colIndex cols st.effectiveToCol ≠ some j)
    (flag : colIndex cols st.currentFlagCol ≠ some j) : (carryRow st cols closed now row).getD j [] = row.getD j [] := by
  rw [carryRow,setAtOther flag]
  split
  · exact setAtOther to_ ..
  · rfl

theorem carryCopied {name : Bytes} (h : Copied st cols name) (closed : List Bytes) (now : Bytes) (row : Row) :
    cellOf cols (carryRow st cols closed now row) name = cellOf cols row name := by
  obtain ⟨j,at_,to_,flag,_⟩ := h
  rw [cellAtIndex at_,cellAtIndex at_,carryOther to_ flag]

theorem newLength (srcNames : List Bytes) (now version : Bytes) (cells : Row) :
    (newRow E st srcNames cols now version cells).length = cols.length := by
  rw [newRow,setAtLength,List.length_map,List.length_zipIdx]

/-- A cell of a new version that the hash does not take. -/
theorem newCellAt {srcNames : List Bytes} {now version : Bytes} {cells : Row} {j : Nat} {name : Bytes}
    (at_ : cols[j]? = some name) (hash : colIndex cols st.hashCol ≠ some j) :
    (newRow E st srcNames cols now version cells).getD j [] = newCell st srcNames cols now version cells name j := by
  have lt := (List.getElem?_eq_some_iff.mp at_).1
  have zip : cols.zipIdx[j]? = some (name,j) := by
    rw [List.getElem?_zipIdx,at_]
    simp
  rw [newRow,setAtOther hash,List.getD_eq_getElem?_getD,List.getElem?_map,zip]
  rfl

theorem newCopied {name : Bytes} (h : Copied st cols name) (srcNames : List Bytes) (now version : Bytes) (cells : Row) :
    cellOf cols (newRow E st srcNames cols now version cells) name = cellOf srcNames cells name := by
  obtain ⟨j,at_,to_,flag,vers,hash,from_,toName⟩ := h
  obtain ⟨_,n,here,same⟩ := colIndexFound at_
  rw [cellAtIndex at_,newCellAt here hash,newCell,if_neg to_,if_neg flag,if_neg vers,sameNameLeft same,from_,
    sameNameLeft same,toName,cellSame same]
  simp

/-- The end of a new version. -/
theorem newOpen {j : Nat} (to_ : colIndex cols st.effectiveToCol = some j) (hash : colIndex cols st.hashCol ≠ some j)
    (srcNames : List Bytes) (now version : Bytes) (cells : Row) :
    cellOf cols (newRow E st srcNames cols now version cells) st.effectiveToCol = nullSentinel := by
  obtain ⟨_,n,here,_⟩ := colIndexFound to_
  rw [cellAtIndex to_,newCellAt here hash,newCell,if_pos to_]

end Napastak.Scd2
