import Napastak.Append
import Napastak.Page
import Napastak.Val
import Napastak.Lib.Groups

/-! `run_scd2_step`: the next state of a history table from the state it has and a snapshot of the source. What
depends on code outside is a parameter: MD5, and what the engine answers to the window query when the names of the
columns do not stand for themselves in it. -/
namespace Napastak.Scd2
open Store Query Groups

/-- A result set with the names of its columns. -/
structure Rs extends ResultSet where
  names : List Bytes

/-- The configuration of the step, an unset text being empty. -/
structure PipelineStep where
  businessKey : Bytes
  effectiveFromCol : Bytes
  effectiveToCol : Bytes
  transactionTime : Bytes
  currentFlagCol : Bytes
  versionCol : Bytes
  hashCol : Bytes
  deletedFlag : Bytes
  compareColumns : Bytes
  ignoredColumns : Bytes

inductive Error
  | keyRequired | effectiveRequired | keyEmpty
  | sourceTruncated | keyColMissing (col : Bytes)
  | historyTruncated | currentTruncated
  | nullKey (row : Nat) | duplicateKey (row : Nat)
  /-- the C code writes outside a buffer or overflows a `long` -/
  | undefined
  deriving DecidableEq, Repr

/-- The engine's answer to the window query. -/
inductive Window
  /-- every name stands for the column it names -/
  | columns
  /-- the query does not parse or run -/
  | rejected
  | other (cur : Rs)

structure Engine where
  md5 : Bytes → Bytes
  /-- whether SELECT * FROM the target parses and runs -/
  selects : Bool
  window : List Bytes → List Bytes → Bytes → Window

def sameName (a b : Bytes) : Bool := strcasecmp a b = 0

/-- `scd2_rs_col_index`. -/
def colIndex (names : List Bytes) (name : Bytes) : Option Nat :=
  if name = [] then none else names.findIdx? (sameName · name)

/-- `cells[idx]`, and the empty text for index -1. -/
def cellAt (row : Row) (i : Option Nat) : Bytes := (i.map fun i => row.getD i []).getD []

def cellOf (names : List Bytes) (row : Row) (name : Bytes) : Bytes := cellAt row (colIndex names name)

def maxList : Nat := 64

def splitListGo : Nat → Bytes → List Bytes
  | 0, _ => []
  | n + 1, s =>
    let p := s.dropWhile fun c => c = 32 ∨ c = comma
    if p = [] then []
    else ((p.takeWhile (· ≠ comma)).reverse.dropWhile (· = 32)).reverse :: splitListGo n (p.dropWhile (· ≠ comma))

/-- `scd2_split_list`. -/
def splitList (s : Bytes) : List Bytes := splitListGo maxList s

/-- Cells joined in a buffer that holds `cap` bytes, what does not fit cut off. -/
def joinCut (sep : UInt8) (cap : Nat) (cells : List Bytes) : Bytes := (List.intercalate [sep] cells).take cap

/-- `scd2_build_key`. -/
def buildKey (names bk : List Bytes) (row : Row) : Bytes := joinCut 0x1f 1023 (bk.map (cellOf names row))

def truthy (v : Bytes) : Bool :=
  v ≠ [] && !(["0","false","f","no","n"].any fun s => strcasecmp v (ascii s) = 0)

def isOpen (v : Bytes) : Bool := v = [] ∨ v = nullSentinel

def keyIsNullOrEmpty (names bk : List Bytes) (row : Row) : Bool :=
  bk.any fun n => cellOf names row n = [] ∨ cellOf names row n = nullSentinel

def hexDigit (n : Nat) : UInt8 := if n < 10 then UInt8.ofNat (48 + n) else UInt8.ofNat (87 + n)

def hex (bs : Bytes) : Bytes := bs.flatMap fun b => [hexDigit (b.toNat / 16),hexDigit (b.toNat % 16)]

section
variable (E : Engine) (st : PipelineStep)

def bkCols : List Bytes := splitList st.businessKey

/-- `tt`: the effective-from column where no transaction time is set. -/
def timeCol : Bytes := if st.transactionTime = [] then st.effectiveFromCol else st.transactionTime

/-- `scd2_compute_hash`. -/
def computeHash (names cmp : List Bytes) (row : Row) : Bytes := hex (E.md5 (joinCut 0x1f 4095 (cmp.map (cellOf names row))))

/-- The columns that are never compared unless listed. -/
def reserved : List Bytes :=
  [st.effectiveFromCol,st.effectiveToCol,timeCol st] ++
    ([st.currentFlagCol,st.versionCol,st.deletedFlag].filter (· ≠ [])) ++ bkCols st ++ splitList st.ignoredColumns

/-- `cmp_cols`. -/
def compareCols (names : List Bytes) : List Bytes :=
  let listed := splitList st.compareColumns
  if listed ≠ [] then listed else (names.filter fun cn => !(reserved st).any (sameName cn)).take maxList

/-! ### The current versions -/

/-- A column of a row as the engine reads it: the text, empty for NULL or no such column. -/
def engineText (names : List Bytes) (row : Row) (name : Bytes) : Bytes :=
  if cellOf names row name = nullSentinel then [] else cellOf names row name

def partKey (names bk : List Bytes) (row : Row) : Bytes := joinCut 1 4095 (bk.map (engineText names row))

variable (F : Type) [Doubles F]

/-- `win_ord_cmp` on one descending key. -/
def ordCmpDesc (a b : Bytes) : Int :=
  match (pnum (some a) : Option F), (pnum (some b) : Option F) with
  | some x, some y => -numCmp x y
  | _, _ => -strcmp a b

def winCmp (names : List Bytes) (a b : Row × Nat) : Int :=
  let c := strcmp (partKey names (bkCols st) a.1) (partKey names (bkCols st) b.1)
  if c = 0 then ordCmpDesc F (engineText names a.1 (timeCol st)) (engineText names b.1 (timeCol st)) else c

/-- The rows that ROW_NUMBER gives number 1, in the order of the table. -/
def firstNumbered (names : List Bytes) (rows : List Row) : List Row :=
  let firsts := leaders (winCmp st F names) (fun a => partKey names (bkCols st) a.1) rows.zipIdx
  (rows.zipIdx.filter (· ∈ firsts)).map (·.1)

def openRows (names : List Bytes) (rows : List Row) : List Row :=
  rows.filter fun row => isOpen (cellOf names row st.effectiveToCol)

/-- `cur`. -/
def currentRs (hist : Rs) : Rs :=
  let fallback : Rs := ⟨⟨openRows st hist.names hist.rows,false⟩,hist.names⟩
  match E.window hist.names (bkCols st) (timeCol st) with
  | .columns =>
    ⟨⟨(firstNumbered st F hist.names hist.rows).map fun row => hist.names.map (cellOf hist.names row) ++ [ascii "1"],false⟩,
      hist.names ++ [ascii "__scd2_rn"]⟩
  | .rejected => fallback
  | .other cur => if cur.names = [] ∧ cur.truncated = false then fallback else cur

/-! ### Classification -/

/-- `closed_keys` and `new_rows`. -/
structure Plan where
  closed : List Bytes
  opens : List Row

/-- A compare column differs from the current version's, or the stored hash does. -/
def changed (srcNames curNames : List Bytes) (cells cur : Row) : Bool :=
  let cmp := compareCols st srcNames
  match colIndex curNames st.hashCol with
  | some i => computeHash E srcNames cmp cells ≠ cur.getD i []
  | none => cmp.any fun c => cellOf srcNames cells c ≠ cellOf curNames cur c

def deleted (srcNames : List Bytes) (cells : Row) : Bool := truthy (cellOf srcNames cells st.deletedFlag)

/-- The current version of a source row's key. -/
def findCurrent (srcNames : List Bytes) (cur : Rs) (cells : Row) : Option Row :=
  cur.rows.find? fun row => buildKey cur.names (bkCols st) row = buildKey srcNames (bkCols st) cells

def classifyRow (srcNames : List Bytes) (cur : Rs) (plan : Plan) (cells : Row) : Plan :=
  let key := buildKey srcNames (bkCols st) cells
  match findCurrent st srcNames cur cells with
  | none => if deleted st srcNames cells then plan else {plan with opens := plan.opens ++ [cells]}
  | some c =>
    if deleted st srcNames cells then {plan with closed := plan.closed ++ [key]}
    else if changed E st srcNames cur.names cells c then ⟨plan.closed ++ [key],plan.opens ++ [cells]⟩
    else plan

def classify (srcNames : List Bytes) (cur : Rs) (r : Nat) (seen : List Bytes) (plan : Plan) : List Row → Except Error Plan
  | [] => .ok plan
  | cells :: rest =>
    let key := buildKey srcNames (bkCols st) cells
    if keyIsNullOrEmpty srcNames (bkCols st) cells then .error (.nullKey r)
    else if seen.contains key then .error (.duplicateKey r)
    else classify srcNames cur (r + 1) (seen ++ [key]) (classifyRow E st srcNames cur plan cells) rest

/-! ### The next state of the table -/

/-- `tcols`: the history's columns, on a first run the source's and those of the metadata it lacks. -/
def targetCols (hist : Option Rs) (srcNames : List Bytes) : List Bytes :=
  match hist with
  | some h => h.names
  | none =>
    let add (limit : Bool) (cols : List Bytes) (name : Bytes) : List Bytes :=
      if name ≠ [] ∧ colIndex srcNames name = none ∧ (limit → cols.length < maxCols) then cols ++ [name] else cols
    [st.currentFlagCol,st.versionCol,st.hashCol].foldl (add true)
      ([st.effectiveFromCol,st.effectiveToCol].foldl (add false) srcNames)

def closesRow (cols : List Bytes) (closed : List Bytes) (row : Row) : Bool :=
  (colIndex cols st.effectiveToCol).isSome && isOpen (cellOf cols row st.effectiveToCol) &&
    closed.contains (buildKey cols (bkCols st) row)

/-- Sets a cell unless the index is -1. -/
def setAt (i : Option Nat) (v : Bytes) (row : Row) : Row :=
  match i with
  | none => row
  | some i => row.set i v

/-- A row of the history carried over. -/
def carryRow (cols : List Bytes) (closed : List Bytes) (now : Bytes) (row : Row) : Row :=
  let wasOpen := isOpen (cellOf cols row st.effectiveToCol)
  let closes := closesRow st cols closed row
  setAt (colIndex cols st.currentFlagCol) (if wasOpen && !closes then ascii "1" else ascii "0")
    (if closes then setAt (colIndex cols st.effectiveToCol) now row else row)

def versionOf (cell : Bytes) : Int64 := if cell = [] ∨ cell = nullSentinel then 0 else strtoll cell

/-- `ver_max` of a key. -/
def maxVersion (hist : Option Rs) (key : Bytes) : Int64 :=
  match hist with
  | none => 0
  | some h => ((h.rows.filter fun row => buildKey h.names (bkCols st) row = key).map fun row =>
      versionOf (cellOf h.names row st.versionCol)).foldl (fun m v => if m < v then v else m) 0

/-- The start of a new version: the business time of the source if it has one, else the clock. -/
def validFrom (srcNames : List Bytes) (now : Bytes) (cells : Row) : Bytes :=
  let ttv := cellOf srcNames cells (timeCol st)
  if ttv ≠ [] ∧ ttv ≠ nullSentinel then ttv else now

def newCell (srcNames cols : List Bytes) (now version : Bytes) (cells : Row) (name : Bytes) (j : Nat) : Bytes :=
  if colIndex cols st.effectiveToCol = some j then nullSentinel
  else if colIndex cols st.currentFlagCol = some j then ascii "1"
  else if colIndex cols st.versionCol = some j then version
  else if sameName name st.effectiveFromCol then validFrom st srcNames now cells
  else if sameName name st.effectiveToCol then nullSentinel
  else cellOf srcNames cells name

/-- A new version of a source row. -/
def newRow (srcNames cols : List Bytes) (now version : Bytes) (cells : Row) : Row :=
  setAt (colIndex cols st.hashCol) (computeHash E srcNames (compareCols st srcNames) cells)
    (cols.zipIdx.map fun c => newCell st srcNames cols now version cells c.1 c.2)

/-- The number of a key's next version; a `long` at its end overflows. -/
def nextVersion (hist : Option Rs) (key : Bytes) : Option Bytes :=
  let base := maxVersion st hist key
  if base = Int64.maxValue then none else some (lld (base + 1))

def newRows (hist : Option Rs) (srcNames cols : List Bytes) (now : Bytes) (opens : List Row) : Option (List Row) :=
  opens.mapM fun cells =>
    if colIndex cols st.versionCol = none then some (newRow E st srcNames cols now (ascii "1") cells)
    else (nextVersion st hist (buildKey srcNames (bkCols st) cells)).map fun version =>
      newRow E st srcNames cols now version cells

/-- Names printed one behind the other into a buffer; only what is cut off at the very end stays inside it. -/
def namesFit (cap : Nat) (names : List Bytes) : Bool := (List.intercalate [comma] names.dropLast).length ≤ cap

/-- The history the step works on: a table that cannot be read, or has no columns, is none. -/
def readable (hist : Option Rs) : Option Rs := if E.selects then hist.filter (·.names ≠ []) else none

/-- The rows the source is compared with, none on a first run. -/
def currentOf (hist : Option Rs) : Rs := (hist.map (currentRs E st F)).getD ⟨⟨[],false⟩,[]⟩

def rowsOf (hist : Option Rs) : List Row := (hist.map (·.rows)).getD []

/-- What the step hands to `write_rs_to_table`, and the number of new versions it returns. -/
structure Written where
  out : Rs
  nNew : Nat

/-- The checks on the configuration and the two result sets. -/
def rejects (hist : Option Rs) (src : Rs) : Option Error :=
  if st.businessKey = [] then some .keyRequired
  else if st.effectiveFromCol = [] ∨ st.effectiveToCol = [] then some .effectiveRequired
  else if bkCols st = [] then some .keyEmpty
  else if src.truncated then some .sourceTruncated
  else match (bkCols st).find? fun n => colIndex src.names n = none with
    | some col => some (.keyColMissing col)
    | none => match hist with
      | none => none
      | some h =>
        if h.truncated then some .historyTruncated
        else if !(namesFit 4096 h.names && namesFit 1024 (bkCols st)) then some .undefined
        else if (currentRs E st F h).truncated then some .currentTruncated
        else none

def runScd2Step (hist : Option Rs) (src : Rs) (clock : Int64) : Except Error Written :=
  let hist := readable E hist
  match rejects E st F hist src with
  | some e => .error e
  | none => match classify E st src.names (currentOf E st F hist) 0 [] ⟨[],[]⟩ src.rows with
    | .error e => .error e
    | .ok plan =>
      let cols := targetCols st hist src.names
      let now := lld clock
      match newRows E st hist src.names cols now plan.opens with
      | none => .error .undefined
      | some news =>
        let olds := (rowsOf hist).map (carryRow st cols plan.closed now)
        .ok ⟨{(olds ++ news).foldl rsAdd ⟨[],false⟩ with names := cols},plan.opens.length⟩

end

end Napastak.Scd2
