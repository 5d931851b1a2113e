import Napastak.CompactScan

/-! `op_scan`, the physical scan of the query engine: it reads a table's log with a record reader of
its own, in batches of typed columns. -/
namespace Napastak.Store
open Codec Framing

/-- `char line_buf[65536]`. -/
def lineBuf : Nat := 65536

def batchSize : Nat := 8192

/-- The inside of a quoted field and what follows; one that is not closed goes to the end. -/
def quotedRest : Bytes → Bytes × Bytes
  | [] => ([],[])
  | [c] => if c = quote then ([],[]) else ([c],[])
  | c :: d :: cs =>
    if c = quote then
      if d = quote then (quote :: (quotedRest cs).1,(quotedRest cs).2) else ([],d :: cs)
    else (c :: (quotedRest (d :: cs)).1,(quotedRest (d :: cs)).2)

def stops (c : UInt8) : Bool := c = comma ∨ c = lf ∨ c = cr

/-- `tmp`, `was_quoted` and the cursor after the field. -/
def opField (esc : Bool) (p : Bytes) : (Bytes × Bool) × Bytes :=
  if esc ∧ p.head? = some quote then
    (((quotedRest (p.drop 1)).1,true),(quotedRest (p.drop 1)).2)
  else ((p.takeWhile (!stops ·),false),p.dropWhile (!stops ·))

/-- `p = comma ? comma+1 : p+strlen(p)`: whatever stands before the next comma is passed over. -/
def nextCol (p : Bytes) : Bytes := (p.dropWhile (· ≠ comma)).drop 1

/-- The field texts of a line, each with whether it is NULL. -/
def opFields (esc : Bool) : Nat → Bytes → List (Bytes × Bool)
  | 0, _ => []
  | n + 1, p =>
    let f := opField esc p
    (f.1.1,!f.1.2 && f.1.1 = nullText) :: opFields esc n (nextCol f.2)

/-- A value of a column: a number, the 64 bits of a double, a truth value or a text. -/
inductive Datum
  | null
  | int (v : Int64)
  | double (bits : Int64)
  | bool (b : Bool)
  | text (s : Bytes)
  deriving DecidableEq, Repr

section
variable [Floats]

/-- What a text means in a column of a type. -/
def readAs (t : ColType) (s : Bytes) : Datum :=
  match t with
  | .int64 => .int (strtoll s)
  | .double => .double (Floats.strtod s)
  | .bool => .bool (strcasecmp s (ascii "true") = 0 ∨ s = ascii "1")
  | _ => .text s

def opDatum (t : ColType) (f : Bytes × Bool) : Datum := if f.2 then .null else readAs t f.1

/-- The row of one record; a record of 64 KB and more and a service record give none. -/
def opRecord (types : List ColType) (p : Bytes) : Option (List Datum) :=
  if lineBuf ≤ p.length then none
  else if p.head? = some walOpDelete ∨ p.head? = some walOpUpdate then none
  else
    let esc : Bool := p.head? = some walOpInsertEsc
    some (List.zipWith opDatum types (opFields esc types.length (cstr (if esc then p.drop 1 else p))))

/-- The loop of `scan_next`: rows until the batch has no more room, and the records left. -/
def scanFill (types : List ColType) : Nat → List Bytes → List (List Datum) × List Bytes
  | _, [] => ([],[])
  | 0, p :: ps => ([],p :: ps)
  | room + 1, p :: ps => match opRecord types p with
    | none => scanFill types (room + 1) ps
    | some row => (row :: (scanFill types room ps).1,(scanFill types room ps).2)

/-- The batches `scan_next` gives until it answers EOF, which it does on a batch without rows. -/
def scanBatches (types : List ColType) : Nat → List Bytes → List (List (List Datum))
  | 0, _ => []
  | fuel + 1, ps =>
    let b := scanFill types batchSize ps
    if b.1 = [] then [] else b.1 :: scanBatches types fuel b.2

/-- `op_scan` on a log, from `open` to EOF. -/
def opScan (types : List ColType) (file : Bytes) : List (List (List Datum)) :=
  scanBatches types ((records file).length + 1) (records file)

/-- A cell of the full scan, read at its column's type. -/
def loadDatum (t : ColType) (cell : Bytes) : Datum := if cell = nullSentinel then .null else readAs t cell

def loadRow (types : List ColType) (row : Row) : List Datum := List.zipWith loadDatum types row

/-! ### The batches together -/

theorem fillRows (types : List ColType) (room : Nat) (ps : List Bytes) :
    (scanFill types room ps).1 ++ (scanFill types room ps).2.filterMap (opRecord types) = ps.filterMap (opRecord types) ∧
      (scanFill types room ps).2.length + (scanFill types room ps).1.length ≤ ps.length ∧
      (0 < room → (scanFill types room ps).1 = [] → (scanFill types room ps).2 = []) := by
  induction ps generalizing room with
  | nil => cases room <;> simp [scanFill]
  | cons p ps ih =>
    cases room with
    | zero => simp [scanFill]
    | succ room =>
      simp only [scanFill]
      cases row : opRecord types p with
      | none =>
        obtain ⟨same,less,last⟩ := ih (room + 1)
        exact ⟨by simpa [row] using same,by simp only [List.length_cons]; omega,last⟩
      | some row' =>
        obtain ⟨same,less,-⟩ := ih room
        exact ⟨by simpa [row] using same,by simp only [List.length_cons]; omega,by simp⟩

theorem batchesRows (types : List ColType) (fuel : Nat) (ps : List Bytes) (enough : ps.length < fuel) :
    (scanBatches types fuel ps).flatten = ps.filterMap (opRecord types) := by
  induction fuel generalizing ps with
  | zero => omega
  | succ fuel ih =>
    obtain ⟨same,less,last⟩ := fillRows types batchSize ps
    simp only [scanBatches]
    split
    · rename_i none_
      rw [none_,last (by decide) none_] at same
      simpa using same
    · rename_i some_
      have pos := List.length_pos_iff.mpr some_
      rw [List.flatten_cons,ih _ (by omega),same]

/-- Over all its batches the scan gives one row for every record it shows, in log order. -/
theorem opScanRows (types : List ColType) (file : Bytes) :
    (opScan types file).flatten = (records file).filterMap (opRecord types) :=
  batchesRows types _ _ (Nat.lt_succ_self _)

end

end Napastak.Store
