import Napastak.CStr

/-! Scalar values of the query engine and their comparisons. The arithmetic of
`double` is a parameter: the comparisons only use its order, equality and `strtod`. -/
namespace Napastak.Query

/-- The operations on C doubles that values use. `strtod` gives the number and the text after it, or
nothing where it converts nothing; `fmt` is the text of a number that has none of its own. -/
class Doubles (F : Type) where
  lt : F → F → Bool
  eq : F → F → Bool
  zero : F
  ofInt : Int → F
  strtod : Bytes → Option (F × Bytes)
  fmt : F → Bytes

/-- Integers only, as the doubles of a run that meets no others. -/
instance : Doubles Int where
  lt := fun a b => decide (a < b)
  eq := fun a b => decide (a = b)
  zero := 0
  ofInt := id
  strtod := fun s =>
    let (neg,s) : Bool × Bytes := match s with
      | 45 :: s => (true,s)
      | 43 :: s => (false,s)
      | s => (false,s)
    let ds := s.takeWhile isdigit
    if ds.isEmpty then none
    else
      let n := ds.foldl (fun (n : Int) d => n * 10 + ((d.toNat : Int) - 48)) 0
      some (if neg then -n else n,s.drop ds.length)
  fmt := fun n => ascii (toString n)

structure Val (F : Type) where
  isNull : Bool
  isBool : Bool
  isNum : Bool
  b : Bool
  num : F
  str : Option Bytes
  deriving DecidableEq, Repr

section
variable {F : Type} [Doubles F]

def vnull : Val F := ⟨true,false,false,false,Doubles.zero,none⟩
def vbool (b : Bool) : Val F := ⟨false,true,false,b,Doubles.zero,none⟩
def vnum (n : F) : Val F := ⟨false,false,true,false,n,none⟩
def vstrS (s : Bytes) : Val F := ⟨false,false,false,false,Doubles.zero,some s⟩

/-- Truthy. -/
def vt (v : Val F) : Bool :=
  if v.isNull then false
  else if v.isBool then v.b
  else if v.isNum then !Doubles.eq v.num Doubles.zero
  else match v.str with
    | none => false
    | some s => !s.isEmpty

def valStr (v : Val F) : Bytes :=
  if v.isNull then []
  else match v.str with
    | some s => s
    | none => if v.isBool then (if v.b then ascii "true" else ascii "false") else if v.isNum then Doubles.fmt v.num else []

def blank (c : UInt8) : Bool := c = 32 ∨ c = 9

def pnum (s : Option Bytes) : Option F :=
  match s with
  | none => none
  | some s =>
    let p := s.dropWhile blank
    if p.isEmpty then none
    else match Doubles.strtod p with
      | none => none
      | some (val,rest) => if (rest.dropWhile blank).isEmpty then some val else none

/-- Optional sign, then digits up to the end, at least one. -/
def isIntStr (s : Bytes) : Bool :=
  let p := match s with
    | c :: t => if c = 43 ∨ c = 45 then t else s
    | [] => []
  !p.isEmpty && p.all isdigit

def stripZeros : Bytes → Bytes
  | 48 :: c :: s => stripZeros (c :: s)
  | s => s

/-- Sign and digits of an integer string, leading zeros gone. -/
def intParts (s : Bytes) : Int × Bytes :=
  match s with
  | 43 :: t => (1,stripZeros t)
  | 45 :: t => (-1,stripZeros t)
  | s => (1,stripZeros s)

def intStrCmp (a b : Bytes) : Int :=
  let (sa,a) := intParts a
  let (sb,b) := intParts b
  let za : Bool := a = [48]
  let zb : Bool := b = [48]
  if za && zb then 0
  else if za then if sb > 0 then -1 else 1
  else if zb then if sa > 0 then 1 else -1
  else if sa ≠ sb then if sa < sb then -1 else 1
  else
    let mag := if a.length ≠ b.length then if a.length < b.length then -1 else 1 else strcmp a b
    if sa > 0 then mag else -mag

def numCmp (x y : F) : Int := if Doubles.lt x y then -1 else if Doubles.lt y x then 1 else 0

/-- What a value without a string compares as. -/
def text (v : Val F) : Bytes :=
  match v.str with
  | some s => s
  | none => if v.isBool then (if v.b then ascii "true" else ascii "false") else []

def vcmp (a b : Val F) : Int :=
  if a.isNull && b.isNull then 0
  else if a.isNull then -1
  else if b.isNull then 1
  else match a.str, b.str with
    | some s, some t =>
      if isIntStr s && isIntStr t then intStrCmp s t
      else match (pnum (some s) : Option F), (pnum (some t) : Option F) with
        | some x, some y => numCmp x y
        | _, _ => strcmp s t
    | _, _ =>
      if a.isNum && b.isNum then numCmp a.num b.num
      else strcmp (text a) (text b)

def veq (a b : Val F) : Bool :=
  if a.isNull || b.isNull then false
  else match a.str, b.str with
    | some s, some t =>
      if strcmp s t = 0 then true
      else if isIntStr s && isIntStr t then intStrCmp s t = 0
      else match (pnum (some s) : Option F), (pnum (some t) : Option F) with
        | some x, some y => Doubles.eq x y
        | _, _ => false
    | _, _ =>
      if a.isNum && b.isNum then Doubles.eq a.num b.num
      else if a.isBool && b.isBool then a.b == b.b
      else false

end

/-- `%` any run of bytes, `_` any one byte. -/
def likeR : Bytes → Bytes → Bool
  | s, [] => s.isEmpty
  | s, c :: p =>
    if c = 37 then
      let p := p.dropWhile (· = 37)
      if p.isEmpty then true else s.tails.any fun t => likeR t p
    else match s with
      | [] => false
      | a :: s => if c = 95 ∨ a = c then likeR s p else false
  termination_by _ p => p.length
  decreasing_by
    · exact Nat.lt_succ_of_le (List.dropWhile_sublist _).length_le
    · simp

def likeMatch (str pat : Bytes) (icase : Bool) : Bool :=
  if icase then likeR (str.map tolower) (pat.map tolower) else likeR str pat

section
variable {F : Type} [Doubles F]

theorem vcmpNullLeft {a b : Val F} (ha : a.isNull = true) (hb : b.isNull = false) : vcmp a b = -1 := by
  simp [vcmp,ha,hb]

theorem vcmpNullRight {a b : Val F} (ha : a.isNull = false) (hb : b.isNull = true) : vcmp a b = 1 := by
  simp [vcmp,ha,hb]

theorem vcmpNulls {a b : Val F} (ha : a.isNull = true) (hb : b.isNull = true) : vcmp a b = 0 := by
  simp [vcmp,ha,hb]

theorem veqNull {a b : Val F} (h : a.isNull = true ∨ b.isNull = true) : veq a b = false := by
  rcases h with h | h <;> simp [veq,h]

theorem vtNull {v : Val F} (h : v.isNull = true) : vt v = false := by simp [vt,h]

@[simp] theorem vtVbool (b : Bool) : vt (vbool b : Val F) = b := by simp [vt,vbool]

end

end Napastak.Query
