import Napastak.Lib.Codec
import Napastak.Lib.Fuel
import Napastak.Thrift

/-! Values as the compact protocol writes them, and what `tc_skip` steps over. -/
namespace Napastak.Thrift
open Codec Fuel

inductive Kind where
  | bool
  | byte
  | i16
  | i32
  | i64
  | double
  | binary
  | list
  | set
  | map
  | struct
  deriving DecidableEq, Repr

/-- The type of an element; a boolean has that of true. -/
def Kind.code : Kind → Nat
  | .bool => 1
  | .byte => 3
  | .i16 => 4
  | .i32 => 5
  | .i64 => 6
  | .double => 7
  | .binary => 8
  | .list => 9
  | .set => 10
  | .map => 11
  | .struct => 12

inductive Width where
  | i16
  | i32
  | i64
  deriving DecidableEq, Repr

def Width.bits : Width → Nat
  | .i16 => 16
  | .i32 => 32
  | .i64 => 64

def Width.kind : Width → Kind
  | .i16 => .i16
  | .i32 => .i32
  | .i64 => .i64

inductive TVal where
  | bool (v : Bool)
  | byte (c : UInt8)
  | number (w : Width) (v : Int)
  | double (bits : UInt64)
  | binary (s : Bytes)
  | list (isSet : Bool) (kind : Kind) (vs : List TVal)
  | map (key value : Kind) (kvs : List (TVal × TVal))
  | struct (fields : List (Int × TVal))

namespace TVal

def kind : TVal → Kind
  | bool _ => .bool
  | byte _ => .byte
  | number w _ => w.kind
  | double _ => .double
  | binary _ => .binary
  | list isSet _ _ => if isSet then .set else .list
  | map _ _ _ => .map
  | struct _ => .struct

/-- The type in the header of a field, which holds a boolean whole. -/
def fieldCode : TVal → Nat
  | bool false => 2
  | v => v.kind.code

/-- The byte of a boolean in a container. -/
def flag : TVal → Bytes
  | bool b => [if b then 1 else 2]
  | _ => []

def listHead (kind : Kind) (size : Nat) : Bytes :=
  if size < 15 then [UInt8.ofNat (size * 16 + kind.code)] else UInt8.ofNat (240 + kind.code) :: uvarint size

def mapHead (key value : Kind) (size : Nat) : Bytes :=
  if size = 0 then [0] else uvarint size ++ [UInt8.ofNat (key.code * 16 + value.code)]

def fieldHead (last id : Int) (code : Nat) : Bytes :=
  if 0 < id - last ∧ id - last < 16 then [UInt8.ofNat ((id - last).toNat * 16 + code)] else UInt8.ofNat code :: uvarint (zigzag id)

mutual
/-- The bytes of a value behind its type. -/
def content : TVal → Bytes
  | bool _ => []
  | byte c => [c]
  | number _ v => uvarint (zigzag v)
  | double bits => leBytes 8 bits.toNat
  | binary s => uvarint s.length ++ s
  | list _ kind vs => listHead kind vs.length ++ elements vs
  | map key value kvs => mapHead key value kvs.length ++ pairs kvs
  | struct fs => fields 0 fs ++ [0]
def elements : List TVal → Bytes
  | [] => []
  | v :: vs => flag v ++ content v ++ elements vs
def pairs : List (TVal × TVal) → Bytes
  | [] => []
  | (k,v) :: kvs => flag k ++ content k ++ (flag v ++ content v) ++ pairs kvs
def fields : Int → List (Int × TVal) → Bytes
  | _, [] => []
  | last, (id,v) :: fs => fieldHead last id (fieldCode v) ++ content v ++ fields id fs
end

mutual
/-- The sizes are those of the protocol, and the elements of a container are of its kinds. -/
def Fits : TVal → Prop
  | bool _ => True
  | byte _ => True
  | number w v => -2 ^ (w.bits - 1) ≤ v ∧ v < 2 ^ (w.bits - 1)
  | double _ => True
  | binary s => s.length < 2 ^ 31
  | list _ kind vs => vs.length < 2 ^ 31 ∧ ElementsFit kind vs
  | map key value kvs => kvs.length < 2 ^ 31 ∧ PairsFit key value kvs
  | struct fs => FieldsFit fs
def ElementsFit : Kind → List TVal → Prop
  | _, [] => True
  | kind, v :: vs => v.kind = kind ∧ Fits v ∧ ElementsFit kind vs
def PairsFit : Kind → Kind → List (TVal × TVal) → Prop
  | _, _, [] => True
  | key, value, (k,v) :: kvs => (k.kind = key ∧ Fits k) ∧ (v.kind = value ∧ Fits v) ∧ PairsFit key value kvs
def FieldsFit : List (Int × TVal) → Prop
  | [] => True
  | (id,v) :: fs => (-2 ^ 15 ≤ id ∧ id < 2 ^ 15) ∧ Fits v ∧ FieldsFit fs
end

mutual
/-- No boolean stands in a list, a set or a map. -/
def Plain : TVal → Prop
  | bool _ => True
  | byte _ => True
  | number _ _ => True
  | double _ => True
  | binary _ => True
  | list _ kind vs => (kind = .bool → vs = []) ∧ ElementsPlain vs
  | map key value kvs => (key = .bool ∨ value = .bool → kvs = []) ∧ PairsPlain kvs
  | struct fs => FieldsPlain fs
def ElementsPlain : List TVal → Prop
  | [] => True
  | v :: vs => Plain v ∧ ElementsPlain vs
def PairsPlain : List (TVal × TVal) → Prop
  | [] => True
  | (k,v) :: kvs => Plain k ∧ Plain v ∧ PairsPlain kvs
def FieldsPlain : List (Int × TVal) → Prop
  | [] => True
  | (_,v) :: fs => Plain v ∧ FieldsPlain fs
end

mutual
/-- The values in a value, each with the type that `tc_skip` is given for it and the bytes it takes. -/
def inner : TVal → List (Nat × Bytes)
  | bool _ => []
  | byte _ => []
  | number _ _ => []
  | double _ => []
  | binary _ => []
  | list _ kind vs => innerElements kind vs
  | map key value kvs => innerPairs key value kvs
  | struct fs => innerFields fs
def innerElements : Kind → List TVal → List (Nat × Bytes)
  | _, [] => []
  | kind, v :: vs => (kind.code,flag v ++ content v) :: (inner v ++ innerElements kind vs)
def innerPairs : Kind → Kind → List (TVal × TVal) → List (Nat × Bytes)
  | _, _, [] => []
  | key, value, (k,v) :: kvs =>
    (key.code,flag k ++ content k) :: (value.code,flag v ++ content v) :: (inner k ++ (inner v ++ innerPairs key value kvs))
def innerFields : List (Int × TVal) → List (Nat × Bytes)
  | [] => []
  | (_,v) :: fs => (fieldCode v,content v) :: (inner v ++ innerFields fs)
end

/-- The value itself as a field, and the values in it. -/
def places (v : TVal) : List (Nat × Bytes) := (v.fieldCode,v.content) :: v.inner

end TVal

/-- The bytes stand in the buffer from a position on. -/
def Stands (d : Bytes) (pos : Nat) (s : Bytes) : Prop := s <+: d.drop pos

/-- `tc_skip` steps over these bytes, wherever they stand. -/
def Skips (code : Nat) (enc : Bytes) : Prop :=
  ∀ d pos, d.length < 2 ^ 64 → Stands d pos enc → Runs (fun n => tcSkip wrap n ⟨d,pos⟩ code) (.ok ⟨d,pos + enc.length⟩)

section
variable {d s t : Bytes} {pos : Nat}

theorem standsAppend (at_ : Stands d pos (s ++ t)) : Stands d pos s ∧ Stands d (pos + s.length) t := by
  obtain ⟨rest,same⟩ := at_
  refine ⟨⟨t ++ rest,by rw [← same,List.append_assoc]⟩,rest,?_⟩
  rw [← List.drop_drop,← same,List.append_assoc,List.drop_left]

theorem standsByte {c : UInt8} (at_ : Stands d pos (c :: s)) : d[pos]? = some c ∧ Stands d (pos + 1) s := by
  obtain ⟨rest,same⟩ := id at_
  refine ⟨?_,(standsAppend (s := [c]) at_).2⟩
  rw [← Nat.add_zero pos,← List.getElem?_drop,← same]
  rfl

theorem standsEnd (at_ : Stands d pos s) (some_ : s ≠ []) : pos + s.length ≤ d.length := by
  have length := at_.length_le
  have positive := List.length_pos_of_ne_nil some_
  rw [List.length_drop] at length
  omega

theorem uvStands {n : Nat} (fits : n < 2 ^ 64) (at_ : Stands d pos (uvarint n)) : tcUv ⟨d,pos⟩ = (n,⟨d,pos + (uvarint n).length⟩) := by
  obtain ⟨rest,same⟩ := at_
  have read := uvBytesIs fits rest
  rw [same] at read
  rw [tcUv,read]

theorem uvarintSome (n : Nat) : uvarint n ≠ [] := List.ne_nil_of_length_pos (uvarintLong n)

theorem kindCode (k : Kind) : 0 < k.code ∧ k.code < 16 := by cases k <;> decide

theorem fieldCodeIs (v : TVal) : 0 < v.fieldCode ∧ v.fieldCode < 16 := by
  rw [TVal.fieldCode.eq_def]
  split
  · decide
  · exact kindCode _

end

/-! ### One call -/

section
variable (move : Move) (n : Nat) (b : TBuf)

theorem skipByte : tcSkip move (n + 1) b 3 = move b 1 := rfl

theorem skipDouble : tcSkip move (n + 1) b 7 = (move b 8 >>= fun e => .ok (if e.pos ≤ b.len then e else b)) := rfl

theorem skipBinary : tcSkip move (n + 1) b 8 = move (tcUv b).2 (tcUv b).1 := rfl

theorem skipStruct : tcSkip move (n + 1) b 12 = tcSkipStruct move n b := rfl

theorem skipNumber {t : Nat} (number : t = 4 ∨ t = 5 ∨ t = 6) : tcSkip move (n + 1) b t = .ok (tcUv b).2 := by
  rcases number with rfl | rfl | rfl <;> rfl

theorem skipList {t : Nat} (list : t = 9 ∨ t = 10) : tcSkip move (n + 1) b t = tcSkipList move n b := by
  rcases list with rfl | rfl <;> rfl

theorem skipMap : tcSkip move (n + 1) b 11 =
    if (tcUv b).1 = 0 then .ok (tcUv b).2
    else
      match b.d[(tcUv b).2.pos]? with
      | none => .error .outside
      | some types =>
        tcSkipPairs move n (tcUv b).1 ⟨b.d,(tcUv b).2.pos + 1⟩ (types.toNat / 16) (types.toNat % 16) := rfl

end

/-! ### One value -/

section
variable {d : Bytes} {pos : Nat}

theorem wrapStays {l : Nat} (within : pos + l < 2 ^ 64) : wrap ⟨d,pos⟩ l = .ok ⟨d,pos + l⟩ := by rw [wrap,Nat.mod_eq_of_lt within]

theorem numberSkips (w : Width) {v : Int} (low : -2 ^ (w.bits - 1) ≤ v) (high : v < 2 ^ (w.bits - 1)) : Skips w.kind.code (uvarint (zigzag v)) := by
  intro d pos size at_
  have fits : zigzag v < 2 ^ 64 := by
    apply zigzagFits
    all_goals cases w <;> simp only [Width.bits] at low high <;> omega
  refine runsSucc ?_
  simp only [skipNumber wrap _ _ (show w.kind.code = 4 ∨ w.kind.code = 5 ∨ w.kind.code = 6 by cases w <;> decide),uvStands fits at_]
  exact runsConst _

theorem byteSkips (c : UInt8) : Skips 3 [c] := by
  intro d pos size at_
  have within := standsEnd at_ (List.cons_ne_nil c [])
  rw [List.length_singleton] at within ⊢
  refine runsSucc ?_
  simp only [skipByte]
  rw [wrapStays (Nat.lt_of_le_of_lt within size)]
  exact runsConst _

theorem doubleSkips (bits : UInt64) : Skips 7 (leBytes 8 bits.toNat) := by
  intro d pos size at_
  have within := standsEnd at_ (by simp [leBytes])
  rw [leBytesLength] at within ⊢
  refine runsSucc ?_
  simp only [skipDouble]
  rw [wrapStays (Nat.lt_of_le_of_lt within size)]
  have taken : (if (⟨d,pos + 8⟩ : TBuf).pos ≤ (⟨d,pos⟩ : TBuf).len then (⟨d,pos + 8⟩ : TBuf) else ⟨d,pos⟩) = ⟨d,pos + 8⟩ := if_pos within
  change Runs (fun _ => Except.ok (if (⟨d,pos + 8⟩ : TBuf).pos ≤ (⟨d,pos⟩ : TBuf).len then (⟨d,pos + 8⟩ : TBuf) else ⟨d,pos⟩)) _
  rw [taken]
  exact runsConst _

theorem binarySkips {s : Bytes} (short : s.length < 2 ^ 31) : Skips 8 (uvarint s.length ++ s) := by
  intro d pos size at_
  have within := standsEnd at_ (List.append_ne_nil_of_left_ne_nil (uvarintSome _) s)
  rw [List.length_append,← Nat.add_assoc] at within ⊢
  refine runsSucc ?_
  simp only [skipBinary,uvStands (show s.length < 2 ^ 64 by omega) (standsAppend at_).1]
  rw [wrapStays (Nat.lt_of_le_of_lt within size)]
  exact runsConst _

theorem listHeadRead {kind : Kind} {size : Nat} (short : size < 2 ^ 31) (at_ : Stands d pos (TVal.listHead kind size)) :
    ∃ h, d[pos]? = some h ∧ listHeader ⟨d,pos⟩ h = (kind.code,(size : Int),⟨d,pos + (TVal.listHead kind size).length⟩) := by
  have code := kindCode kind
  rw [TVal.listHead] at at_ ⊢
  split at at_
  · rename_i few
    have byte : (UInt8.ofNat (size * 16 + kind.code)).toNat = size * 16 + kind.code :=
      UInt8.toNat_ofNat_of_lt' (show size * 16 + kind.code < 256 by omega)
    refine ⟨_,(standsByte at_).1,?_⟩
    rw [listHeader,byte,if_pos few,if_neg (by omega)]
    have type : (size * 16 + kind.code) % 16 = kind.code := by omega
    have count : (size * 16 + kind.code) / 16 = size := by omega
    rw [type,count]
    rfl
  · rename_i many
    have byte : (UInt8.ofNat (240 + kind.code)).toNat = 240 + kind.code :=
      UInt8.toNat_ofNat_of_lt' (show 240 + kind.code < 256 by omega)
    obtain ⟨first,rest⟩ := standsByte at_
    refine ⟨_,first,?_⟩
    have count : asInt (size : Int) = size := by
      rw [asInt,Int.bmod_eq_of_le (by omega) (by omega)]
    have type : (240 + kind.code) % 16 = kind.code := by omega
    rw [listHeader,byte,if_neg many,if_pos (by omega)]
    simp only [uvStands (show size < 2 ^ 64 by omega) rest,count,type,List.length_cons]
    rw [Nat.add_comm (uvarint size).length 1,Nat.add_assoc]

/-- A list whose elements are stepped over one by one. -/
theorem listSkips {kind : Kind} {size : Nat} {enc : Bytes} (short : size < 2 ^ 31) (isSet : Bool)
    (elems : ∀ pos, d.length < 2 ^ 64 → Stands d pos enc →
      Runs (fun n => tcSkipElems wrap n size ⟨d,pos⟩ kind.code) (.ok ⟨d,pos + enc.length⟩)) (all : d.length < 2 ^ 64)
    (at_ : Stands d pos (TVal.listHead kind size ++ enc)) :
    Runs (fun n => tcSkip wrap n ⟨d,pos⟩ (if isSet then Kind.set else Kind.list).code)
      (.ok ⟨d,pos + (TVal.listHead kind size ++ enc).length⟩) := by
  obtain ⟨head,rest⟩ := standsAppend at_
  obtain ⟨h,first,header⟩ := listHeadRead short head
  refine runsSucc (runsSucc ?_)
  simp only [skipList wrap _ _ (show (if isSet then Kind.set else Kind.list).code = 9 ∨ (if isSet then Kind.set else Kind.list).code = 10 by
    cases isSet <;> decide),tcSkipList,first,header,Int.toNat_natCast,List.length_append,← Nat.add_assoc]
  exact elems _ all rest

theorem mapSkips {key value : Kind} {size : Nat} {enc : Bytes} (short : size < 2 ^ 31)
    (elems : ∀ pos, d.length < 2 ^ 64 → Stands d pos enc →
      Runs (fun n => tcSkipPairs wrap n size ⟨d,pos⟩ key.code value.code) (.ok ⟨d,pos + enc.length⟩)) (none_ : size = 0 → enc = [])
    (all : d.length < 2 ^ 64) (at_ : Stands d pos (TVal.mapHead key value size ++ enc)) :
    Runs (fun n => tcSkip wrap n ⟨d,pos⟩ 11) (.ok ⟨d,pos + (TVal.mapHead key value size ++ enc).length⟩) := by
  have keys := kindCode key
  have values := kindCode value
  refine runsSucc ?_
  simp only [skipMap]
  rw [TVal.mapHead] at at_ ⊢
  by_cases empty : size = 0
  · rw [if_pos empty,none_ empty] at at_ ⊢
    have zero := uvStands (n := 0) (by decide) at_
    simp only [zero]
    exact runsConst _
  · rw [if_neg empty] at at_ ⊢
    obtain ⟨head,rest⟩ := standsAppend at_
    obtain ⟨count,types⟩ := standsAppend head
    have byte : (UInt8.ofNat (key.code * 16 + value.code)).toNat = key.code * 16 + value.code :=
      UInt8.toNat_ofNat_of_lt' (show key.code * 16 + value.code < 256 by omega)
    have high : (key.code * 16 + value.code) / 16 = key.code := by omega
    have low : (key.code * 16 + value.code) % 16 = value.code := by omega
    simp only [uvStands (show size < 2 ^ 64 by omega) count,if_neg empty,(standsByte types).1,byte,high,low]
    have place : pos + (uvarint size ++ [UInt8.ofNat (key.code * 16 + value.code)]).length = pos + (uvarint size).length + 1 := by
      rw [List.length_append,List.length_singleton,Nat.add_assoc]
    rw [place] at rest
    rw [List.length_append,← Nat.add_assoc,place]
    exact elems _ all rest

/-- The header of a field. -/
theorem fieldHeadRead {last id : Int} {code : Nat} (below : 0 < code ∧ code < 16) (range : -2 ^ 15 ≤ id ∧ id < 2 ^ 15)
    (at_ : Stands d pos (TVal.fieldHead last id code)) :
    ∃ fid, tcNext ⟨d,pos⟩ 0 = (some (fid,code),⟨d,pos + (TVal.fieldHead last id code).length⟩) := by
  rw [TVal.fieldHead] at at_ ⊢
  split at at_
  · rename_i short
    have byte : (UInt8.ofNat ((id - last).toNat * 16 + code)).toNat = (id - last).toNat * 16 + code :=
      UInt8.toNat_ofNat_of_lt' (show (id - last).toNat * 16 + code < 256 by omega)
    have some_ : UInt8.ofNat ((id - last).toNat * 16 + code) ≠ 0 := fun h => by
      rw [h] at byte
      change 0 = _ at byte
      omega
    have first := (standsByte at_).1
    have high : ((id - last).toNat * 16 + code) / 16 = (id - last).toNat := by omega
    have low : ((id - last).toNat * 16 + code) % 16 = code := by omega
    rw [if_pos short,tcNext,first]
    dsimp only
    rw [if_neg some_,byte,high,low,if_pos (by omega)]
    exact ⟨_,rfl⟩
  · rename_i long
    have byte : (UInt8.ofNat code).toNat = code := UInt8.toNat_ofNat_of_lt' (show code < 256 by omega)
    have some_ : UInt8.ofNat code ≠ 0 := fun h => by
      rw [h] at byte
      change 0 = _ at byte
      omega
    obtain ⟨first,rest⟩ := standsByte at_
    have high : ¬code / 16 ≠ 0 := by omega
    have low : code % 16 = code := by omega
    rw [if_neg long,tcNext,first]
    dsimp only
    rw [if_neg some_,byte,if_neg high,low,tcI]
    simp only [uvStands (zigzagFits (show -2 ^ 63 ≤ id by omega) (show id < 2 ^ 63 by omega)) rest,List.length_cons]
    rw [Nat.add_comm (uvarint _).length 1,Nat.add_assoc]
    exact ⟨_,rfl⟩

/-! ### Values in a row -/

theorem elemStep {code size : Nat} {enc rest : Bytes} (skips : Skips code enc) (some_ : enc ≠ []) (all : d.length < 2 ^ 64)
    (at_ : Stands d pos (enc ++ rest))
    (later : Stands d (pos + enc.length) rest →
      Runs (fun n => tcSkipElems wrap n size ⟨d,pos + enc.length⟩ code) (.ok ⟨d,pos + enc.length + rest.length⟩)) :
    Runs (fun n => tcSkipElems wrap n (size + 1) ⟨d,pos⟩ code) (.ok ⟨d,pos + (enc ++ rest).length⟩) := by
  obtain ⟨first,next⟩ := standsAppend at_
  have positive := List.length_pos_of_ne_nil some_
  have inside : pos < d.length := by have := standsEnd first some_; omega
  refine runsSucc ?_
  simp only [tcSkipElems,show (⟨d,pos⟩ : TBuf).pos < (⟨d,pos⟩ : TBuf).len from inside,if_true,List.length_append,← Nat.add_assoc]
  exact runsBind (skips d pos all first) (later next)

theorem pairStep {kt vt size : Nat} {key value rest : Bytes} (keySkips : Skips kt key) (valueSkips : Skips vt value) (some_ : key ≠ [])
    (all : d.length < 2 ^ 64) (at_ : Stands d pos (key ++ value ++ rest))
    (later : Stands d (pos + key.length + value.length) rest →
      Runs (fun n => tcSkipPairs wrap n size ⟨d,pos + key.length + value.length⟩ kt vt) (.ok ⟨d,pos + key.length + value.length + rest.length⟩)) :
    Runs (fun n => tcSkipPairs wrap n (size + 1) ⟨d,pos⟩ kt vt) (.ok ⟨d,pos + (key ++ value ++ rest).length⟩) := by
  rw [List.append_assoc] at at_
  obtain ⟨first,next⟩ := standsAppend at_
  obtain ⟨second,next⟩ := standsAppend next
  have positive := List.length_pos_of_ne_nil some_
  have inside : pos < d.length := by have := standsEnd first some_; omega
  refine runsSucc ?_
  simp only [tcSkipPairs,show (⟨d,pos⟩ : TBuf).pos < (⟨d,pos⟩ : TBuf).len from inside,if_true,List.length_append,← Nat.add_assoc]
  exact runsBind (keySkips d pos all first) (runsBind (valueSkips d _ all second) (later next))

theorem fieldStep {last id : Int} {code : Nat} {enc rest : Bytes} (below : 0 < code ∧ code < 16) (range : -2 ^ 15 ≤ id ∧ id < 2 ^ 15)
    (skips : Skips code enc) (all : d.length < 2 ^ 64) (at_ : Stands d pos (TVal.fieldHead last id code ++ enc ++ rest))
    (later : ∀ pos, Stands d pos rest → Runs (fun n => tcSkipStruct wrap n ⟨d,pos⟩) (.ok ⟨d,pos + rest.length⟩)) :
    Runs (fun n => tcSkipStruct wrap n ⟨d,pos⟩) (.ok ⟨d,pos + (TVal.fieldHead last id code ++ enc ++ rest).length⟩) := by
  rw [List.append_assoc] at at_
  obtain ⟨head,next⟩ := standsAppend at_
  obtain ⟨first,next⟩ := standsAppend next
  obtain ⟨fid,read⟩ := fieldHeadRead below range head
  refine runsSucc ?_
  simp only [tcSkipStruct,read,List.length_append,← Nat.add_assoc]
  exact runsBind (skips d _ all first) (later _ next)

theorem structEnds (at_ : Stands d pos [0]) : Runs (fun n => tcSkipStruct wrap n ⟨d,pos⟩) (.ok ⟨d,pos + 1⟩) := by
  refine runsSucc ?_
  have read : tcNext ⟨d,pos⟩ 0 = (none,⟨d,pos + 1⟩) := by
    rw [tcNext,(standsByte at_).1]
    rfl
  simp only [tcSkipStruct,read]
  exact runsConst _

end

namespace TVal

theorem plainElement {v : TVal} (other : v.kind ≠ .bool) : flag v = [] ∧ v.fieldCode = v.kind.code := by
  cases v with
  | bool b => exact absurd rfl other
  | list isSet kind vs => exact ⟨rfl,rfl⟩
  | _ => exact ⟨rfl,rfl⟩

theorem contentSome {v : TVal} (other : v.kind ≠ .bool) : v.content ≠ [] := by
  cases v with
  | bool b => exact absurd rfl other
  | byte c => simp [content]
  | number w v => exact uvarintSome _
  | double bits => simp [content,leBytes]
  | binary s => exact List.append_ne_nil_of_left_ne_nil (uvarintSome _) s
  | list isSet kind vs =>
    rw [content,listHead]
    split <;> simp
  | map key value kvs =>
    rw [content,mapHead]
    split <;> simp
  | struct fs => simp [content]

mutual
/-- Without booleans in containers every value is stepped over. -/
theorem contentSkips : ∀ v : TVal, v.Fits → v.Plain → Skips v.fieldCode v.content
  | bool false, _, _ => fun _ _ _ _ => runsSucc (runsConst _)
  | bool true, _, _ => fun _ _ _ _ => runsSucc (runsConst _)
  | byte c, _, _ => byteSkips c
  | number w _, fits, _ => by
    rw [Fits] at fits
    exact numberSkips w fits.1 fits.2
  | double bits, _, _ => doubleSkips bits
  | binary s, fits, _ => by
    rw [Fits] at fits
    exact binarySkips fits
  | list isSet kind vs, fits, plain => fun d pos all at_ => by
    rw [Fits] at fits
    rw [Plain] at plain
    rw [content] at at_ ⊢
    exact listSkips fits.1 isSet (fun p all at_ => elementsSkip kind vs fits.2 plain.1 plain.2 d p all at_) all at_
  | map key value kvs, fits, plain => fun d pos all at_ => by
    rw [Fits] at fits
    rw [Plain] at plain
    rw [content] at at_ ⊢
    refine mapSkips fits.1 (fun p all at_ => pairsSkip key value kvs fits.2 plain.1 plain.2 d p all at_) (fun empty => ?_) all at_
    rw [List.length_eq_zero_iff.mp empty,pairs]
  | struct fs, fits, plain => fun d pos all at_ => by
    rw [Fits] at fits
    rw [Plain] at plain
    rw [content] at at_ ⊢
    exact runsSucc (fieldsSkip 0 fs fits plain d pos all at_)
theorem elementsSkip : ∀ (kind : Kind) (vs : List TVal), ElementsFit kind vs → (kind = .bool → vs = []) → ElementsPlain vs →
    ∀ d pos, d.length < 2 ^ 64 → Stands d pos (elements vs) →
      Runs (fun n => tcSkipElems wrap n vs.length ⟨d,pos⟩ kind.code) (.ok ⟨d,pos + (elements vs).length⟩)
  | _, [], _, _, _, _, _, _, _ => runsSucc (runsConst _)
  | kind, v :: vs, fits, none_, plain, d, pos, all, at_ => by
    rw [ElementsFit] at fits
    rw [ElementsPlain] at plain
    have other : v.kind ≠ .bool := fun h => by cases none_ (fits.1.symm.trans h)
    obtain ⟨noFlag,code⟩ := plainElement other
    have skips := contentSkips v fits.2.1 plain.1
    rw [code,fits.1] at skips
    rw [elements,noFlag,List.nil_append] at at_ ⊢
    exact elemStep skips (contentSome other) all at_ fun next =>
      elementsSkip kind vs fits.2.2 (fun h => absurd (fits.1.trans h) other) plain.2 d _ all next
theorem pairsSkip : ∀ (key value : Kind) (kvs : List (TVal × TVal)), PairsFit key value kvs → (key = .bool ∨ value = .bool → kvs = []) →
    PairsPlain kvs → ∀ d pos, d.length < 2 ^ 64 → Stands d pos (pairs kvs) →
      Runs (fun n => tcSkipPairs wrap n kvs.length ⟨d,pos⟩ key.code value.code) (.ok ⟨d,pos + (pairs kvs).length⟩)
  | _, _, [], _, _, _, _, _, _, _ => runsSucc (runsConst _)
  | key, value, (k,v) :: kvs, fits, none_, plain, d, pos, all, at_ => by
    rw [PairsFit] at fits
    rw [PairsPlain] at plain
    have otherKey : k.kind ≠ .bool := fun h => by cases none_ (.inl (fits.1.1.symm.trans h))
    have otherValue : v.kind ≠ .bool := fun h => by cases none_ (.inr (fits.2.1.1.symm.trans h))
    obtain ⟨noKeyFlag,keyCode⟩ := plainElement otherKey
    obtain ⟨noFlag,code⟩ := plainElement otherValue
    have keySkips := contentSkips k fits.1.2 plain.1
    have skips := contentSkips v fits.2.1.2 plain.2.1
    rw [keyCode,fits.1.1] at keySkips
    rw [code,fits.2.1.1] at skips
    rw [pairs,noKeyFlag,noFlag,List.nil_append,List.nil_append] at at_ ⊢
    exact pairStep keySkips skips (contentSome otherKey) all at_ fun next =>
      pairsSkip key value kvs fits.2.2 (fun h => absurd (h.imp (fits.1.1.trans ·) (fits.2.1.1.trans ·)) (not_or.mpr ⟨otherKey,otherValue⟩))
        plain.2.2 d _ all next
theorem fieldsSkip : ∀ (last : Int) (fs : List (Int × TVal)), FieldsFit fs → FieldsPlain fs → ∀ d pos, d.length < 2 ^ 64 →
    Stands d pos (fields last fs ++ [0]) → Runs (fun n => tcSkipStruct wrap n ⟨d,pos⟩) (.ok ⟨d,pos + (fields last fs ++ [0]).length⟩)
  | _, [], _, _, _, _, _, at_ => structEnds at_
  | last, (id,v) :: fs, fits, plain, d, pos, all, at_ => by
    rw [FieldsFit] at fits
    rw [FieldsPlain] at plain
    rw [fields,List.append_assoc] at at_ ⊢
    exact fieldStep (fieldCodeIs v) fits.1 (contentSkips v fits.2.1 plain.1) all at_ fun p next => fieldsSkip id fs fits.2.2 plain.2 d p all next
end

/-- The byte of a boolean in a container is not stepped over. -/
theorem flagStays {v : TVal} (kind : v.kind = .bool) : ¬Skips 1 (flag v ++ content v) := by
  cases v with
  | bool b =>
    intro skips
    have stays : Runs (fun n => tcSkip wrap n ⟨flag (bool b) ++ content (bool b),0⟩ 1) (.ok ⟨flag (bool b) ++ content (bool b),0⟩) :=
      runsSucc (runsConst _)
    have moves := skips (flag (bool b) ++ content (bool b)) 0 (by simp [flag,content]) (List.prefix_refl _)
    have same := runsUnique stays moves
    simp [flag,content] at same
  | number w v => cases w <;> cases kind
  | list isSet kind' vs => cases isSet <;> cases kind
  | _ => cases kind

theorem elementSkips {kind : Kind} {v : TVal} (fits : v.kind = kind ∧ v.Fits) (other : kind ≠ .bool) (plain : v.Plain) :
    Skips kind.code (flag v ++ content v) := by
  obtain ⟨rfl,fits⟩ := fits
  obtain ⟨noFlag,code⟩ := plainElement other
  rw [noFlag,List.nil_append,← code]
  exact contentSkips v fits plain

mutual
theorem innerPlain : ∀ v : TVal, v.Fits → (∀ p ∈ v.inner, Skips p.1 p.2) → v.Plain
  | bool _, _, _ => trivial
  | byte _, _, _ => trivial
  | number _ _, _, _ => trivial
  | double _, _, _ => trivial
  | binary _, _, _ => trivial
  | list _ kind vs, fits, skips => by
    rw [Fits] at fits
    rw [inner] at skips
    exact innerElementsPlain kind vs fits.2 skips
  | map key value kvs, fits, skips => by
    rw [Fits] at fits
    rw [inner] at skips
    exact innerPairsPlain key value kvs fits.2 skips
  | struct fs, fits, skips => by
    rw [Fits] at fits
    rw [inner] at skips
    exact innerFieldsPlain fs fits skips
theorem innerElementsPlain : ∀ (kind : Kind) (vs : List TVal), ElementsFit kind vs → (∀ p ∈ innerElements kind vs, Skips p.1 p.2) →
    (kind = .bool → vs = []) ∧ ElementsPlain vs
  | _, [], _, _ => ⟨fun _ => rfl,trivial⟩
  | kind, v :: vs, fits, skips => by
    rw [ElementsFit] at fits
    rw [innerElements,List.forall_mem_cons,List.forall_mem_append] at skips
    refine ⟨fun bools => ?_,innerPlain v fits.2.1 skips.2.1,(innerElementsPlain kind vs fits.2.2 skips.2.2).2⟩
    subst bools
    exact absurd skips.1 (flagStays fits.1)
theorem innerPairsPlain : ∀ (key value : Kind) (kvs : List (TVal × TVal)), PairsFit key value kvs →
    (∀ p ∈ innerPairs key value kvs, Skips p.1 p.2) → (key = .bool ∨ value = .bool → kvs = []) ∧ PairsPlain kvs
  | _, _, [], _, _ => ⟨fun _ => rfl,trivial⟩
  | key, value, (k,v) :: kvs, fits, skips => by
    rw [PairsFit] at fits
    rw [innerPairs,List.forall_mem_cons,List.forall_mem_cons,List.forall_mem_append,List.forall_mem_append] at skips
    refine ⟨fun bools => ?_,innerPlain k fits.1.2 skips.2.2.1,innerPlain v fits.2.1.2 skips.2.2.2.1,
      (innerPairsPlain key value kvs fits.2.2 skips.2.2.2.2).2⟩
    obtain rfl | rfl := bools
    · exact absurd skips.1 (flagStays fits.1.1)
    · exact absurd skips.2.1 (flagStays fits.2.1.1)
theorem innerFieldsPlain : ∀ fs : List (Int × TVal), FieldsFit fs → (∀ p ∈ innerFields fs, Skips p.1 p.2) → FieldsPlain fs
  | [], _, _ => trivial
  | (_,v) :: fs, fits, skips => by
    rw [FieldsFit] at fits
    rw [innerFields,List.forall_mem_cons,List.forall_mem_append] at skips
    exact ⟨innerPlain v fits.2.1 skips.2.1,innerFieldsPlain fs fits.2.2 skips.2.2⟩
end

mutual
theorem innerSkips : ∀ v : TVal, v.Fits → v.Plain → ∀ p ∈ v.inner, Skips p.1 p.2
  | bool _, _, _ => fun _ mem => by cases mem
  | byte _, _, _ => fun _ mem => by cases mem
  | number _ _, _, _ => fun _ mem => by cases mem
  | double _, _, _ => fun _ mem => by cases mem
  | binary _, _, _ => fun _ mem => by cases mem
  | list _ kind vs, fits, plain => by
    rw [Fits] at fits
    rw [Plain] at plain
    rw [inner]
    exact innerElementsSkip kind vs fits.2 plain.1 plain.2
  | map key value kvs, fits, plain => by
    rw [Fits] at fits
    rw [Plain] at plain
    rw [inner]
    exact innerPairsSkip key value kvs fits.2 plain.1 plain.2
  | struct fs, fits, plain => by
    rw [Fits] at fits
    rw [Plain] at plain
    rw [inner]
    exact innerFieldsSkip fs fits plain
theorem innerElementsSkip : ∀ (kind : Kind) (vs : List TVal), ElementsFit kind vs → (kind = .bool → vs = []) → ElementsPlain vs →
    ∀ p ∈ innerElements kind vs, Skips p.1 p.2
  | _, [], _, _, _ => fun _ mem => by cases mem
  | kind, v :: vs, fits, none_, plain => by
    rw [ElementsFit] at fits
    rw [ElementsPlain] at plain
    have other : kind ≠ .bool := fun h => by cases none_ h
    rw [innerElements,List.forall_mem_cons,List.forall_mem_append]
    exact ⟨elementSkips ⟨fits.1,fits.2.1⟩ other plain.1,innerSkips v fits.2.1 plain.1,
      innerElementsSkip kind vs fits.2.2 (fun h => absurd h other) plain.2⟩
theorem innerPairsSkip : ∀ (key value : Kind) (kvs : List (TVal × TVal)), PairsFit key value kvs →
    (key = .bool ∨ value = .bool → kvs = []) → PairsPlain kvs → ∀ p ∈ innerPairs key value kvs, Skips p.1 p.2
  | _, _, [], _, _, _ => fun _ mem => by cases mem
  | key, value, (k,v) :: kvs, fits, none_, plain => by
    rw [PairsFit] at fits
    rw [PairsPlain] at plain
    have otherKey : key ≠ .bool := fun h => by cases none_ (.inl h)
    have otherValue : value ≠ .bool := fun h => by cases none_ (.inr h)
    rw [innerPairs,List.forall_mem_cons,List.forall_mem_cons,List.forall_mem_append,List.forall_mem_append]
    exact ⟨elementSkips fits.1 otherKey plain.1,elementSkips fits.2.1 otherValue plain.2.1,innerSkips k fits.1.2 plain.1,
      innerSkips v fits.2.1.2 plain.2.1,innerPairsSkip key value kvs fits.2.2 (fun h => absurd h (not_or.mpr ⟨otherKey,otherValue⟩)) plain.2.2⟩
theorem innerFieldsSkip : ∀ fs : List (Int × TVal), FieldsFit fs → FieldsPlain fs → ∀ p ∈ innerFields fs, Skips p.1 p.2
  | [], _, _ => fun _ mem => by cases mem
  | (_,v) :: fs, fits, plain => by
    rw [FieldsFit] at fits
    rw [FieldsPlain] at plain
    rw [innerFields,List.forall_mem_cons,List.forall_mem_append]
    exact ⟨contentSkips v fits.2.1 plain.1,innerSkips v fits.2.1 plain.1,innerFieldsSkip fs fits.2.2 plain.2⟩
end

/-- `tc_skip` steps over a value and all the values in it just where no boolean stands in a container. -/
theorem placesIff {v : TVal} (fits : v.Fits) : (∀ p ∈ v.places, Skips p.1 p.2) ↔ v.Plain := by
  rw [places,List.forall_mem_cons]
  constructor
  · exact fun ⟨_,skips⟩ => innerPlain v fits skips
  · exact fun plain => ⟨contentSkips v fits plain,innerSkips v fits plain⟩

end TVal

end Napastak.Thrift
