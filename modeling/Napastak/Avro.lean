import Napastak.Decimal
import Napastak.Lib.Codec
import Napastak.Split
import Napastak.Thrift

/-! `avro_decode.h` and `avro_record.h`: a flat record read field by field from a payload. No payload is so long that a position
with a length added to it would not fit in its 64 bits. -/
namespace Napastak.Avro
open Codec Thrift
open Store (cstr cstrSelf)

/-! ### The decoder -/

inductive AvroType
  | null | bool | int | long | float | double | string | bytes | unionNullT
  deriving DecidableEq, Repr

/-- What of a field the decoder reads. -/
structure AvroField where
  type : AvroType
  unionInner : AvroType := .null
  unionNullIdx : Int := -1
  deriving DecidableEq

/-- The loop of `avro_decode_long`, which leaves once the shift is past 64 bits. -/
def decodeGroups : Nat → Nat → Nat → Bytes → Nat × Nat
  | 0, _, value, _ => (value,0)
  | _ + 1, _, value, [] => (value,0)
  | k + 1, shift, value, b :: s =>
    let value := value ||| ((b.toNat &&& 0x7F) <<< shift) % 2 ^ 64
    if b < 0x80 then (value,1) else ((decodeGroups k (shift + 7) value s).1,(decodeGroups k (shift + 7) value s).2 + 1)

def unzigzag (n : Nat) : Int := if n % 2 = 0 then (n / 2 : Nat) else -((n / 2 : Nat) : Int) - 1

/-- `avro_decode_long`: the number and the bytes it takes. -/
def avroDecodeLong (s : Bytes) : Int × Nat := (unzigzag (decodeGroups 10 0 0 s).1,(decodeGroups 10 0 0 s).2)

/-- `"%g"` of the bits of a `float` and of a `double`, and what such a text reads back as. -/
structure FloatText where
  float : Nat → Bytes
  double : Nat → Bytes
  readFloat : Bytes → Nat
  readDouble : Bytes → Nat

def longText (v : Int) : Bytes := lld (Int64.ofInt v)

section
variable (F : FloatText)

/-- The switch over the type of a value; none in the inner option for null. -/
def decodeValue (type : AvroType) (s : Bytes) : Option (Option Bytes × Bytes) :=
  match type with
  | .null => some (none,s)
  | .bool =>
    match s with
    | [] => none
    | b :: s => some (some (if b = 0 then ascii "false" else ascii "true"),s)
  | .int | .long => some (some (longText (avroDecodeLong s).1),s.drop (avroDecodeLong s).2)
  | .float => if s.length < 4 then none else some (some (F.float (leValue (s.take 4))),s.drop 4)
  | .double => if s.length < 8 then none else some (some (F.double (leValue (s.take 8))),s.drop 8)
  | .string | .bytes =>
    let slen := (avroDecodeLong s).1
    let pfx := (avroDecodeLong s).2
    if slen < 0 ∨ s.length < pfx + slen.toNat then none
    else some (some (cstr ((s.drop pfx).take slen.toNat)),s.drop (pfx + slen.toNat))
  | .unionNullT => some (some [],s)

def decodeField (field : AvroField) (s : Bytes) : Option (Option Bytes × Bytes) :=
  if s = [] ∧ field.type ≠ .null then none
  else if field.type = .unionNullT then
    let branch := (avroDecodeLong s).1
    let s := s.drop (avroDecodeLong s).2
    if asInt branch = field.unionNullIdx then some (none,s) else decodeValue F field.unionInner s
  else decodeValue F field.type s

/-- `avro_decode_record`: the values, none for a null; what stands behind them is not looked at. -/
def avroDecodeRecord : List AvroField → Bytes → Option (List (Option Bytes))
  | [], _ => some []
  | f :: fs, s => (decodeField F f s).bind fun (v,s) => (avroDecodeRecord fs s).map fun vs => v :: vs

end

/-! ### Records and what is written for them -/

inductive Prim
  | bool | int | long | float | double | string | bytes
  deriving DecidableEq, Repr

def Prim.type : Prim → AvroType
  | .bool => .bool
  | .int => .int
  | .long => .long
  | .float => .float
  | .double => .double
  | .string => .string
  | .bytes => .bytes

/-- The types of the fields of a flat record; in a union null is the first branch or the second. -/
inductive Column
  | null
  | plain (p : Prim)
  | nullable (nullFirst : Bool) (p : Prim)
  deriving DecidableEq, Repr

def nullIdx (nullFirst : Bool) : Nat := if nullFirst then 0 else 1

def Column.field : Column → AvroField
  | .null => ⟨.null,.null,-1⟩
  | .plain p => ⟨p.type,.null,-1⟩
  | .nullable nullFirst p => ⟨.unionNullT,p.type,nullIdx nullFirst⟩

inductive Datum
  | bool (b : Bool)
  | int (v : Int32)
  | long (v : Int64)
  | float (bits : UInt32)
  | double (bits : UInt64)
  | string (s : Bytes) (fits : s.length < 2 ^ 63)
  | bytes (s : Bytes) (fits : s.length < 2 ^ 63)

def Datum.prim : Datum → Prim
  | .bool _ => .bool
  | .int _ => .int
  | .long _ => .long
  | .float _ => .float
  | .double _ => .double
  | .string _ _ => .string
  | .bytes _ _ => .bytes

inductive Cell
  | null
  | plain (d : Datum)
  | absent (nullFirst : Bool) (p : Prim)
  | present (nullFirst : Bool) (d : Datum)

def Cell.column : Cell → Column
  | .null => .null
  | .plain d => .plain d.prim
  | .absent nullFirst p => .nullable nullFirst p
  | .present nullFirst d => .nullable nullFirst d.prim

def encodeLong (v : Int) : Bytes := uvarint (zigzag v)

def Datum.encode : Datum → Bytes
  | .bool b => [if b then 1 else 0]
  | .int v => encodeLong v.toInt
  | .long v => encodeLong v.toInt
  | .float bits => leBytes 4 bits.toNat
  | .double bits => leBytes 8 bits.toNat
  | .string s _ => encodeLong s.length ++ s
  | .bytes s _ => encodeLong s.length ++ s

def Cell.encode : Cell → Bytes
  | .null => []
  | .plain d => d.encode
  | .absent nullFirst _ => encodeLong (nullIdx nullFirst)
  | .present nullFirst d => encodeLong (nullIdx !nullFirst) ++ d.encode

def fieldsOf (r : List Cell) : List AvroField := r.map fun c => c.column.field

def encode (r : List Cell) : Bytes := r.flatMap Cell.encode

/-! ### Numbers -/

theorem groupsAre (k sh r : Nat) (s : Bytes) : decodeGroups k sh r s = uvBytes (s.take k) sh r := by
  induction k generalizing sh r s with
  | zero => rfl
  | succ k ih =>
    cases s with
    | nil => rfl
    | cons b s => simp only [decodeGroups,List.take_succ_cons,uvBytes,ih]

theorem unzigzagIs (v : Int) : unzigzag (zigzag v) = v := by
  unfold unzigzag zigzag
  split <;> split <;> omega

theorem uvarintShort (k n : Nat) : (uvarintIn k n).length ≤ k := by
  induction k generalizing n with
  | zero => exact le_rfl
  | succ k ih =>
    rw [uvarintIn]
    split
    · simp
    · exact Nat.succ_le_succ (ih _)

theorem longRead {v : Int} (low : -2 ^ 63 ≤ v) (high : v < 2 ^ 63) (rest : Bytes) :
    avroDecodeLong (encodeLong v ++ rest) = (v,(encodeLong v).length) := by
  have short : (encodeLong v).length ≤ 10 := uvarintShort 10 _
  have groups : decodeGroups 10 0 0 (encodeLong v ++ rest) = (zigzag v,(encodeLong v).length) := by
    rw [groupsAre,List.take_append,List.take_of_length_le short]
    exact uvBytesIs (zigzagFits low high) _
  rw [avroDecodeLong,groups,unzigzagIs]

/-! ### What is decoded -/

section
variable (F : FloatText)

def Datum.text : Datum → Bytes
  | .bool b => if b then ascii "true" else ascii "false"
  | .int v => longText v.toInt
  | .long v => longText v.toInt
  | .float bits => F.float bits.toNat
  | .double bits => F.double bits.toNat
  | .string s _ => cstr s
  | .bytes s _ => cstr s

def Cell.text : Cell → Option Bytes
  | .null => none
  | .plain d => some (d.text F)
  | .absent _ _ => none
  | .present _ d => some (d.text F)

theorem stringRead {s : Bytes} (fits : s.length < 2 ^ 63) {type : AvroType} (either : type = .string ∨ type = .bytes) (rest : Bytes) :
    decodeValue F type (encodeLong s.length ++ s ++ rest) = some (some (cstr s),rest) := by
  have read := longRead (v := s.length) (by omega) (by omega) (s ++ rest)
  have room : ¬((s.length : Int) < 0 ∨ (encodeLong s.length ++ (s ++ rest)).length < (encodeLong s.length).length + (s.length : Int).toNat) := by
    simp only [List.length_append]
    omega
  have value : ((encodeLong s.length ++ (s ++ rest)).drop (encodeLong s.length).length).take (s.length : Int).toNat = s := by
    rw [List.drop_left,Int.toNat_natCast,List.take_left]
  have behind : (encodeLong s.length ++ (s ++ rest)).drop ((encodeLong s.length).length + (s.length : Int).toNat) = rest := by
    rw [← List.drop_drop,List.drop_left,Int.toNat_natCast,List.drop_left]
  rw [List.append_assoc]
  rcases either with rfl | rfl <;> simp only [decodeValue,read,if_neg room,value,behind]

theorem intRead {v : Int} (low : -2 ^ 63 ≤ v) (high : v < 2 ^ 63) {type : AvroType} (either : type = .int ∨ type = .long) (rest : Bytes) :
    decodeValue F type (encodeLong v ++ rest) = some (some (longText v),rest) := by
  rcases either with rfl | rfl <;> simp only [decodeValue,longRead low high,List.drop_left]

theorem valueRead (d : Datum) (rest : Bytes) : decodeValue F d.prim.type (d.encode ++ rest) = some (some (d.text F),rest) := by
  cases d with
  | bool b => cases b <;> rfl
  | int v => exact intRead F (by have := v.le_toInt; omega) (by have := v.toInt_lt; omega) (.inl rfl) rest
  | long v => exact intRead F v.le_toInt v.toInt_lt (.inr rfl) rest
  | float bits =>
    have value : leValue (leBytes 4 bits.toNat) = bits.toNat := leValueBytes bits.toNat_lt
    have four : (leBytes 4 bits.toNat).length = 4 := leBytesLength ..
    have long : ¬(leBytes 4 bits.toNat ++ rest).length < 4 := by simp
    simp only [Datum.prim,Prim.type,Datum.encode,decodeValue,if_neg long,List.take_left' four,List.drop_left' four,value,Datum.text]
  | double bits =>
    have value : leValue (leBytes 8 bits.toNat) = bits.toNat := leValueBytes bits.toNat_lt
    have eight : (leBytes 8 bits.toNat).length = 8 := leBytesLength ..
    have long : ¬(leBytes 8 bits.toNat ++ rest).length < 8 := by simp
    simp only [Datum.prim,Prim.type,Datum.encode,decodeValue,if_neg long,List.take_left' eight,List.drop_left' eight,value,Datum.text]
  | string s fits => exact stringRead F fits (.inl rfl) rest
  | bytes s fits => exact stringRead F fits (.inr rfl) rest

theorem longSome (v : Int) (rest : Bytes) : encodeLong v ++ rest ≠ [] :=
  List.append_ne_nil_of_left_ne_nil (List.ne_nil_of_length_pos (uvarintLong _)) _

theorem datumSome (d : Datum) (rest : Bytes) : d.encode ++ rest ≠ [] := by
  cases d with
  | bool b => simp [Datum.encode]
  | int v => exact longSome v.toInt rest
  | long v => exact longSome v.toInt rest
  | float bits => simp [Datum.encode,leBytes]
  | double bits => simp [Datum.encode,leBytes]
  | string s fits => simpa only [Datum.encode,List.append_assoc] using longSome s.length (s ++ rest)
  | bytes s fits => simpa only [Datum.encode,List.append_assoc] using longSome s.length (s ++ rest)

theorem primPlain (p : Prim) : p.type ≠ .unionNullT ∧ p.type ≠ .null := by cases p <;> simp [Prim.type]

theorem nullIdxFits (nullFirst : Bool) : -2 ^ 63 ≤ (nullIdx nullFirst : Int) ∧ (nullIdx nullFirst : Int) < 2 ^ 63 ∧
    asInt (nullIdx nullFirst) = nullIdx nullFirst := by
  cases nullFirst <;> decide

/-- A field behind the index of a union. -/
theorem unionRead {nullFirst : Bool} {p : Prim} {v : Int} (low : -2 ^ 63 ≤ v) (high : v < 2 ^ 63) (rest : Bytes) :
    decodeField F (Column.nullable nullFirst p).field (encodeLong v ++ rest) =
      if asInt v = nullIdx nullFirst then some (none,rest) else decodeValue F p.type rest := by
  rw [decodeField,if_neg fun h => longSome v rest h.1,longRead low high,List.drop_left]
  rfl

theorem innerRead (nullFirst : Bool) (p : Prim) (rest : Bytes) :
    decodeField F (Column.nullable nullFirst p).field (encodeLong (nullIdx !nullFirst) ++ rest) = decodeValue F p.type rest := by
  obtain ⟨low,high,_⟩ := nullIdxFits !nullFirst
  have other : ¬asInt (nullIdx !nullFirst) = nullIdx nullFirst := by cases nullFirst <;> decide
  rw [unionRead F low high,if_neg other]

theorem plainRead {p : Prim} {s : Bytes} (some_ : s ≠ []) : decodeField F (Column.plain p).field s = decodeValue F p.type s := by
  rw [decodeField,if_neg fun h => some_ h.1]
  exact if_neg (primPlain p).1

theorem cellRead (c : Cell) (rest : Bytes) : decodeField F c.column.field (c.encode ++ rest) = some (c.text F,rest) := by
  cases c with
  | null => simp [decodeField,Cell.column,Column.field,Cell.encode,decodeValue,Cell.text]
  | plain d => exact (plainRead F (datumSome d rest)).trans (valueRead F d rest)
  | absent nullFirst p =>
    obtain ⟨low,high,same⟩ := nullIdxFits nullFirst
    exact (unionRead F low high rest).trans (if_pos same)
  | present nullFirst d =>
    rw [Cell.column,Cell.encode,List.append_assoc,innerRead]
    exact valueRead F d rest

/-- The fields of a record in front of others. -/
theorem recordRead (r : List Cell) (fs : List AvroField) (rest : Bytes) :
    avroDecodeRecord F (fieldsOf r ++ fs) (encode r ++ rest) = (avroDecodeRecord F fs rest).map fun vs => r.map (Cell.text F) ++ vs := by
  induction r with
  | nil => simp [fieldsOf,encode]
  | cons c r ih =>
    have head := cellRead F c (encode r ++ rest)
    simp only [fieldsOf,encode,List.map_cons,List.flatMap_cons,List.cons_append,List.append_assoc,avroDecodeRecord] at ih head ⊢
    rw [head,Option.bind_some]
    dsimp only
    rw [ih,Option.map_map]
    rfl

/-! ### The values of a record -/

/-- The text is that of the value. -/
def Datum.Shows : Datum → Bytes → Prop
  | .bool b, t => t = if b then ascii "true" else ascii "false"
  | .int v, t => t = longText v.toInt
  | .long v, t => t = longText v.toInt
  | .float bits, t => F.readFloat t = bits.toNat
  | .double bits, t => F.readDouble t = bits.toNat
  | .string s _, t => t = s
  | .bytes s _, t => t = s

def Cell.Shows : Cell → Option Bytes → Prop
  | .plain d, some t => d.Shows F t
  | .present _ d, some t => d.Shows F t
  | .null, none => True
  | .absent _ _, none => True
  | _, _ => False

/-- No zero byte in a text; a floating-point number that reads back from its text. -/
def Datum.Exact : Datum → Prop
  | .float bits => F.readFloat (F.float bits.toNat) = bits.toNat
  | .double bits => F.readDouble (F.double bits.toNat) = bits.toNat
  | .string s _ => 0 ∉ s
  | .bytes s _ => 0 ∉ s
  | _ => True

def Cell.Exact : Cell → Prop
  | .plain d => d.Exact F
  | .present _ d => d.Exact F
  | _ => True

theorem cstrIs {s : Bytes} : cstr s = s ↔ 0 ∉ s :=
  ⟨fun same => by rw [← same]; exact fun h => by simpa using List.mem_takeWhile_imp h,cstrSelf⟩

theorem datumShows (d : Datum) : d.Shows F (d.text F) ↔ d.Exact F := by
  cases d with
  | string s fits => exact cstrIs
  | bytes s fits => exact cstrIs
  | float bits => exact Iff.rfl
  | double bits => exact Iff.rfl
  | _ => exact ⟨fun _ => trivial,fun _ => rfl⟩

theorem cellShows (c : Cell) : c.Shows F (c.text F) ↔ c.Exact F := by
  cases c with
  | plain d => exact datumShows F d
  | present nullFirst d => exact datumShows F d
  | _ => exact Iff.rfl

theorem recordShows (r : List Cell) :
    (∃ vs, avroDecodeRecord F (fieldsOf r) (encode r) = some vs ∧ List.Forall₂ (Cell.Shows F) r vs) ↔ ∀ c ∈ r, c.Exact F := by
  have read : avroDecodeRecord F (fieldsOf r) (encode r) = some (r.map (Cell.text F)) := by
    have := recordRead F r [] []
    simpa [avroDecodeRecord] using this
  simp only [read,Option.some.injEq,exists_eq_left',List.forall₂_map_right_iff,List.forall₂_same,cellShows]

end

end Napastak.Avro
