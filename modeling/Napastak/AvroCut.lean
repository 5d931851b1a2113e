import Napastak.Avro

/-! What `avro_decode_record` makes of a payload that is no encoding: one that is cut off, one with an index outside a union, one with
a varint that is too long. -/
namespace Napastak.Avro
open Codec Thrift

/-! ### Payloads that are cut off -/

/-- A part in front of a text that is not all of it. -/
def Cut (p whole : Bytes) : Prop := ∃ rest, rest ≠ [] ∧ p ++ rest = whole

theorem cutLess {p whole : Bytes} (cut : Cut p whole) : p.length < whole.length := by
  obtain ⟨rest,some_,rfl⟩ := cut
  have := List.length_pos_of_ne_nil some_
  rw [List.length_append]
  omega

/-- A cut inside the first of two texts, or inside the second. -/
theorem cutAppend {p a b : Bytes} (cut : Cut p (a ++ b)) : Cut p a ∨ ∃ q, p = a ++ q ∧ Cut q b := by
  obtain ⟨rest,some_,whole⟩ := cut
  rcases List.append_eq_append_iff.mp whole with ⟨u,first,second⟩ | ⟨u,first,second⟩
  · by_cases none : u = []
    · subst none
      exact .inr ⟨[],by rw [first,List.append_nil,List.append_nil],rest,some_,by rw [second]; rfl⟩
    · exact .inl ⟨u,none,first.symm⟩
  · exact .inr ⟨u,first,rest,some_,second.symm⟩

/-- What is left of a varint gives the digits that are left, and nothing is missed. -/
theorem cutGroups {k n sh r : Nat} {p : Bytes} (cut : Cut p (uvarintIn k n)) (below : r < 2 ^ sh) (fits : r + n * 2 ^ sh < 2 ^ 64) :
    uvBytes p sh r = (r + n % 128 ^ p.length * 2 ^ sh,p.length) := by
  induction k generalizing p n sh r with
  | zero =>
    have := cutLess cut
    simp [uvarintIn] at this
  | succ k ih =>
    obtain ⟨rest,some_,whole⟩ := cut
    cases p with
    | nil => simp [uvBytes,Nat.mod_one]
    | cons b p =>
      rw [uvarintIn] at whole
      split at whole
      · cases rest with
        | nil => exact absurd rfl some_
        | cons c rest =>
          have := congrArg List.length whole
          simp at this
      · rw [List.cons_append,List.cons.injEq] at whole
        obtain ⟨first,whole⟩ := whole
        have shifted : 2 ^ (sh + 7) = 128 * 2 ^ sh := by rw [Nat.pow_add,Nat.mul_comm]
        have split : n * 2 ^ sh = n % 128 * 2 ^ sh + n / 128 * (128 * 2 ^ sh) := by
          conv_lhs => rw [← Nat.mod_add_div n 128]
          ring
        have digit : n % 128 * 2 ^ sh ≤ 127 * 2 ^ sh := Nat.mul_le_mul_right _ (by omega)
        have high := @ih (n / 128) (sh + 7) (r + n % 128 * 2 ^ sh) p ⟨rest,some_,whole⟩ (by omega) (by rw [shifted]; omega)
        have digits : n % 128 ^ (p.length + 1) = n % 128 + 128 * (n / 128 % 128 ^ p.length) := by
          rw [Nat.pow_succ,Nat.mul_comm,Nat.mod_mul]
        rw [first,moreBytes (Nat.mod_lt _ (by decide)) below (by omega),high,List.length_cons,digits,shifted]
        exact Prod.ext (by show _ = _; ring) rfl

theorem longCut {v : Int} (low : -2 ^ 63 ≤ v) (high : v < 2 ^ 63) {p : Bytes} (cut : Cut p (encodeLong v)) :
    avroDecodeLong p = (unzigzag (zigzag v % 128 ^ p.length),p.length) := by
  have fits := zigzagFits low high
  have short : p.length ≤ 10 := (cutLess cut).le.trans (uvarintShort 10 _)
  have groups : decodeGroups 10 0 0 p = (zigzag v % 128 ^ p.length,p.length) := by
    rw [groupsAre,List.take_of_length_le short,cutGroups cut (by decide) (by omega)]
    simp
  rw [avroDecodeLong,groups]

/-- What is taken for a value though it is cut off: a number as far as it goes, and a length whose digits that are left are zero. -/
def Datum.Loose : Datum → Bytes → Prop
  | .int v, q => Cut q (encodeLong v.toInt)
  | .long v, q => Cut q (encodeLong v.toInt)
  | .string s _, q => Cut q (encodeLong s.length) ∧ 2 * s.length % 128 ^ q.length = 0
  | .bytes s _, q => Cut q (encodeLong s.length) ∧ 2 * s.length % 128 ^ q.length = 0
  | _, _ => False

/-- A field asks for a byte, which is the index where there is one. -/
def Cell.Loose : Cell → Bytes → Prop
  | .plain d, q => q ≠ [] ∧ d.Loose q
  | .present nullFirst d, q => ∃ rest, q = encodeLong (nullIdx !nullFirst) ++ rest ∧ d.Loose rest
  | _, _ => False

/-- The cut is in such a place and behind it are fields of type null only. -/
def LooseCut : List Cell → Bytes → Prop
  | [], _ => False
  | c :: r, p => (c.Loose p ∧ ∀ d ∈ r, d = Cell.null) ∨ ∃ q, p = c.encode ++ q ∧ LooseCut r q

section
variable (F : FloatText) {q : Bytes}

theorem datumLess {d : Datum} (loose : d.Loose q) : q.length < d.encode.length := by
  cases d with
  | int v => exact cutLess loose
  | long v => exact cutLess loose
  | string s fits =>
    have := cutLess loose.1
    rw [Datum.encode,List.length_append]
    omega
  | bytes s fits =>
    have := cutLess loose.1
    rw [Datum.encode,List.length_append]
    omega
  | _ => exact absurd loose not_false

theorem cellLess {c : Cell} (loose : c.Loose q) : q.length < c.encode.length := by
  cases c with
  | plain d => exact datumLess loose.2
  | present nullFirst d =>
    obtain ⟨rest,rfl,loose⟩ := loose
    have := datumLess loose
    rw [Cell.encode,List.length_append,List.length_append]
    omega
  | _ => exact absurd loose not_false

theorem lengthCut {s : Bytes} (fits : s.length < 2 ^ 63) {type : AvroType} (either : type = .string ∨ type = .bytes)
    (cut : Cut q (encodeLong s.length ++ s)) :
    decodeValue F type q = none ∧ ¬(Cut q (encodeLong s.length) ∧ 2 * s.length % 128 ^ q.length = 0) ∨
    (∃ t, decodeValue F type q = some (some t,[])) ∧ Cut q (encodeLong s.length) ∧ 2 * s.length % 128 ^ q.length = 0 := by
  have value : decodeValue F type q =
      if (avroDecodeLong q).1 < 0 ∨ q.length < (avroDecodeLong q).2 + (avroDecodeLong q).1.toNat then none
      else some (some (Store.cstr ((q.drop (avroDecodeLong q).2).take (avroDecodeLong q).1.toNat)),
        q.drop ((avroDecodeLong q).2 + (avroDecodeLong q).1.toNat)) := by rcases either with rfl | rfl <;> rfl
  rcases cutAppend cut with cut | ⟨u,rfl,inner⟩
  · have read := longCut (v := s.length) (by omega) (by omega) cut
    have double : zigzag s.length = 2 * s.length := by simp [zigzag]
    rw [double] at read
    have even : 2 * s.length % 128 ^ q.length % 2 = 0 := by
      cases q.length with
      | zero => simp [Nat.mod_one]
      | succ j => rw [Nat.mod_mod_of_dvd _ (dvd_pow (by decide) (Nat.succ_ne_zero j))]; omega
    have number : unzigzag (2 * s.length % 128 ^ q.length) = (2 * s.length % 128 ^ q.length / 2 : Nat) := if_pos even
    rw [number] at read
    by_cases zero : 2 * s.length % 128 ^ q.length = 0
    · refine .inr ⟨?_,cut,zero⟩
      rw [value,read,zero]
      exact ⟨[],(if_neg (by simp)).trans (by simp [Store.cstr])⟩
    · refine .inl ⟨?_,fun h => zero h.2⟩
      rw [value,read]
      exact if_pos (.inr (by dsimp only; omega))
  · have less := cutLess inner
    have read := longRead (v := s.length) (by omega) (by omega) u
    refine .inl ⟨?_,fun h => ?_⟩
    · have room : (encodeLong s.length ++ u).length < (encodeLong s.length).length + (s.length : Int).toNat := by
        rw [List.length_append]
        omega
      rw [value,read]
      exact if_pos (.inr room)
    · have := cutLess h.1
      rw [List.length_append] at this
      omega

theorem longCutRead {v : Int} (low : -2 ^ 63 ≤ v) (high : v < 2 ^ 63) {type : AvroType} (either : type = .int ∨ type = .long)
    (cut : Cut q (encodeLong v)) : ∃ t, decodeValue F type q = some (some t,[]) := by
  have read := longCut low high cut
  rcases either with rfl | rfl <;> exact ⟨_,by simp only [decodeValue,read,List.drop_length]; rfl⟩

/-- A datum that is cut off is refused, or it is one of those and nothing is left. -/
theorem datumCut (d : Datum) (cut : Cut q d.encode) :
    decodeValue F d.prim.type q = none ∧ ¬d.Loose q ∨ (∃ t, decodeValue F d.prim.type q = some (some t,[])) ∧ d.Loose q := by
  have less := cutLess cut
  cases d with
  | bool b =>
    have none : q = [] := List.length_eq_zero_iff.mp (by simpa [Datum.encode] using less)
    subst none
    exact .inl ⟨rfl,not_false⟩
  | int v => exact .inr ⟨longCutRead F (by have := v.le_toInt; omega) (by have := v.toInt_lt; omega) (.inl rfl) cut,cut⟩
  | long v => exact .inr ⟨longCutRead F v.le_toInt v.toInt_lt (.inr rfl) cut,cut⟩
  | float bits =>
    rw [Datum.encode,leBytesLength] at less
    exact .inl ⟨if_pos less,not_false⟩
  | double bits =>
    rw [Datum.encode,leBytesLength] at less
    exact .inl ⟨if_pos less,not_false⟩
  | string s fits => exact lengthCut F fits (.inl rfl) cut
  | bytes s fits => exact lengthCut F fits (.inr rfl) cut

theorem indexByte (nullFirst : Bool) : ∃ b, encodeLong (nullIdx nullFirst) = [b] := by cases nullFirst <;> exact ⟨_,rfl⟩

theorem fieldEmpty {column : Column} (other : column ≠ .null) : decodeField F column.field [] = none := by
  refine if_pos ⟨rfl,?_⟩
  cases column with
  | null => exact absurd rfl other
  | plain p => exact (primPlain p).2
  | nullable nullFirst p => simp [Column.field]

theorem cellCut (c : Cell) (cut : Cut q c.encode) :
    decodeField F c.column.field q = none ∧ ¬c.Loose q ∨ (∃ t, decodeField F c.column.field q = some (t,[])) ∧ c.Loose q := by
  have less := cutLess cut
  cases c with
  | null => simp [Cell.encode] at less
  | plain d =>
    by_cases none : q = []
    · subst none
      exact .inl ⟨fieldEmpty F (by simp [Cell.column]),fun h => h.1 rfl⟩
    · rw [Cell.column,plainRead F none]
      rcases datumCut F d cut with ⟨fails,not⟩ | ⟨⟨t,read⟩,loose⟩
      · exact .inl ⟨fails,fun h => not h.2⟩
      · exact .inr ⟨⟨_,read⟩,none,loose⟩
  | absent nullFirst p =>
    obtain ⟨b,one⟩ := indexByte nullFirst
    have none : q = [] := List.length_eq_zero_iff.mp (by simpa [Cell.encode,one] using less)
    subst none
    exact .inl ⟨fieldEmpty F (by simp [Cell.column]),not_false⟩
  | present nullFirst d =>
    obtain ⟨b,one⟩ := indexByte !nullFirst
    rcases cutAppend cut with cut | ⟨u,rfl,inner⟩
    · have none : q = [] := List.length_eq_zero_iff.mp (by simpa [one] using cutLess cut)
      subst none
      refine .inl ⟨fieldEmpty F (by simp [Cell.column]),?_⟩
      rintro ⟨rest,whole,_⟩
      rw [one] at whole
      cases whole
    · rw [Cell.column,innerRead]
      rcases datumCut F d inner with ⟨fails,not⟩ | ⟨⟨t,read⟩,loose⟩
      · exact .inl ⟨fails,by rintro ⟨rest,same,loose⟩; exact not (List.append_cancel_left same ▸ loose)⟩
      · exact .inr ⟨⟨_,read⟩,u,rfl,loose⟩

theorem fieldsCons (c : Cell) (r : List Cell) : fieldsOf (c :: r) = c.column.field :: fieldsOf r := rfl

/-- Without bytes only fields of type null are read. -/
theorem emptyRead (r : List Cell) : avroDecodeRecord F (fieldsOf r) [] = none ↔ ¬∀ d ∈ r, d = Cell.null := by
  induction r with
  | nil => simp [fieldsOf,avroDecodeRecord]
  | cons c r ih =>
    rw [fieldsCons,avroDecodeRecord,List.forall_mem_cons]
    by_cases null : c = .null
    · subst null
      have read : decodeField F Cell.null.column.field [] = some (none,[]) := cellRead F .null []
      rw [read,Option.bind_some]
      simpa using ih
    · have other : c.column ≠ .null := by cases c <;> simp_all [Cell.column]
      rw [fieldEmpty F other]
      simp [null]

theorem recordCut {r : List Cell} {p : Bytes} (cut : Cut p (encode r)) : avroDecodeRecord F (fieldsOf r) p = none ↔ ¬LooseCut r p := by
  induction r generalizing p with
  | nil =>
    have := cutLess cut
    simp [encode] at this
  | cons c r ih =>
    rw [encode,List.flatMap_cons] at cut
    rw [fieldsCons,avroDecodeRecord,LooseCut]
    rcases cutAppend cut with cut | ⟨q,rfl,inner⟩
    · have later : ¬∃ q, p = c.encode ++ q ∧ LooseCut r q := by
        rintro ⟨q,rfl,_⟩
        have := cutLess cut
        rw [List.length_append] at this
        omega
      rcases cellCut F c cut with ⟨fails,not⟩ | ⟨⟨t,read⟩,loose⟩
      · simp [fails,not,later]
      · rw [read,Option.bind_some]
        simpa [loose,later] using emptyRead F r
    · have here : ¬c.Loose (c.encode ++ q) := fun loose => by
        have := cellLess loose
        rw [List.length_append] at this
        omega
      have same : (∃ u, c.encode ++ q = c.encode ++ u ∧ LooseCut r u) ↔ LooseCut r q :=
        ⟨by rintro ⟨u,equal,loose⟩; exact List.append_cancel_left equal ▸ loose,fun loose => ⟨q,rfl,loose⟩⟩
      rw [cellRead,Option.bind_some,same]
      simpa [here] using ih inner

end

/-! ### Payloads that are no encoding -/

def Prim.some_ : Prim → Datum
  | .bool => .bool false
  | .int => .int 0
  | .long => .long 0
  | .float => .float 0
  | .double => .double 0
  | .string => .string [] (by decide)
  | .bytes => .bytes [] (by decide)

def Column.some_ : Column → Cell
  | .null => .null
  | .plain p => .plain p.some_
  | .nullable nullFirst p => .absent nullFirst p

/-- How many bytes a varint of the type has at most. -/
def Prim.limit : Prim → Option Nat
  | .int => some 5
  | .long | .string | .bytes => some 10
  | _ => none

/-- Where a varint stands in a field. -/
inductive Place
  | value (p : Prim)
  | index (nullFirst : Bool) (p : Prim)
  | inner (nullFirst : Bool) (p : Prim)

def Place.column : Place → Column
  | .value p => .plain p
  | .index nullFirst p => .nullable nullFirst p
  | .inner nullFirst p => .nullable nullFirst p

/-- What stands before it in the field. -/
def Place.before : Place → Bytes
  | .inner nullFirst _ => encodeLong (nullIdx !nullFirst)
  | _ => []

def Place.limit : Place → Option Nat
  | .value p => p.limit
  | .index _ _ => some 10
  | .inner _ p => p.limit

/-- It is the length of a text. -/
def Place.isLength : Place → Prop
  | .value p => p = .string ∨ p = .bytes
  | .index _ _ => False
  | .inner _ p => p = .string ∨ p = .bytes

/-- The first bytes of a varint that goes on behind them. -/
def GoesOn (bs : Bytes) : Prop := ∀ b ∈ bs, ¬b < 0x80

def OddStart (bs : Bytes) : Prop := (bs.headD 0).toNat % 2 = 1

section
variable (F : FloatText) {bs : Bytes}

theorem someColumn (c : Column) : c.some_.column = c := by
  cases c with
  | null => rfl
  | plain p => cases p <;> rfl
  | nullable nullFirst p => rfl

theorem somePrim (p : Prim) : p.some_.prim = p := by cases p <;> rfl

/-- There is a payload for any fields. -/
theorem restRead (post : List Column) : avroDecodeRecord F (post.map Column.field) (encode (post.map Column.some_)) ≠ none := by
  have fields : fieldsOf (post.map Column.some_) = post.map Column.field := by
    rw [fieldsOf,List.map_map]
    exact List.map_congr_left fun c _ => congrArg Column.field (someColumn c)
  have read := recordRead F (post.map Column.some_) [] []
  rw [List.append_nil,List.append_nil,fields] at read
  rw [read]
  simp [avroDecodeRecord]

/-- A field that can be read with the rest of the payload chosen for it does not stop the record. -/
theorem fieldGoes {field : AvroField} {front : Bytes} (goes : ∀ tail, ∃ fill v, decodeField F field (front ++ (fill ++ tail)) = some (v,tail))
    (pre : List Cell) (post : List Column) :
    ¬∀ rest, avroDecodeRecord F (fieldsOf pre ++ field :: post.map Column.field) (encode pre ++ (front ++ rest)) = none := by
  intro fails
  obtain ⟨fill,v,read⟩ := goes (encode (post.map Column.some_))
  have none := fails (fill ++ encode (post.map Column.some_))
  rw [recordRead,avroDecodeRecord,read,Option.bind_some,Option.map_eq_none_iff,Option.map_eq_none_iff] at none
  exact restRead F post none

theorem fieldStops {field : AvroField} {front : Bytes} (stops : ∀ rest, decodeField F field (front ++ rest) = none) (pre : List Cell)
    (post : List Column) (rest : Bytes) :
    avroDecodeRecord F (fieldsOf pre ++ field :: post.map Column.field) (encode pre ++ (front ++ rest)) = none := by
  rw [recordRead,avroDecodeRecord,stops]
  rfl

/-- Behind an index the field goes on as null or as the other branch. -/
theorem unionGoes (nullFirst : Bool) (p : Prim) {front : Bytes} {v : Int} (some_ : front ≠ [])
    (index : ∀ tail, avroDecodeLong (front ++ tail) = (v,front.length)) (tail : Bytes) :
    ∃ fill w, decodeField F (Column.nullable nullFirst p).field (front ++ (fill ++ tail)) = some (w,tail) := by
  have field (s : Bytes) : decodeField F (Column.nullable nullFirst p).field (front ++ s) =
      if asInt v = nullIdx nullFirst then some (none,s) else decodeValue F p.type s := by
    rw [decodeField,if_neg (fun h => List.append_ne_nil_of_left_ne_nil some_ _ h.1),index,List.drop_left]
    rfl
  by_cases null : asInt v = nullIdx nullFirst
  · exact ⟨[],none,by rw [field,if_pos null]; rfl⟩
  · have read := valueRead F p.some_ tail
    rw [somePrim] at read
    exact ⟨p.some_.encode,_,by rw [field,if_neg null,read]⟩

/-- An index outside a union is taken for null or for the other branch, never for an error. -/
theorem indexTaken (pre : List Cell) (nullFirst : Bool) (p : Prim) (post : List Column) (k : Int64) :
    ¬∀ rest, avroDecodeRecord F (fieldsOf pre ++ (Column.nullable nullFirst p).field :: post.map Column.field)
      (encode pre ++ (encodeLong k.toInt ++ rest)) = none :=
  fieldGoes F (unionGoes F nullFirst p (by simpa using longSome k.toInt []) fun tail => longRead k.le_toInt k.toInt_lt tail) pre post

/-! A varint that is too long. -/

theorem goesCount (on_ : GoesOn bs) (sh r : Nat) (s : Bytes) :
    (uvBytes (bs ++ s) sh r).2 = bs.length + (uvBytes s (sh + 7 * bs.length) (uvBytes bs sh r).1).2 := by
  induction bs generalizing sh r with
  | nil => simp [uvBytes]
  | cons b bs ih =>
    have more : ¬b < 0x80 := on_ b List.mem_cons_self
    rw [List.cons_append,uvBytes,if_neg more,uvBytes,if_neg more,ih fun c hc => on_ c (List.mem_cons_of_mem _ hc),List.length_cons,
      show sh + 7 + 7 * bs.length = sh + 7 * (bs.length + 1) by ring]
    dsimp only
    omega

theorem groupsBound {r : Nat} (below : r < 2 ^ 64) (s : Bytes) (sh : Nat) : (uvBytes s sh r).1 < 2 ^ 64 := by
  induction s generalizing sh r with
  | nil => exact below
  | cons b s ih =>
    have next := Nat.or_lt_two_pow below (Nat.mod_lt ((b.toNat &&& 0x7F) <<< sh) (Nat.two_pow_pos 64))
    rw [uvBytes]
    split
    · exact next
    · exact ih next (sh + 7)

/-- Later bytes do not touch the lowest bit. -/
theorem groupsParity (s : Bytes) (sh r : Nat) : (uvBytes s (sh + 1) r).1 % 2 = r % 2 := by
  induction s generalizing sh r with
  | nil => rfl
  | cons b s ih =>
    have shifted : (((b.toNat &&& 0x7F) <<< (sh + 1)) % 2 ^ 64) % 2 = 0 := by
      rw [Nat.mod_mod_of_dvd _ (by decide),Nat.shiftLeft_succ,Nat.mul_mod_right]
    have next : (r ||| ((b.toNat &&& 0x7F) <<< (sh + 1)) % 2 ^ 64) % 2 = r % 2 := by
      have bit := Nat.or_mod_two_pow (a := r) (b := ((b.toNat &&& 0x7F) <<< (sh + 1)) % 2 ^ 64) (n := 1)
      rwa [Nat.pow_one,shifted,Nat.or_zero] at bit
    rw [uvBytes]
    split
    · exact next
    · exact (ih (sh + 7) _).trans next

theorem goesTen (on_ : GoesOn bs) (ten : bs.length = 10) (s : Bytes) :
    avroDecodeLong (bs ++ s) = (unzigzag (uvBytes bs 0 0).1,10) ∧ ((uvBytes bs 0 0).1 % 2 = 1 ↔ OddStart bs) := by
  constructor
  · have count := goesCount on_ 0 0 []
    rw [List.append_nil,ten] at count
    rw [avroDecodeLong,groupsAre,List.take_left' ten,count]
    rfl
  · cases bs with
    | nil => cases ten
    | cons b bs =>
      have more : ¬b < 0x80 := on_ b List.mem_cons_self
      have low : (b.toNat &&& 0x7F) % 2 ^ 64 % 2 = b.toNat % 2 := by
        rw [show 0x7F = 2 ^ 7 - 1 from rfl,Nat.and_two_pow_sub_one_eq_mod]
        omega
      rw [uvBytes,if_neg more,groupsParity bs 6,Nat.shiftLeft_zero,Nat.zero_or,low]
      rfl

theorem goesFive (on_ : GoesOn bs) (five : bs.length = 5) (s : Bytes) : (avroDecodeLong (bs ++ 0 :: s)).2 = 6 := by
  have front : (bs ++ 0 :: s).take 10 = bs ++ 0 :: s.take 4 := by rw [List.take_append,five,List.take_of_length_le (by omega)]; rfl
  rw [avroDecodeLong,groupsAre,front,goesCount on_,five]
  rfl

theorem lengthValue {type : AvroType} (either : type = .string ∨ type = .bytes) (s : Bytes) : decodeValue F type s =
    if (avroDecodeLong s).1 < 0 ∨ s.length < (avroDecodeLong s).2 + (avroDecodeLong s).1.toNat then none
    else some (some (Store.cstr ((s.drop (avroDecodeLong s).2).take (avroDecodeLong s).1.toNat)),
      s.drop ((avroDecodeLong s).2 + (avroDecodeLong s).1.toNat)) := by
  rcases either with rfl | rfl <;> rfl

theorem lengthGoes {type : AvroType} (either : type = .string ∨ type = .bytes) (on_ : GoesOn bs) (ten : bs.length = 10) (even : ¬OddStart bs)
    (tail : Bytes) : ∃ fill v, decodeValue F type (bs ++ (fill ++ tail)) = some (v,tail) := by
  obtain ⟨_,parity⟩ := goesTen on_ ten []
  have number : unzigzag (uvBytes bs 0 0).1 = ((uvBytes bs 0 0).1 / 2 : Nat) := if_pos (by have := mt parity.mp even; omega)
  refine ⟨List.replicate ((uvBytes bs 0 0).1 / 2) 0,?_⟩
  have read := (goesTen on_ ten (List.replicate ((uvBytes bs 0 0).1 / 2) 0 ++ tail)).1
  have behind : (bs ++ (List.replicate ((uvBytes bs 0 0).1 / 2) 0 ++ tail)).drop (10 + (uvBytes bs 0 0).1 / 2) = tail := by
    rw [← List.drop_drop,List.drop_left' ten,List.drop_left' (List.length_replicate ..)]
  rw [lengthValue F either,read,number,Int.toNat_natCast,behind]
  refine ⟨_,if_neg ?_⟩
  simp only [List.length_append,ten,List.length_replicate]
  omega

theorem lengthStops {type : AvroType} (either : type = .string ∨ type = .bytes) (on_ : GoesOn bs) (ten : bs.length = 10) (odd : OddStart bs)
    (rest : Bytes) : decodeValue F type (bs ++ rest) = none := by
  obtain ⟨read,parity⟩ := goesTen on_ ten rest
  have one := parity.mpr odd
  have number : unzigzag (uvBytes bs 0 0).1 = -(((uvBytes bs 0 0).1 / 2 : Nat) : Int) - 1 := if_neg (by omega)
  rw [lengthValue F either,read,number]
  exact if_pos (.inl (by dsimp only; omega))

theorem valueGoes (p : Prim) (limit : p.limit = some bs.length) (on_ : GoesOn bs) (even : ¬((p = .string ∨ p = .bytes) ∧ OddStart bs))
    (tail : Bytes) : ∃ fill v, decodeValue F p.type (bs ++ (fill ++ tail)) = some (v,tail) := by
  cases p with
  | int =>
    have five : bs.length = 5 := (Option.some.inj limit).symm
    have behind : (bs ++ 0 :: tail).drop 6 = tail := by rw [show 6 = 5 + 1 from rfl,← List.drop_drop,List.drop_left' five]; rfl
    refine ⟨[0],some (longText (avroDecodeLong (bs ++ 0 :: tail)).1),?_⟩
    show some (some _,(bs ++ 0 :: tail).drop (avroDecodeLong (bs ++ 0 :: tail)).2) = _
    rw [goesFive on_ five,behind]
    rfl
  | long =>
    have ten : bs.length = 10 := (Option.some.inj limit).symm
    refine ⟨[],some (longText (unzigzag (uvBytes bs 0 0).1)),?_⟩
    show some (some (longText (avroDecodeLong (bs ++ tail)).1),(bs ++ tail).drop (avroDecodeLong (bs ++ tail)).2) = _
    rw [(goesTen on_ ten tail).1,List.drop_left' ten]
  | string => exact lengthGoes F (.inl rfl) on_ (Option.some.inj limit).symm (fun odd => even ⟨.inl rfl,odd⟩) tail
  | bytes => exact lengthGoes F (.inr rfl) on_ (Option.some.inj limit).symm (fun odd => even ⟨.inr rfl,odd⟩) tail
  | _ => cases limit

theorem valueStops (p : Prim) (limit : p.limit = some bs.length) (on_ : GoesOn bs) (odd : (p = .string ∨ p = .bytes) ∧ OddStart bs)
    (rest : Bytes) : decodeValue F p.type (bs ++ rest) = none := by
  rcases odd with ⟨rfl | rfl,odd⟩
  · exact lengthStops F (.inl rfl) on_ (Option.some.inj limit).symm odd rest
  · exact lengthStops F (.inr rfl) on_ (Option.some.inj limit).symm odd rest

theorem limitSome {p : Prim} (limit : p.limit = some bs.length) : bs ≠ [] := by
  rintro rfl
  cases p <;> simp [Prim.limit] at limit

theorem placeGoes (w : Place) (limit : w.limit = some bs.length) (on_ : GoesOn bs) (even : ¬(w.isLength ∧ OddStart bs)) (tail : Bytes) :
    ∃ fill v, decodeField F w.column.field (w.before ++ bs ++ (fill ++ tail)) = some (v,tail) := by
  cases w with
  | value p =>
    obtain ⟨fill,v,read⟩ := valueGoes F p limit on_ even tail
    exact ⟨fill,v,(plainRead F (List.append_ne_nil_of_left_ne_nil (limitSome limit) _)).trans read⟩
  | index nullFirst p =>
    have ten : bs.length = 10 := (Option.some.inj limit).symm
    have some_ : bs ≠ [] := List.ne_nil_of_length_pos (by omega)
    exact unionGoes F nullFirst p some_ (fun tail => by rw [(goesTen on_ ten tail).1,ten]) tail
  | inner nullFirst p =>
    obtain ⟨fill,v,read⟩ := valueGoes F p limit on_ even tail
    refine ⟨fill,v,?_⟩
    rw [Place.before,Place.column,List.append_assoc,innerRead,read]

theorem placeStops (w : Place) (limit : w.limit = some bs.length) (on_ : GoesOn bs) (odd : w.isLength ∧ OddStart bs) (rest : Bytes) :
    decodeField F w.column.field (w.before ++ bs ++ rest) = none := by
  cases w with
  | value p => exact (plainRead F (List.append_ne_nil_of_left_ne_nil (limitSome limit) _)).trans (valueStops F p limit on_ odd rest)
  | index nullFirst p => exact absurd odd.1 not_false
  | inner nullFirst p => rw [Place.before,Place.column,List.append_assoc,innerRead,valueStops F p limit on_ odd]

/-- A varint that is too long is taken but for a length with the lowest bit of a negative number. -/
theorem longTaken (pre : List Cell) (w : Place) (post : List Column) (limit : w.limit = some bs.length) (on_ : GoesOn bs) :
    (∀ rest, avroDecodeRecord F (fieldsOf pre ++ w.column.field :: post.map Column.field) (encode pre ++ (w.before ++ bs ++ rest)) = none) ↔
      w.isLength ∧ OddStart bs := by
  constructor
  · intro fails
    by_contra even
    exact fieldGoes F (placeGoes F w limit on_ even) pre post fails
  · exact fun odd => fieldStops F (placeStops F w limit on_ odd) pre post

end

/-! ### The decoder against the format -/

theorem avroIff (F : FloatText) :
    (∀ r, (∃ vs, avroDecodeRecord F (fieldsOf r) (encode r) = some vs ∧ List.Forall₂ (Cell.Shows F) r vs) ↔ ∀ c ∈ r, c.Exact F) ∧
    (∀ r p, Cut p (encode r) → (avroDecodeRecord F (fieldsOf r) p = none ↔ ¬LooseCut r p)) ∧
    (∀ (pre : List Cell) (nullFirst : Bool) (p : Prim) (post : List Column) (k : Int64), k ≠ 0 → k ≠ 1 →
      ¬∀ rest, avroDecodeRecord F (fieldsOf pre ++ (Column.nullable nullFirst p).field :: post.map Column.field)
        (encode pre ++ (encodeLong k.toInt ++ rest)) = none) ∧
    ∀ (pre : List Cell) (w : Place) (post : List Column) (bs : Bytes), w.limit = some bs.length → GoesOn bs →
      ((∀ rest, avroDecodeRecord F (fieldsOf pre ++ w.column.field :: post.map Column.field)
        (encode pre ++ (w.before ++ bs ++ rest)) = none) ↔ w.isLength ∧ OddStart bs) :=
  ⟨recordShows F,fun _ _ => recordCut F,fun pre nullFirst p post k _ _ => indexTaken F pre nullFirst p post k,
   fun pre w post _ => longTaken F pre w post⟩

def noText : FloatText := ⟨fun _ => [],fun _ => [],fun _ => 0,fun _ => 0⟩

theorem avroSome :
    (avroDecodeRecord noText (fieldsOf [.plain (.long 64)]) [0x80] = none ↔ ¬LooseCut [.plain (.long 64)] [0x80]) ∧
    (¬∀ rest, avroDecodeRecord noText (fieldsOf [] ++ (Column.nullable true .string).field :: List.map Column.field [])
        (encode [] ++ (encodeLong (Int64.toInt 5) ++ rest)) = none) ∧
    ((∀ rest, avroDecodeRecord noText (fieldsOf [] ++ (Place.value .int).column.field :: List.map Column.field [])
        (encode [] ++ ((Place.value .int).before ++ [0xFF,0xFF,0xFF,0xFF,0xFF] ++ rest)) = none) ↔
      (Place.value .int).isLength ∧ OddStart [0xFF,0xFF,0xFF,0xFF,0xFF]) :=
  ⟨(avroIff noText).2.1 [.plain (.long 64)] [0x80] ⟨[0x01],by decide,rfl⟩,
   (avroIff noText).2.2.1 [] true .string [] 5 (by decide) (by decide),
   (avroIff noText).2.2.2 [] (.value .int) [] [0xFF,0xFF,0xFF,0xFF,0xFF] rfl (by simp [GoesOn])⟩

/-- The number 64 without its second byte reads as zero. -/
theorem avroFails :
    Cut [0x80] (encode [.plain (.long 64)]) ∧ avroDecodeRecord noText (fieldsOf [.plain (.long 64)]) [0x80] = some [some (ascii "0")] :=
  ⟨⟨[0x01],by decide,rfl⟩,rfl⟩

end Napastak.Avro
