import Mathlib.Tactic.Ring
import Napastak.CStr

/-! The compact Thrift protocol as `parquet_connector.c` reads it: a buffer, a position in it that some steps move past its
end, and values that are skipped. -/
namespace Napastak.Thrift

structure TBuf where
  d : Bytes
  pos : Nat
  deriving DecidableEq

def TBuf.len (b : TBuf) : Nat := b.d.length

/-- The number in base 128 from a shift on, and the bytes it takes; what is shifted past 64 bits is lost. -/
def uvBytes : Bytes → Nat → Nat → Nat × Nat
  | [], _, r => (r,0)
  | c :: s, sh, r =>
    let r := r ||| ((c.toNat &&& 0x7F) <<< sh) % 2 ^ 64
    if c < 0x80 then (r,1) else ((uvBytes s (sh + 7) r).1,(uvBytes s (sh + 7) r).2 + 1)

def tcUv (b : TBuf) : Nat × TBuf :=
  let (r,k) := uvBytes (b.d.drop b.pos) 0 0
  (r,{b with pos := b.pos + k})

def tcI (b : TBuf) : Int × TBuf :=
  let (n,b) := tcUv b
  (if n % 2 = 0 then (n / 2 : Nat) else -((n / 2 : Nat) : Int) - 1,b)

/-- `(int)v`. -/
def asInt (v : Int) : Int := Int.bmod v (2 ^ 32)

def tctByte : Nat := 3
def tctBin : Nat := 8
def tctList : Nat := 9
def tctSet : Nat := 10
def tctMap : Nat := 11
def tctStruct : Nat := 12

/-- The header of a list: the type of its elements and their number. -/
def listHeader (b : TBuf) (h : UInt8) : Nat × Int × TBuf :=
  let b := {b with pos := b.pos + 1}
  let et := h.toNat % 16
  if h.toNat / 16 = 15 then
    let (cnt,b) := tcUv b
    (et,asInt cnt,b)
  else (et,(h.toNat / 16 : Nat),b)

/-- A field header; none at the stop byte and at the end of the buffer. -/
def tcNext (b : TBuf) (last : Int) : Option (Int × Nat) × TBuf :=
  match b.d[b.pos]? with
  | none => (none,b)
  | some fh =>
    let b := {b with pos := b.pos + 1}
    if fh = 0 then (none,b)
    else if fh.toNat / 16 ≠ 0 then (some (last + (fh.toNat / 16 : Nat),fh.toNat % 16),b)
    else
      let (v,b) := tcI b
      (some (asInt v,fh.toNat % 16),b)

/-- Why a run has no result: it had no fuel left, it read a byte outside the buffer, or it met a step that moves the position over
2^64. -/
inductive Halt where
  | fuel
  | outside
  | wraps
  deriving DecidableEq

/-- What `b->pos += l` does. -/
abbrev Move := TBuf → Nat → Except Halt TBuf

def wrap : Move := fun b l => .ok {b with pos := (b.pos + l) % 2 ^ 64}

/-- The steps that stay below 2^64. -/
def ahead : Move := fun b l => if b.pos + l < 2 ^ 64 then .ok {b with pos := b.pos + l} else .error .wraps

section
variable (move : Move)

mutual
/-- Every call and every round of a loop takes one from `n`. -/
def tcSkip : Nat → TBuf → Nat → Except Halt TBuf
  | 0, _, _ => .error .fuel
  | n + 1, b, t =>
    if t = tctByte then move b 1
    else if t = 4 ∨ t = 5 ∨ t = 6 then .ok (tcUv b).2
    else if t = 7 then move b 8 >>= fun e => .ok (if e.pos ≤ b.len then e else b)
    else if t = tctBin then move (tcUv b).2 (tcUv b).1
    else if t = tctList ∨ t = tctSet then tcSkipList n b
    else if t = tctMap then
      let r := tcUv b
      if r.1 = 0 then .ok r.2
      else
        match r.2.d[r.2.pos]? with
        | none => .error .outside
        | some types => tcSkipPairs n r.1 {r.2 with pos := r.2.pos + 1} (types.toNat / 16) (types.toNat % 16)
    else if t = tctStruct then tcSkipStruct n b
    else .ok b
  termination_by structural n => n
def tcSkipList : Nat → TBuf → Except Halt TBuf
  | 0, _ => .error .fuel
  | n + 1, b =>
    match b.d[b.pos]? with
    | none => .ok b
    | some h =>
      let r := listHeader b h
      tcSkipElems n r.2.1.toNat r.2.2 r.1
  termination_by structural n => n
def tcSkipElems : Nat → Nat → TBuf → Nat → Except Halt TBuf
  | 0, _, _, _ => .error .fuel
  | _ + 1, 0, b, _ => .ok b
  | n + 1, k + 1, b, et => if b.pos < b.len then tcSkip n b et >>= fun b => tcSkipElems n k b et else .ok b
  termination_by structural n => n
def tcSkipPairs : Nat → Nat → TBuf → Nat → Nat → Except Halt TBuf
  | 0, _, _, _, _ => .error .fuel
  | _ + 1, 0, b, _, _ => .ok b
  | n + 1, k + 1, b, kt, vt =>
    if b.pos < b.len then tcSkip n b kt >>= fun b => tcSkip n b vt >>= fun b => tcSkipPairs n k b kt vt else .ok b
  termination_by structural n => n
/-- The numbers of the fields do not matter here. -/
def tcSkipStruct : Nat → TBuf → Except Halt TBuf
  | 0, _ => .error .fuel
  | n + 1, b =>
    let r := tcNext b 0
    match r.1 with
    | none => .ok r.2
    | some f => tcSkip n r.2 f.2 >>= fun b => tcSkipStruct n b
  termination_by structural n => n
end

end

/-- The loop over the fields of a struct, by what it does with each. -/
def tcFields {α : Type} (field : Nat → Int → Nat → α → TBuf → Except Halt (α × TBuf)) : Nat → Int → α → TBuf → Except Halt (α × TBuf)
  | 0, _, _, _ => .error .fuel
  | n + 1, last, a, b =>
    let r := tcNext b last
    match r.1 with
    | none => .ok (a,r.2)
    | some f => field n f.1 f.2 a r.2 >>= fun e => tcFields field n f.1 e.1 e.2

/-! ### Numbers -/

/-- A number in base 128, least significant digits first, in no more than so many bytes. -/
def uvarintIn : Nat → Nat → Bytes
  | 0, _ => []
  | k + 1, n => if n < 128 then [UInt8.ofNat n] else UInt8.ofNat (n % 128 + 128) :: uvarintIn k (n / 128)

/-- Ten bytes are enough for 64 bits. -/
def uvarint (n : Nat) : Bytes := uvarintIn 10 n

def zigzag (v : Int) : Nat := if 0 ≤ v then 2 * v.toNat else 2 * (-v - 1).toNat + 1

theorem zigzagFits {v : Int} (low : -2 ^ 63 ≤ v) (high : v < 2 ^ 63) : zigzag v < 2 ^ 64 := by
  unfold zigzag
  split <;> omega

theorem digitAdded {r d sh : Nat} (below : r < 2 ^ sh) (fits : r + d * 2 ^ sh < 2 ^ 64) : r ||| (d <<< sh) % 2 ^ 64 = r + d * 2 ^ sh := by
  have whole : d <<< sh = d * 2 ^ sh := Nat.shiftLeft_eq d sh
  rw [Nat.mod_eq_of_lt (by omega),Nat.or_comm,← Nat.shiftLeft_add_eq_or_of_lt below,whole,Nat.add_comm]

theorem lowDigit {n : Nat} (byte : n < 256) : (UInt8.ofNat n).toNat &&& 0x7F = n % 128 := by
  rw [UInt8.toNat_ofNat_of_lt' (show n < UInt8.size from byte)]
  exact Nat.and_two_pow_sub_one_eq_mod n 7

theorem lastByte {n sh r : Nat} (small : n < 128) (below : r < 2 ^ sh) (fits : r + n * 2 ^ sh < 2 ^ 64) (rest : Bytes) :
    uvBytes (UInt8.ofNat n :: rest) sh r = (r + n * 2 ^ sh,1) := by
  have last : UInt8.ofNat n < 0x80 := by
    rw [UInt8.lt_iff_toNat_lt,UInt8.toNat_ofNat_of_lt' (show n < 256 by omega)]
    exact small
  have digit : (UInt8.ofNat n).toNat &&& 0x7F = n := by rw [lowDigit (by omega),Nat.mod_eq_of_lt small]
  rw [uvBytes,digit,if_pos last,digitAdded below fits]

theorem moreBytes {d sh r : Nat} (digit : d < 128) (below : r < 2 ^ sh) (fits : r + d * 2 ^ sh < 2 ^ 64) (rest : Bytes) :
    uvBytes (UInt8.ofNat (d + 128) :: rest) sh r =
      ((uvBytes rest (sh + 7) (r + d * 2 ^ sh)).1,(uvBytes rest (sh + 7) (r + d * 2 ^ sh)).2 + 1) := by
  have more : ¬UInt8.ofNat (d + 128) < 0x80 := by
    rw [UInt8.lt_iff_toNat_lt,UInt8.toNat_ofNat_of_lt' (show d + 128 < 256 by omega)]
    show ¬d + 128 < 128
    omega
  have low : (UInt8.ofNat (d + 128)).toNat &&& 0x7F = d := by rw [lowDigit (by omega)]; omega
  rw [uvBytes,low,if_neg more,digitAdded below fits]

theorem uvBytesIn {k n sh r : Nat} (digits : n < 128 ^ (k + 1)) (below : r < 2 ^ sh) (fits : r + n * 2 ^ sh < 2 ^ 64) (rest : Bytes) :
    uvBytes (uvarintIn (k + 1) n ++ rest) sh r = (r + n * 2 ^ sh,(uvarintIn (k + 1) n).length) := by
  induction k generalizing n sh r with
  | zero => rw [uvarintIn,if_pos (show n < 128 from digits)]; exact lastByte digits below fits rest
  | succ k ih =>
    rw [uvarintIn]
    by_cases small : n < 128
    · rw [if_pos small]
      exact lastByte small below fits rest
    · have shifted : 2 ^ (sh + 7) = 128 * 2 ^ sh := by rw [Nat.pow_add,Nat.mul_comm]
      have split : n * 2 ^ sh = n % 128 * 2 ^ sh + n / 128 * (128 * 2 ^ sh) := by
        conv_lhs => rw [← Nat.mod_add_div n 128]
        ring
      have digit : n % 128 * 2 ^ sh ≤ 127 * 2 ^ sh := Nat.mul_le_mul_right _ (by omega)
      have quot : n / 128 < 128 ^ (k + 1) := by
        rw [Nat.pow_succ] at digits
        exact Nat.div_lt_of_lt_mul (by rw [Nat.mul_comm]; exact digits)
      have high := @ih (n / 128) (sh + 7) (r + n % 128 * 2 ^ sh) quot (by omega) (by rw [shifted]; omega)
      rw [if_neg small,List.cons_append,moreBytes (Nat.mod_lt _ (by decide)) below (by omega),high,shifted]
      exact Prod.ext (by show _ = r + n * 2 ^ sh; omega) rfl

theorem uvBytesIs {n : Nat} (fits : n < 2 ^ 64) (rest : Bytes) : uvBytes (uvarint n ++ rest) 0 0 = (n,(uvarint n).length) := by
  have := @uvBytesIn 9 n 0 0 (by omega) (by decide) (by omega) rest
  simpa [uvarint] using this

theorem uvarintLong (n : Nat) : 0 < (uvarint n).length := by
  rw [uvarint,uvarintIn]
  split <;> simp

end Napastak.Thrift
