import Napastak.CStr

/-! `base64url_encode` and `base64url_decode` of `auth.c`. The encoder leaves out the last character of a whole last
group, and the decoder's table is that of standard base64. -/
namespace Napastak.Auth

def b64 : Bytes := ascii "ABCDEFGHIJKLMNOPQRSTUVWXYZabcdefghijklmnopqrstuvwxyz0123456789-_"

def sextet (a b c : UInt8) (shift : Nat) : Nat := (a.toNat <<< 16 ||| b.toNat <<< 8 ||| c.toNat) >>> shift &&& 63

def b64Char (s : Nat) : UInt8 := b64.getD s 0

def firstThree (a b c : UInt8) : Bytes := [b64Char (sextet a b c 18),b64Char (sextet a b c 12),b64Char (sextet a b c 6)]

/-- `j` characters are written. The test for the third character always holds, that for the fourth only where
bytes are left behind the group. -/
def base64urlEncodeGo (outLen : Nat) : Nat → Bytes → Option Bytes
  | _, [] => some []
  | j, [a] => if outLen < j + 4 then none else some (firstThree a 0 0)
  | j, [a,b] => if outLen < j + 4 then none else some (firstThree a b 0)
  | j, [a,b,c] => if outLen < j + 4 then none else some (firstThree a b c)
  | j, a :: b :: c :: d :: data =>
    if outLen < j + 4 then none
    else (base64urlEncodeGo outLen (j + 4) (d :: data)).map (firstThree a b c ++ b64Char (sextet a b c 0) :: ·)

def base64urlEncode (data : Bytes) (outLen : Nat) : Option Bytes := base64urlEncodeGo outLen 0 data

/-- `b64d`; the entries that are not listed are 0. -/
def b64dTable : List Nat := [
  0,0,0,0,0,0,0,0,0,0,0,0,0,0,0,0,0,0,0,0,0,0,0,0,0,0,0,0,0,0,0,0,
  0,0,0,0,0,0,0,0,0,0,0,62,0,0,0,63,52,53,54,55,56,57,58,59,60,61,0,0,0,0,0,0,
  0,0,1,2,3,4,5,6,7,8,9,10,11,12,13,14,15,16,17,18,19,20,21,22,23,24,25,0,0,0,0,0,
  0,26,27,28,29,30,31,32,33,34,35,36,37,38,39,40,41,42,43,44,45,46,47,48,49,50,51,0,0,0,0,0]

def b64d (c : UInt8) : Nat := b64dTable.getD c.toNat 0

/-- The bytes of four sextets. -/
def decodeGroup (a b c d : Nat) : Bytes :=
  let triple := a <<< 18 ||| b <<< 12 ||| c <<< 6 ||| d
  [UInt8.ofNat (triple >>> 16 &&& 255),UInt8.ofNat (triple >>> 8 &&& 255),UInt8.ofNat (triple &&& 255)]

/-- A short last group reads on behind the text, where its terminator and `past` are. -/
def decodeGo (past : Bytes) : Bytes → Bytes
  | [] => []
  | [x] => decodeGroup (b64d x) 0 (b64d (past.getD 0 0)) (b64d (past.getD 1 0))
  | [x,y] => decodeGroup (b64d x) (b64d y) 0 (b64d (past.getD 0 0))
  | [x,y,z] => decodeGroup (b64d x) (b64d y) (b64d z) 0
  | x :: y :: z :: w :: s => decodeGroup (b64d x) (b64d y) (b64d z) (b64d w) ++ decodeGo past s

def base64urlDecode (s past : Bytes) (outLen : Nat) : Bytes := (decodeGo past s).take outLen

/-! ### One group -/

/-- What the table makes of a character's sextet. -/
def seen (s : Nat) : Nat := if s < 62 then s else 0

theorem seenLess (s : Nat) : seen s < 62 := by
  rw [seen]
  split
  · assumption
  · decide

theorem charFacts : ∀ s < 64, b64d (b64Char s) = seen s ∧ ((b64Char s = 45 ∨ b64Char s = 95) ↔ 62 ≤ s) ∧
    b64Char s ≠ 0 ∧ b64Char s ≠ 46 := by decide +kernel

theorem tableSees (s : Nat) (less : s < 64) : b64d (b64Char s) = seen s := (charFacts s less).1

theorem charDash (s : Nat) (less : s < 64) : (b64Char s = 45 ∨ b64Char s = 95) ↔ 62 ≤ s := (charFacts s less).2.1

theorem charPlain (s : Nat) (less : s < 64) : b64Char s ≠ 0 ∧ b64Char s ≠ 46 := (charFacts s less).2.2

theorem orAdd {x y k : Nat} (less : y < 2 ^ k) : x <<< k ||| y = x * 2 ^ k + y := by
  rw [← Nat.shiftLeft_add_eq_or_of_lt less,Nat.shiftLeft_eq]

theorem sextetIs (a b c : UInt8) (shift : Nat) :
    sextet a b c shift = (a.toNat * 65536 + b.toNat * 256 + c.toNat) / 2 ^ shift % 64 := by
  have hb := b.toNat_lt
  have hc := c.toNat_lt
  have whole : a.toNat <<< 16 ||| b.toNat <<< 8 ||| c.toNat = a.toNat * 65536 + b.toNat * 256 + c.toNat := by
    have low : b.toNat <<< 8 ||| c.toNat = b.toNat * 256 + c.toNat := orAdd hc
    rw [Nat.or_assoc,low,orAdd (by omega)]
    omega
  rw [sextet,whole,Nat.shiftRight_eq_div_pow]
  exact Nat.and_two_pow_sub_one_eq_mod _ 6

theorem sextetLess (a b c : UInt8) (shift : Nat) : sextet a b c shift < 64 := by
  rw [sextetIs]
  exact Nat.mod_lt _ (by decide)

/-- The four sextets of a group, each from the bytes it lies in. -/
theorem sextets (a b c : UInt8) : sextet a b c 18 = a.toNat / 4 ∧ sextet a b c 12 = a.toNat % 4 * 16 + b.toNat / 16 ∧
    sextet a b c 6 = b.toNat % 16 * 4 + c.toNat / 64 ∧ sextet a b c 0 = c.toNat % 64 := by
  have ha := a.toNat_lt
  have hb := b.toNat_lt
  have hc := c.toNat_lt
  simp only [sextetIs]
  omega

theorem decodeGroupIs {a b c d : Nat} (ha : a < 64) (hb : b < 64) (hc : c < 64) (hd : d < 64) : decodeGroup a b c d =
    [UInt8.ofNat (a * 4 + b / 16),UInt8.ofNat (b % 16 * 16 + c / 4),UInt8.ofNat (c % 4 * 64 + d)] := by
  have whole : a <<< 18 ||| b <<< 12 ||| c <<< 6 ||| d = a * 262144 + b * 4096 + c * 64 + d := by
    have low : c <<< 6 ||| d = c * 64 + d := orAdd hd
    have mid : b <<< 12 ||| (c * 64 + d) = b * 4096 + (c * 64 + d) := orAdd (by omega)
    rw [Nat.or_assoc,low,Nat.or_assoc,mid,orAdd (by omega)]
    omega
  simp only [decodeGroup,whole,Nat.shiftRight_eq_div_pow,show 255 = 2 ^ 8 - 1 from rfl,Nat.and_two_pow_sub_one_eq_mod]
  congr 1
  · congr 1; omega
  congr 1
  · congr 1; omega
  congr 1
  · congr 1; omega

/-- What is read where no sextet of a group was 62 or 63. -/
theorem groupKept {a b c : UInt8} (h1 : sextet a b c 18 < 62) (h2 : sextet a b c 12 < 62) (h3 : sextet a b c 6 < 62) {d : Nat}
    (hd : d < 64) : decodeGroup (seen (sextet a b c 18)) (seen (sextet a b c 12)) (seen (sextet a b c 6)) d =
      [a,b,UInt8.ofNat (c.toNat / 64 * 64 + d)] := by
  obtain ⟨s1,s2,s3,_⟩ := sextets a b c
  have ha := a.toNat_lt
  have hb := b.toNat_lt
  have hc := c.toNat_lt
  rw [seen,if_pos h1,seen,if_pos h2,seen,if_pos h3,
    decodeGroupIs (sextetLess ..) (sextetLess ..) (sextetLess ..) hd,s1,s2,s3]
  have first : UInt8.ofNat (a.toNat / 4 * 4 + (a.toNat % 4 * 16 + b.toNat / 16) / 16) = a := by
    rw [show a.toNat / 4 * 4 + (a.toNat % 4 * 16 + b.toNat / 16) / 16 = a.toNat by omega,UInt8.ofNat_toNat]
  have second : UInt8.ofNat ((a.toNat % 4 * 16 + b.toNat / 16) % 16 * 16 + (b.toNat % 16 * 4 + c.toNat / 64) / 4) = b := by
    rw [show (a.toNat % 4 * 16 + b.toNat / 16) % 16 * 16 + (b.toNat % 16 * 4 + c.toNat / 64) / 4 = b.toNat by omega,
      UInt8.ofNat_toNat]
  rw [first,second,show (b.toNat % 16 * 4 + c.toNat / 64) % 4 * 64 = c.toNat / 64 * 64 by omega]

/-- A byte none of whose bits can end a sextet of 62 or 63. -/
def Tame (c : UInt8) : Prop := c.toNat < 128 ∧ c.toNat % 64 < 62

instance (c : UInt8) : Decidable (Tame c) := inferInstanceAs (Decidable (_ ∧ _))

theorem byteIs {x : Nat} {c : UInt8} (h : UInt8.ofNat x = c) : c.toNat = x % 256 := by rw [← h,UInt8.toNat_ofNat']

/-- A sextet that is read as 0 changes the byte it ends in. -/
theorem groupPlain {a b c : UInt8} {d : Nat} (hd : d < 64)
    (ha : Tame a ∨ UInt8.ofNat (seen (sextet a b c 18) * 4 + seen (sextet a b c 12) / 16) = a)
    (hb : Tame b ∨ UInt8.ofNat (seen (sextet a b c 12) % 16 * 16 + seen (sextet a b c 6) / 4) = b)
    (hc : Tame c ∨ UInt8.ofNat (seen (sextet a b c 6) % 4 * 64 + d) = c) :
    sextet a b c 18 < 62 ∧ sextet a b c 12 < 62 ∧ sextet a b c 6 < 62 := by
  obtain ⟨s1,s2,s3,_⟩ := sextets a b c
  have la := a.toNat_lt
  have lb := b.toNat_lt
  have lc := c.toNat_lt
  have l2 := seenLess (sextet a b c 12)
  have l3 := seenLess (sextet a b c 6)
  have h1 : sextet a b c 18 < 62 := by
    by_contra big
    rw [seen,if_neg big] at ha
    rcases ha with tame | same
    · have := tame.1
      omega
    · have := byteIs same
      omega
  have h2 : sextet a b c 12 < 62 := by
    by_contra big
    rw [seen,if_neg big] at hb
    rcases hb with tame | same
    · have := tame.1
      omega
    · have := byteIs same
      omega
  have h3 : sextet a b c 6 < 62 := by
    by_contra big
    rw [seen,if_neg big] at hc
    rcases hc with tame | same
    · have := tame.1
      omega
    · have := byteIs same
      omega
  exact ⟨h1,h2,h3⟩

/-! ### A text encoded and read back -/

/-- The encoder's text where the buffer is large enough. -/
def encoded : Bytes → Bytes
  | [] => []
  | [a] => firstThree a 0 0
  | [a,b] => firstThree a b 0
  | [a,b,c] => firstThree a b c
  | a :: b :: c :: d :: data => firstThree a b c ++ b64Char (sextet a b c 0) :: encoded (d :: data)

theorem encodeRoom (outLen : Nat) : ∀ (j : Nat) (p : Bytes), j + (p.length + 2) / 3 * 4 ≤ outLen →
    base64urlEncodeGo outLen j p = some (encoded p)
  | _, [], _ => rfl
  | j, [a], room => by
    simp only [List.length_cons,List.length_nil] at room
    rw [base64urlEncodeGo,if_neg (by omega),encoded]
  | j, [a,b], room => by
    simp only [List.length_cons,List.length_nil] at room
    rw [base64urlEncodeGo,if_neg (by omega),encoded]
  | j, [a,b,c], room => by
    simp only [List.length_cons,List.length_nil] at room
    rw [base64urlEncodeGo,if_neg (by omega),encoded]
  | j, a :: b :: c :: d :: data, room => by
    simp only [List.length_cons] at room
    rw [base64urlEncodeGo,if_neg (by omega),encodeRoom outLen (j + 4) (d :: data) (by simp only [List.length_cons]; omega),encoded]
    rfl

theorem encodedSome {p : Bytes} (some_ : p ≠ []) : encoded p ≠ [] := by
  fun_cases encoded p with
  | case1 => exact absurd rfl some_
  | case2 => exact List.cons_ne_nil _ _
  | case3 => exact List.cons_ne_nil _ _
  | case4 => exact List.cons_ne_nil _ _
  | case5 => exact List.cons_ne_nil _ _

/-- No dot and no NUL. -/
theorem encodedPlain (p : Bytes) : ∀ x ∈ encoded p, x ≠ 0 ∧ x ≠ 46 := by
  have three : ∀ a b c, ∀ x ∈ firstThree a b c, x ≠ 0 ∧ x ≠ 46 := fun a b c x mem => by
    simp only [firstThree,List.mem_cons,List.not_mem_nil,or_false] at mem
    rcases mem with rfl | rfl | rfl <;> exact charPlain _ (sextetLess ..)
  fun_induction encoded p with
  | case1 => exact fun x mem => nomatch mem
  | case2 => exact three _ _ _
  | case3 => exact three _ _ _
  | case4 => exact three _ _ _
  | case5 a b c d data ih =>
    intro x mem
    rcases List.mem_append.mp mem with mem | mem
    · exact three a b c x mem
    · rcases List.mem_cons.mp mem with rfl | mem
      · exact charPlain _ (sextetLess ..)
      · exact ih x mem

/-- A text without the two characters the decoder's table does not know. -/
def Plain (e : Bytes) : Prop := 45 ∉ e ∧ 95 ∉ e

instance (e : Bytes) : Decidable (Plain e) := inferInstanceAs (Decidable (_ ∧ _))

theorem plainIff {e : Bytes} : Plain e ↔ ∀ x ∈ e, ¬ (x = 45 ∨ x = 95) := by
  constructor
  · rintro ⟨dash,low⟩ x mem (rfl | rfl)
    · exact dash mem
    · exact low mem
  · exact fun h => ⟨fun mem => h 45 mem (.inl rfl),fun mem => h 95 mem (.inr rfl)⟩

theorem plainThree {a b c : UInt8} : Plain (firstThree a b c) ↔
    sextet a b c 18 < 62 ∧ sextet a b c 12 < 62 ∧ sextet a b c 6 < 62 := by
  rw [plainIff]
  simp only [firstThree,List.forall_mem_cons,charDash _ (sextetLess ..),Nat.not_le,List.not_mem_nil,false_implies,
    implies_true,and_true]

theorem plainGroup {a b c : UInt8} {e : Bytes} : Plain (firstThree a b c ++ b64Char (sextet a b c 0) :: e) ↔
    Plain (firstThree a b c) ∧ sextet a b c 0 < 62 ∧ Plain e := by
  simp only [plainIff,List.forall_mem_append,List.forall_mem_cons,charDash _ (sextetLess ..),Nat.not_le]

/-- What comes back of a plain text: the low bits of the last byte of a whole last group are lost, a shorter group
is filled up with NULs. -/
def readBack : Bytes → Bytes
  | [] => []
  | [a] => [a,0,0]
  | [a,b] => [a,b,0]
  | [a,b,c] => [a,b,UInt8.ofNat (c.toNat / 64 * 64)]
  | a :: b :: c :: d :: data => a :: b :: c :: readBack (d :: data)

theorem tableEnd : b64d 0 = 0 := by decide

theorem decodePlain {past : Bytes} (p : Bytes) (plain : Plain (encoded p)) : decodeGo (0 :: past) (encoded p) = readBack p := by
  fun_induction encoded p with
  | case1 => rfl
  | case2 a =>
    obtain ⟨h1,h2,h3⟩ := plainThree.mp plain
    simp only [firstThree,decodeGo,tableSees _ (sextetLess ..),readBack]
    exact groupKept h1 h2 h3 (by decide)
  | case3 a b =>
    obtain ⟨h1,h2,h3⟩ := plainThree.mp plain
    simp only [firstThree,decodeGo,tableSees _ (sextetLess ..),readBack]
    exact groupKept h1 h2 h3 (by decide)
  | case4 a b c =>
    obtain ⟨h1,h2,h3⟩ := plainThree.mp plain
    simp only [firstThree,decodeGo,tableSees _ (sextetLess ..),readBack]
    exact groupKept h1 h2 h3 (by decide)
  | case5 a b c d data ih =>
    obtain ⟨first,h4,rest⟩ := plainGroup.mp plain
    obtain ⟨h1,h2,h3⟩ := plainThree.mp first
    simp only [firstThree,List.cons_append,List.nil_append,decodeGo,tableSees _ (sextetLess ..),readBack]
    have last : c.toNat / 64 * 64 + seen (sextet a b c 0) = c.toNat := by
      rw [seen,if_pos h4,(sextets a b c).2.2.2]
      omega
    rw [groupKept h1 h2 h3 (Nat.lt_trans (seenLess _) (by decide)),last,UInt8.ofNat_toNat,ih rest]
    rfl

/-- Where every byte comes back that could have been changed, the text is plain. -/
theorem plainFrom (past p : Bytes)
    (agree : ∀ (k : Nat) (c : UInt8), p[k]? = some c → Tame c ∨ (decodeGo (0 :: past) (encoded p))[k]? = some c) : Plain (encoded p) := by
  have at_ : ∀ {x c : UInt8}, Tame c ∨ some x = some c → Tame c ∨ x = c := fun h => h.imp id Option.some.inj
  fun_induction encoded p with
  | case1 => exact ⟨fun mem => (nomatch mem),fun mem => (nomatch mem)⟩
  | case2 a =>
    rw [firstThree,decodeGo,tableSees _ (sextetLess ..),tableSees _ (sextetLess ..),tableSees _ (sextetLess ..),
      decodeGroupIs (Nat.lt_trans (seenLess _) (by decide)) (Nat.lt_trans (seenLess _) (by decide))
        (Nat.lt_trans (seenLess _) (by decide)) (by decide)] at agree
    exact plainThree.mpr (groupPlain (show 0 < 64 by decide) (at_ (agree 0 a rfl)) (.inl (by decide)) (.inl (by decide)))
  | case3 a b =>
    rw [firstThree,decodeGo,tableSees _ (sextetLess ..),tableSees _ (sextetLess ..),tableSees _ (sextetLess ..),
      decodeGroupIs (Nat.lt_trans (seenLess _) (by decide)) (Nat.lt_trans (seenLess _) (by decide))
        (Nat.lt_trans (seenLess _) (by decide)) (by decide)] at agree
    exact plainThree.mpr (groupPlain (show 0 < 64 by decide) (at_ (agree 0 a rfl)) (at_ (agree 1 b rfl)) (.inl (by decide)))
  | case4 a b c =>
    rw [firstThree,decodeGo,tableSees _ (sextetLess ..),tableSees _ (sextetLess ..),tableSees _ (sextetLess ..),
      decodeGroupIs (Nat.lt_trans (seenLess _) (by decide)) (Nat.lt_trans (seenLess _) (by decide))
        (Nat.lt_trans (seenLess _) (by decide)) (by decide)] at agree
    exact plainThree.mpr (groupPlain (show 0 < 64 by decide) (at_ (agree 0 a rfl)) (at_ (agree 1 b rfl)) (at_ (agree 2 c rfl)))
  | case5 a b c d data ih =>
    have whole : decodeGo (0 :: past) (firstThree a b c ++ b64Char (sextet a b c 0) :: encoded (d :: data)) =
        decodeGroup (seen (sextet a b c 18)) (seen (sextet a b c 12)) (seen (sextet a b c 6)) (seen (sextet a b c 0)) ++
          decodeGo (0 :: past) (encoded (d :: data)) := by
      simp only [firstThree,List.cons_append,List.nil_append,decodeGo,tableSees _ (sextetLess ..)]
    rw [whole,decodeGroupIs (Nat.lt_trans (seenLess _) (by decide)) (Nat.lt_trans (seenLess _) (by decide))
      (Nat.lt_trans (seenLess _) (by decide)) (Nat.lt_trans (seenLess _) (by decide))] at agree
    have third := at_ (agree 2 c rfl)
    have first := groupPlain (Nat.lt_trans (seenLess _) (by decide)) (at_ (agree 0 a rfl)) (at_ (agree 1 b rfl)) third
    refine plainGroup.mpr ⟨plainThree.mpr first,?_,ih fun k x here => agree (k + 3) x here⟩
    have bits := (sextets a b c).2.2.2
    by_contra big
    rw [show seen (sextet a b c 0) = 0 by rw [seen,if_neg big]] at third
    rcases third with tame | same
    · have := tame.2
      omega
    · have := byteIs same
      omega

/-! ### Which texts come back -/

/-- The characters the decoder reads: whole groups of four. -/
def charsRead : Bytes → Nat
  | [] => 0
  | _ :: _ :: _ :: _ :: s => charsRead s + 4
  | _ => 4

/-- A last group of the encoder has three characters, so no more than the terminator is read behind them. -/
theorem readsTerminator (p : Bytes) : charsRead (encoded p) ≤ (encoded p).length + 1 := by
  fun_induction encoded p with
  | case1 => exact Nat.zero_le _
  | case2 => exact Nat.le_refl _
  | case3 => exact Nat.le_refl _
  | case4 => exact Nat.le_refl _
  | case5 a b c d data ih =>
    simp only [firstThree,List.cons_append,List.nil_append,charsRead,List.length_cons]
    omega

/-- No six bits of the text, counted from its first bit, are 62 or 63. -/
def LowSextets : Bytes → Prop
  | [] => True
  | [a] => a.toNat / 4 < 62
  | [a,b] => a.toNat / 4 < 62 ∧ a.toNat % 4 * 16 + b.toNat / 16 < 62
  | a :: b :: c :: p =>
    (a.toNat / 4 < 62 ∧ a.toNat % 4 * 16 + b.toNat / 16 < 62 ∧ b.toNat % 16 * 4 + c.toNat / 64 < 62) ∧
      (p ≠ [] → c.toNat % 64 < 62) ∧ LowSextets p

instance LowSextets.decide : ∀ p : Bytes, Decidable (LowSextets p)
  | [] => isTrue trivial
  | [a] => inferInstanceAs (Decidable (a.toNat / 4 < 62))
  | [_,_] => inferInstanceAs (Decidable (_ ∧ _))
  | _ :: _ :: _ :: p =>
    have := LowSextets.decide p
    inferInstanceAs (Decidable ((_ ∧ _ ∧ _) ∧ (p ≠ [] → _) ∧ LowSextets p))

theorem plainLow (p : Bytes) : Plain (encoded p) ↔ LowSextets p := by
  fun_induction encoded p with
  | case1 => exact ⟨fun _ => trivial,fun _ => ⟨nofun,nofun⟩⟩
  | case2 a =>
    obtain ⟨s1,s2,s3,_⟩ := sextets a 0 0
    rw [plainThree,s1,s2,s3,LowSextets]
    have := a.toNat_lt
    simp only [UInt8.toNat_zero]
    omega
  | case3 a b =>
    obtain ⟨s1,s2,s3,_⟩ := sextets a b 0
    rw [plainThree,s1,s2,s3,LowSextets]
    simp only [UInt8.toNat_zero]
    omega
  | case4 a b c =>
    obtain ⟨s1,s2,s3,_⟩ := sextets a b c
    rw [plainThree,s1,s2,s3,LowSextets]
    simp only [LowSextets,ne_eq,not_true_eq_false,false_implies,and_true]
  | case5 a b c d data ih =>
    obtain ⟨s1,s2,s3,s4⟩ := sextets a b c
    rw [plainGroup,plainThree,s1,s2,s3,s4,LowSextets,ih]
    simp only [ne_eq,List.cons_ne_nil,not_false_eq_true,true_implies]

/-- What the end of the text has to be: a whole last group with nothing in the low bits of its last byte, or a buffer
that cuts off what a shorter group is filled up with. -/
def EndKept (p : Bytes) (outLen : Nat) : Prop :=
  if p.length % 3 = 0 then ∀ c ∈ p.getLast?, c.toNat % 64 = 0 else outLen = p.length

theorem lowBitsLost (c : UInt8) : UInt8.ofNat (c.toNat / 64 * 64) = c ↔ c.toNat % 64 = 0 := by
  have less := c.toNat_lt
  rw [← UInt8.toNat_inj,UInt8.toNat_ofNat']
  omega

theorem takeBack (p : Bytes) {outLen : Nat} (fits : p.length ≤ outLen) : (readBack p).take outLen = p ↔ EndKept p outLen := by
  fun_induction readBack p generalizing outLen with
  | case1 => exact ⟨fun _ => nofun,fun _ => List.take_nil⟩
  | case2 a =>
    obtain ⟨n,rfl⟩ := Nat.exists_eq_add_of_le' fits
    cases n with
    | zero => exact ⟨fun _ => rfl,fun _ => rfl⟩
    | succ n =>
      refine ⟨fun back => ?_,fun kept => ?_⟩
      · have := congrArg List.length back
        simp only [List.length_take,List.length_cons,List.length_nil] at this
        omega
      · have : n + 1 + 1 = 1 := kept
        omega
  | case3 a b =>
    obtain ⟨n,rfl⟩ := Nat.exists_eq_add_of_le' fits
    cases n with
    | zero => exact ⟨fun _ => rfl,fun _ => rfl⟩
    | succ n =>
      refine ⟨fun back => ?_,fun kept => ?_⟩
      · have := congrArg List.length back
        simp only [List.length_take,List.length_cons,List.length_nil] at this
        omega
      · have : n + 1 + 2 = 2 := kept
        omega
  | case4 a b c =>
    have whole : List.take outLen [a,b,UInt8.ofNat (c.toNat / 64 * 64)] = [a,b,UInt8.ofNat (c.toNat / 64 * 64)] :=
      List.take_of_length_le fits
    have kept : EndKept [a,b,c] outLen ↔ c.toNat % 64 = 0 := by
      simp [EndKept]
    rw [whole,kept,← lowBitsLost]
    simp
  | case5 a b c d data ih =>
    obtain ⟨n,rfl⟩ := Nat.exists_eq_add_of_le' fits
    have kept : EndKept (a :: b :: c :: d :: data) (n + (a :: b :: c :: d :: data).length) ↔
        EndKept (d :: data) (n + (d :: data).length) := by
      have third : (a :: b :: c :: d :: data).length % 3 = (d :: data).length % 3 := Nat.add_mod_right _ 3
      simp only [EndKept,third,List.getLast?_cons_cons,Nat.add_eq_right]
    rw [kept,← ih (Nat.le_add_left (d :: data).length n)]
    simp only [List.length_cons,← Nat.add_assoc,List.take_succ_cons,List.cons.injEq,true_and]

/-- A text comes back as it was, and the decoder stays in what the encoder wrote, its terminator included. -/
def ComesBack (p past : Bytes) (room outLen : Nat) : Prop :=
  ∃ e, base64urlEncode p room = some e ∧ base64urlDecode e (0 :: past) outLen = p ∧ charsRead e ≤ e.length + 1

theorem comesBackOnly {p past : Bytes} {room outLen : Nat} (roomy : (p.length + 2) / 3 * 4 ≤ room) (fits : p.length ≤ outLen)
    (comes : ComesBack p past room outLen) : LowSextets p ∧ EndKept p outLen := by
  obtain ⟨e,is,back,_⟩ := comes
  cases (encodeRoom room 0 p (by omega)).symm.trans is
  rw [base64urlDecode] at back
  have plain : Plain (encoded p) := plainFrom past p fun k c here => .inr <| by
    rw [← back,List.getElem?_take] at here
    split at here
    · exact here
    · cases here
  exact ⟨(plainLow p).mp plain,(takeBack p fits).mp (by rwa [decodePlain p plain] at back)⟩

theorem comesBackIff {p past : Bytes} {room outLen : Nat} (roomy : (p.length + 2) / 3 * 4 ≤ room) (fits : p.length ≤ outLen) :
    ComesBack p past room outLen ↔ LowSextets p ∧ EndKept p outLen := by
  constructor
  · exact comesBackOnly roomy fits
  · rintro ⟨low,kept⟩
    have back : base64urlDecode (encoded p) (0 :: past) outLen = p := by
      rw [base64urlDecode,decodePlain p ((plainLow p).mpr low),(takeBack p fits).mpr kept]
    exact ⟨encoded p,encodeRoom room 0 p (by omega),back,readsTerminator p⟩

/-- `abc` reads back as `ab@`. -/
theorem comesBackFails : ¬ ∀ (p past : Bytes) (room outLen : Nat), (p.length + 2) / 3 * 4 ≤ room → p.length ≤ outLen →
    ComesBack p past room outLen := fun all =>
  absurd (comesBackOnly (by decide) (by decide) (all (ascii "abc") [] 16 16 (by decide) (by decide))).2 (by simp [EndKept,ascii])

theorem comesBackEmail : ComesBack (ascii "Jo@") [] 16 16 :=
  (comesBackIff (by decide) (by decide)).mpr ⟨by decide,by simp [EndKept,ascii]⟩

end Napastak.Auth
