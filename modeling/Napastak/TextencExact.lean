import Napastak.TextencKept

/-! What `textenc_is_utf8` accepts is UTF-8 and nothing else, and what the conversion writes is UTF-8 unless a surrogate
stands alone in UTF-16. -/
namespace Napastak.Textenc
open Utf8 (tail WellFormed)
open String (utf8EncodeChar)

def surrogate (cp : Nat) : Bool := 0xD800 ≤ cp && cp ≤ 0xDFFF

/-! ### One character -/

theorem leadBytes : (∀ h < 32, ¬ UInt8.ofNat (h + 0xC0) < 0x80 ∧ lead (UInt8.ofNat (h + 0xC0)) = some (1,h)) ∧
    (∀ h < 16, ¬ UInt8.ofNat (h + 0xE0) < 0x80 ∧ lead (UInt8.ofNat (h + 0xE0)) = some (2,h)) ∧
    ∀ h < 8, ¬ UInt8.ofNat (h + 0xF0) < 0x80 ∧ lead (UInt8.ofNat (h + 0xF0)) = some (3,h) := by
  refine ⟨?_,?_,?_⟩ <;> decide

/-- The bytes `put_utf8` writes, with the payload of each. -/
theorem putBytes {cp : Nat} (bound : cp < 0x110000) :
    (cp < 0x80 ∧ putUtf8 cp = [UInt8.ofNat cp]) ∨
    (∃ h t, h < 32 ∧ t < 64 ∧ cp = h * 64 + t ∧ 0x80 ≤ cp ∧ putUtf8 cp = [UInt8.ofNat (h + 0xC0),UInt8.ofNat (t + 0x80)]) ∨
    (∃ h t u, h < 16 ∧ t < 64 ∧ u < 64 ∧ cp = (h * 64 + t) * 64 + u ∧ 0x800 ≤ cp ∧
      putUtf8 cp = [UInt8.ofNat (h + 0xE0),UInt8.ofNat (t + 0x80),UInt8.ofNat (u + 0x80)]) ∨
    ∃ h t u v, h < 8 ∧ t < 64 ∧ u < 64 ∧ v < 64 ∧ cp = ((h * 64 + t) * 64 + u) * 64 + v ∧ 0x10000 ≤ cp ∧
      putUtf8 cp = [UInt8.ofNat (h + 0xF0),UInt8.ofNat (t + 0x80),UInt8.ofNat (u + 0x80),UInt8.ofNat (v + 0x80)] := by
  have low (n : Nat) : n &&& 0x3F = n % 64 := Nat.and_two_pow_sub_one_eq_mod n 6
  have two : ∀ h < 32, 0xC0 ||| h = h + 0xC0 := by decide
  have three : ∀ h < 16, 0xE0 ||| h = h + 0xE0 := by decide
  have four : ∀ h < 8, 0xF0 ||| h = h + 0xF0 := by decide
  have more : ∀ t < 64, 0x80 ||| t = t + 0x80 := by decide
  have six (n : Nat) : n % 64 < 64 := Nat.mod_lt _ (by decide)
  unfold putUtf8
  simp only [low,Nat.shiftRight_eq_div_pow]
  split
  · exact .inl ⟨by assumption,rfl⟩
  split
  · refine .inr (.inl ⟨cp / 64,cp % 64,by omega,six _,by omega,by omega,?_⟩)
    rw [show 2 ^ 6 = 64 from rfl,two _ (by omega),more _ (six _)]
  split
  · refine .inr (.inr (.inl ⟨cp / 4096,cp / 64 % 64,cp % 64,by omega,six _,six _,by omega,by omega,?_⟩))
    rw [show 2 ^ 12 = 4096 from rfl,show 2 ^ 6 = 64 from rfl,three _ (by omega),more _ (six _),more _ (six _)]
  · refine .inr (.inr (.inr ⟨cp / 262144,cp / 4096 % 64,cp / 64 % 64,cp % 64,by omega,six _,six _,six _,by omega,by omega,?_⟩))
    rw [show 2 ^ 18 = 262144 from rfl,show 2 ^ 12 = 4096 from rfl,show 2 ^ 6 = 64 from rfl,four _ (by omega),more _ (six _),
      more _ (six _),more _ (six _)]

/-- A character is written as UTF-8 has it. -/
theorem putChar (c : Char) : putUtf8 c.toNat = utf8EncodeChar c := by
  have bound : c.toNat < 0x110000 := by
    have num : c.val.toNat = c.toNat := rfl
    rcases c.valid with small | ⟨_,small⟩ <;> omega
  rcases putBytes bound with ⟨low,eq⟩ | ⟨h,t,hh,ht,is,low,eq⟩ | ⟨h,t,u,hh,ht,hu,is,low,eq⟩ | ⟨h,t,u,v,hh,ht,hu,hv,is,low,eq⟩ <;>
    rcases Utf8.encoded c with ⟨low',eq'⟩ | ⟨h',t',hh',ht',is',low',eq'⟩ | ⟨h',t',u',hh',ht',hu',is',low',eq'⟩ |
      ⟨h',t',u',v',hh',ht',hu',hv',is',low',eq'⟩ <;> first | omega | rw [eq,eq']
  · rw [show h = h' by omega,show t = t' by omega]
  · rw [show h = h' by omega,show t = t' by omega,show u = u' by omega]
  · rw [show h = h' by omega,show t = t' by omega,show u = u' by omega,show v = v' by omega]

theorem scalar {cp : Nat} (bound : cp < 0x110000) (apart : surrogate cp = false) : ∃ c : Char, c.toNat = cp := by
  have valid : cp.isValidChar := by
    unfold surrogate at apart
    simp only [Bool.and_eq_false_iff,decide_eq_false_iff_not,Nat.not_le] at apart
    unfold Nat.isValidChar
    omega
  exact ⟨Char.ofNatAux cp valid,rfl⟩

/-- Whatever is written of a number is read as that number, and refused exactly for a surrogate. -/
theorem putAccepted {cp : Nat} (bound : cp < 0x110000) (s : Bytes) :
    textencIsUtf8 (putUtf8 cp ++ s) = (!surrogate cp && textencIsUtf8 s) := by
  cases apart : surrogate cp with
  | false =>
    obtain ⟨c,rfl⟩ := scalar bound apart
    rw [putChar,charAccepted]
    rfl
  | true =>
    have range : 0xD800 ≤ cp ∧ cp ≤ 0xDFFF := by simpa [surrogate] using apart
    rcases putBytes bound with ⟨low,_⟩ | ⟨h,t,hh,ht,is,_,_⟩ | ⟨h,t,u,hh,ht,hu,is,low,eq⟩ | ⟨_,_,_,_,_,_,_,_,_,low,_⟩
    · omega
    · omega
    · have bad : illegal 2 cp = true := by
        simp only [illegal,decide_eq_true_eq]
        omega
      have read : conts 2 h (UInt8.ofNat (t + 0x80) :: UInt8.ofNat (u + 0x80) :: ([] ++ s)) = some cp := by
        rw [contsTail ht,contsTail hu,conts,is]
      rw [eq,List.cons_append,List.cons_append,List.cons_append,textencIsUtf8,if_neg (leadBytes.2.1 h hh).1,(leadBytes.2.1 h hh).2]
      simp only [read,bad,Bool.not_true,Bool.false_and]
    · omega

/-! ### The accepted texts -/

theorem tailInv {b : UInt8} (is : tail b = true) : ∃ t < 64, b = UInt8.ofNat (t + 0x80) := by
  have all : ∀ n < 256, tail (UInt8.ofNat n) = true → 0x80 ≤ n ∧ n < 0xC0 := by decide +kernel
  have same : UInt8.ofNat b.toNat = b := UInt8.ofNat_toNat
  obtain ⟨low,high⟩ := all b.toNat (UInt8.toNat_lt b) (same.symm ▸ is)
  exact ⟨b.toNat - 0x80,by omega,by rw [Nat.sub_add_cancel low,same]⟩

theorem leadInv {b : UInt8} {extra cp : Nat} (is : lead b = some (extra,cp)) :
    (extra = 1 ∧ cp < 32 ∧ b = UInt8.ofNat (cp + 0xC0)) ∨ (extra = 2 ∧ cp < 16 ∧ b = UInt8.ofNat (cp + 0xE0)) ∨
      (extra = 3 ∧ cp < 8 ∧ b = UInt8.ofNat (cp + 0xF0)) := by
  have all : ∀ n < 256, ∀ p ∈ lead (UInt8.ofNat n), (p.1 = 1 ∧ p.2 < 32 ∧ n = p.2 + 0xC0) ∨ (p.1 = 2 ∧ p.2 < 16 ∧ n = p.2 + 0xE0) ∨
      (p.1 = 3 ∧ p.2 < 8 ∧ n = p.2 + 0xF0) := by decide +kernel
  have same : UInt8.ofNat b.toNat = b := UInt8.ofNat_toNat
  rcases all b.toNat (UInt8.toNat_lt b) (extra,cp) (same.symm ▸ is) with ⟨one,small,eq⟩ | ⟨one,small,eq⟩ | ⟨one,small,eq⟩ <;>
    dsimp only at one small eq <;> rw [← eq,same]
  · exact .inl ⟨one,small,rfl⟩
  · exact .inr (.inl ⟨one,small,rfl⟩)
  · exact .inr (.inr ⟨one,small,rfl⟩)

theorem contsInv {k cp u : Nat} {s : Bytes} (run : conts (k + 1) cp s = some u) :
    ∃ t r, t < 64 ∧ s = UInt8.ofNat (t + 0x80) :: r ∧ conts k (cp * 64 + t) r = some u := by
  cases s with
  | nil => cases run
  | cons b r =>
    by_cases is : tail b = true
    · obtain ⟨t,small,rfl⟩ := tailInv is
      rw [contsTail small] at run
      exact ⟨t,r,small,rfl,run⟩
    · rw [conts,if_neg is] at run
      cases run

/-- A sequence that is read as a legal number is the one written for it. -/
theorem readBack {b : UInt8} {s : Bytes} {extra cp u : Nat} (first : lead b = some (extra,cp)) (run : conts extra cp s = some u)
    (legal : illegal extra u = false) : u < 0x110000 ∧ surrogate u = false ∧ b :: s = putUtf8 u ++ s.drop extra := by
  have limits : u < 0x110000 ∧ surrogate u = false ∧ ¬ (extra = 1 ∧ u < 0x80) ∧ ¬ (extra = 2 ∧ u < 0x800) ∧ ¬ (extra = 3 ∧ u < 0x10000) := by
    simp only [illegal,decide_eq_false_iff_not] at legal
    refine ⟨by omega,?_,by omega,by omega,by omega⟩
    simp only [surrogate,Bool.and_eq_false_iff,decide_eq_false_iff_not]
    omega
  refine ⟨limits.1,limits.2.1,?_⟩
  have written := putBytes limits.1
  rcases leadInv first with ⟨rfl,small,rfl⟩ | ⟨rfl,small,rfl⟩ | ⟨rfl,small,rfl⟩
  · obtain ⟨t,r,ht,rfl,done⟩ := contsInv run
    have num : cp * 64 + t = u := Option.some.inj done
    rcases written with ⟨_,_⟩ | ⟨h',t',_,_,is,_,eq⟩ | ⟨_,_,_,_,_,_,_,_,_⟩ | ⟨_,_,_,_,_,_,_,_,_,_,_⟩
    · omega
    · rw [eq,show h' = cp by omega,show t' = t by omega]
      rfl
    · omega
    · omega
  · obtain ⟨t,_,ht,rfl,rest⟩ := contsInv run
    obtain ⟨v,r,hv,rfl,done⟩ := contsInv rest
    have num : (cp * 64 + t) * 64 + v = u := Option.some.inj done
    rcases written with ⟨_,_⟩ | ⟨_,_,_,_,_,_,_⟩ | ⟨h',t',v',_,_,_,is,_,eq⟩ | ⟨_,_,_,_,_,_,_,_,_,_,_⟩
    · omega
    · omega
    · rw [eq,show h' = cp by omega,show t' = t by omega,show v' = v by omega]
      rfl
    · omega
  · obtain ⟨t,_,ht,rfl,rest⟩ := contsInv run
    obtain ⟨v,_,hv,rfl,more⟩ := contsInv rest
    obtain ⟨w,r,hw,rfl,done⟩ := contsInv more
    have num : ((cp * 64 + t) * 64 + v) * 64 + w = u := Option.some.inj done
    rcases written with ⟨_,_⟩ | ⟨_,_,_,_,_,_,_⟩ | ⟨_,_,_,_,_,_,_,_,_⟩ | ⟨h',t',v',w',_,_,_,_,is,_,eq⟩
    · omega
    · omega
    · omega
    · rw [eq,show h' = cp by omega,show t' = t by omega,show v' = v by omega,show w' = w by omega]
      rfl

theorem accepted (s : Bytes) (ok : textencIsUtf8 s = true) : WellFormed s := by
  fun_induction textencIsUtf8 s with
  | case1 => exact ⟨[],rfl⟩
  | case2 c s plain ih =>
    obtain ⟨cs,rfl⟩ := ih ok
    have small : c.toNat < 0x80 := UInt8.lt_iff_toNat_lt.mp plain
    obtain ⟨a,num⟩ := scalar (show c.toNat < 0x110000 by omega) (by simp only [surrogate,Bool.and_eq_false_iff,decide_eq_false_iff_not]; omega)
    refine ⟨a :: cs,?_⟩
    rw [List.flatMap_cons,← putChar,num,putUtf8,if_pos small,UInt8.ofNat_toNat]
    rfl
  | case3 => cases ok
  | case4 => cases ok
  | case5 c s plain extra cp first u run ih =>
    rw [Bool.and_eq_true,Bool.not_eq_true'] at ok
    obtain ⟨bound,apart,split⟩ := readBack first run ok.1
    obtain ⟨cs,rest⟩ := ih ok.2
    obtain ⟨a,rfl⟩ := scalar bound apart
    exact ⟨a :: cs,by rw [split,putChar,rest,List.flatMap_cons]⟩

/-- `textenc_is_utf8` accepts exactly the encodings of the Unicode scalar values one after another. -/
theorem isUtf8Iff (data : Bytes) : textencIsUtf8 data = true ↔ ∃ cs : List Char, data = cs.flatMap utf8EncodeChar := by
  refine ⟨accepted data,fun ⟨cs,is⟩ => ?_⟩
  have all := charsAccepted cs []
  rw [List.append_nil,textencIsUtf8] at all
  rw [is,all]

/-! ### The conversion -/

inductive CodePage where
  | cp1251 | cp866 | koi8r
  deriving DecidableEq, Repr

def CodePage.table : CodePage → List Nat
  | .cp1251 => tableCp1251
  | .cp866 => tableCp866
  | .koi8r => tableKoi8r

/-- The encodings that are not copied as they are. -/
inductive Source where
  | page (page : CodePage)
  | utf16 (little : Bool)
  deriving DecidableEq, Repr

def Source.enc : Source → TextEnc
  | .page .cp1251 => .cp1251
  | .page .cp866 => .cp866
  | .page .koi8r => .koi8r
  | .utf16 true => .utf16le
  | .utf16 false => .utf16be

def Source.convert : Source → Bytes → Bytes
  | .page tbl, p => fromSingleByte tbl.table p
  | .utf16 little, p => fromUtf16 little p

/-- The bytes allocated for the converted text and the zero behind it. -/
def Source.room : Source → Bytes → Nat
  | .page _, p => p.length * 3 + 1
  | .utf16 _, p => p.length * 2 + 1

theorem toUtf8Converts (src : Source) (data : Bytes) :
    (textencToUtf8 data src.enc).1 = src.convert (data.drop (textencBomLen data)) := by
  rcases src with ⟨_ | _⟩ | ⟨_ | _⟩ <;> rfl

/-! The units of UTF-16 and the numbers they stand for. -/

def units (little : Bool) : Bytes → List Nat
  | a :: b :: s => unit16 little a b :: units little s
  | _ => []

def leading (u : Nat) : Bool := 0xD800 ≤ u && u ≤ 0xDBFF

def trailing (u : Nat) : Bool := 0xDC00 ≤ u && u ≤ 0xDFFF

/-- A surrogate outside a pair. -/
def loneSurrogate : List Nat → Bool
  | [] => false
  | [u] => surrogate u
  | u :: lo :: us => if leading u && trailing lo then loneSurrogate us else surrogate u || loneSurrogate (lo :: us)

/-- UTF-16 as it is defined. -/
def utf16Units (c : Char) : List Nat :=
  if c.toNat < 0x10000 then [c.toNat] else [0xD800 + (c.toNat - 0x10000) / 0x400,0xDC00 + (c.toNat - 0x10000) % 0x400]

def unitBytes (little : Bool) (u : Nat) : Bytes :=
  if little then [UInt8.ofNat (u % 256),UInt8.ofNat (u / 256)] else [UInt8.ofNat (u / 256),UInt8.ofNat (u % 256)]

def utf16EncodeChar (little : Bool) (c : Char) : Bytes := (utf16Units c).flatMap (unitBytes little)

/-- What `from_utf16` writes, number by number. -/
def numbers : List Nat → List Nat
  | [] => []
  | [u] => [u]
  | u :: lo :: us =>
    if leading u && trailing lo then (0x10000 + ((u - 0xD800) <<< 10) + (lo - 0xDC00)) :: numbers us else u :: numbers (lo :: us)

theorem unit16Sum (little : Bool) (a b : UInt8) :
    unit16 little a b = if little then a.toNat + 256 * b.toNat else 256 * a.toNat + b.toNat := by
  have ha := UInt8.toNat_lt a
  have hb := UInt8.toNat_lt b
  unfold unit16
  cases little with
  | true => rw [if_pos rfl,if_pos rfl,Nat.or_comm,← Nat.shiftLeft_add_eq_or_of_lt ha,Nat.shiftLeft_eq]; omega
  | false => rw [if_neg nofun,if_neg nofun,← Nat.shiftLeft_add_eq_or_of_lt hb,Nat.shiftLeft_eq]; omega

theorem unitsSmall (little : Bool) : (p : Bytes) → ∀ u ∈ units little p, u < 0x10000
  | [] => nofun
  | [_] => nofun
  | a :: b :: s => fun u mem => by
    have ha := UInt8.toNat_lt a
    have hb := UInt8.toNat_lt b
    rcases List.mem_cons.mp mem with rfl | mem
    · rw [unit16Sum]
      split <;> omega
    · exact unitsSmall little s u mem

theorem fromUtf16Numbers (little : Bool) (p : Bytes) : fromUtf16 little p = (numbers (units little p)).flatMap putUtf8 := by
  fun_induction fromUtf16 little p with
  | case1 a b u c d s lo pair ih =>
    have both : (leading u && trailing lo) = true := by
      simp only [leading,trailing,Bool.and_eq_true,decide_eq_true_eq]
      omega
    rw [units,units,numbers,if_pos both,List.flatMap_cons,← ih]
  | case2 a b u c d s lo pair ih =>
    have both : ¬ (leading u && trailing lo) = true := by
      simp only [leading,trailing,Bool.and_eq_true,decide_eq_true_eq]
      omega
    rw [units,units,numbers,if_neg both,List.flatMap_cons,ih,units]
  | case3 a b u s short ih =>
    have none_ : units little s = [] := by
      rcases s with _ | ⟨c,_ | ⟨d,s⟩⟩
      · rfl
      · rfl
      · exact absurd rfl (short c d s)
    rw [units,none_,numbers,List.flatMap_cons,ih,none_]
    rfl
  | case4 p short =>
    rcases p with _ | ⟨a,_ | ⟨b,s⟩⟩
    · rfl
    · rfl
    · exact absurd rfl (short a b s)

theorem numbersSmall : (us : List Nat) → (∀ u ∈ us, u < 0x10000) → ∀ n ∈ numbers us, n < 0x110000
  | [], _ => nofun
  | [u], small => fun n mem => by
    have bound := small u List.mem_cons_self
    rw [List.mem_singleton.mp mem]
    omega
  | u :: lo :: us, small => fun n mem => by
    have head := small u List.mem_cons_self
    have second := small lo (List.mem_cons_of_mem _ List.mem_cons_self)
    rw [numbers] at mem
    split at mem <;> rename_i pair <;> rcases List.mem_cons.mp mem with is | mem
    · simp only [leading,trailing,Bool.and_eq_true,decide_eq_true_eq] at pair
      rw [Nat.shiftLeft_eq] at is
      omega
    · exact numbersSmall us (fun v m => small v (List.mem_cons_of_mem _ (List.mem_cons_of_mem _ m))) n mem
    · omega
    · exact numbersSmall (lo :: us) (fun v m => small v (List.mem_cons_of_mem _ m)) n mem

theorem loneNumbers : (us : List Nat) → loneSurrogate us = (numbers us).any surrogate
  | [] => rfl
  | [u] => by rw [loneSurrogate,numbers,List.any_cons,List.any_nil,Bool.or_false]
  | u :: lo :: us => by
    rw [loneSurrogate,numbers]
    split <;> rename_i pair
    · have beyond : surrogate (0x10000 + ((u - 0xD800) <<< 10) + (lo - 0xDC00)) = false := by
        simp only [surrogate,Bool.and_eq_false_iff,decide_eq_false_iff_not]
        omega
      rw [List.any_cons,beyond,Bool.false_or,loneNumbers us]
    · rw [List.any_cons,loneNumbers (lo :: us)]

/-! What is written for numbers is UTF-8 when none is a surrogate. -/

theorem putsAccepted {ns : List Nat} (small : ∀ n ∈ ns, n < 0x110000) : textencIsUtf8 (ns.flatMap putUtf8) = !ns.any surrogate := by
  induction ns with
  | nil => rw [List.flatMap_nil,textencIsUtf8]; rfl
  | cons n ns ih =>
    rw [List.flatMap_cons,putAccepted (small n List.mem_cons_self),ih fun m mem => small m (List.mem_cons_of_mem _ mem),
      List.any_cons,Bool.not_or]

theorem putsWell {ns : List Nat} (small : ∀ n ∈ ns, n < 0x110000) : WellFormed (ns.flatMap putUtf8) ↔ ns.any surrogate = false := by
  rw [← Bool.not_eq_true',← putsAccepted small]
  exact (isUtf8Iff _).symm

/-! A code page. -/

/-- Every character of the page is one of the basic plane and no surrogate. -/
def Basic (tbl : List Nat) : Prop := ∀ u ∈ tbl, u < 0x10000 ∧ surrogate u = false

instance (tbl : List Nat) : Decidable (Basic tbl) := inferInstanceAs (Decidable (∀ u ∈ tbl, _))

theorem pageBasic (page : CodePage) : Basic page.table := by
  cases page <;> decide +kernel

def pageNumber (tbl : List Nat) (b : UInt8) : Nat := if b < 0x80 then b.toNat else if lookup tbl b = 0 then 0xFFFD else lookup tbl b

theorem fromSingleByteNumbers (tbl : List Nat) (p : Bytes) : fromSingleByte tbl p = (p.map (pageNumber tbl)).flatMap putUtf8 := by
  rw [fromSingleByte,List.flatMap_map]
  congr 1
  funext b
  unfold pageNumber
  split <;> rename_i plain
  · have small : b.toNat < 0x80 := UInt8.lt_iff_toNat_lt.mp plain
    rw [putUtf8,if_pos small,UInt8.ofNat_toNat]
  · rfl

theorem pageNumberBasic {tbl : List Nat} (basic : Basic tbl) (b : UInt8) : pageNumber tbl b < 0x10000 ∧ surrogate (pageNumber tbl b) = false := by
  unfold pageNumber
  split
  · rename_i plain
    have small : b.toNat < 0x80 := UInt8.lt_iff_toNat_lt.mp plain
    refine ⟨by omega,?_⟩
    simp only [surrogate,Bool.and_eq_false_iff,decide_eq_false_iff_not]
    omega
  split
  · decide
  · rename_i some_
    exact basic _ (lookupMem some_)

theorem putLength (n : Nat) : (putUtf8 n).length ≤ 4 ∧ (n < 0x10000 → (putUtf8 n).length ≤ 3) := by
  unfold putUtf8
  split
  · simp
  split
  · simp
  split
  · simp
  · simp only [List.length_cons,List.length_nil]
    omega

theorem pageFits {tbl : List Nat} (basic : Basic tbl) (p : Bytes) : (fromSingleByte tbl p).length ≤ p.length * 3 := by
  rw [fromSingleByteNumbers]
  induction p with
  | nil => exact Nat.le_refl _
  | cons b p ih =>
    have one := (putLength (pageNumber tbl b)).2 (pageNumberBasic basic b).1
    rw [List.map_cons,List.flatMap_cons,List.length_append,List.length_cons]
    omega

theorem pageWell {tbl : List Nat} (basic : Basic tbl) (p : Bytes) : WellFormed (fromSingleByte tbl p) := by
  rw [fromSingleByteNumbers]
  have all : ∀ n ∈ p.map (pageNumber tbl), n < 0x10000 ∧ surrogate n = false := by
    intro n mem
    obtain ⟨b,_,rfl⟩ := List.mem_map.mp mem
    exact pageNumberBasic basic b
  refine (putsWell fun n mem => by have := (all n mem).1; omega).mpr (List.any_eq_false.mpr fun n mem => ?_)
  rw [(all n mem).2]
  decide

/-! UTF-16. -/

theorem numbersFit : (us : List Nat) → (∀ u ∈ us, u < 0x10000) → ((numbers us).flatMap putUtf8).length ≤ us.length * 4
  | [], _ => Nat.le_refl _
  | [u], _ => by
    have one := (putLength u).1
    simpa only [numbers,List.flatMap_cons,List.flatMap_nil,List.append_nil,List.length_singleton,Nat.one_mul] using one
  | u :: lo :: us, small => by
    rw [numbers]
    split
    · have one := (putLength (0x10000 + ((u - 0xD800) <<< 10) + (lo - 0xDC00))).1
      have rest := numbersFit us fun v m => small v (List.mem_cons_of_mem _ (List.mem_cons_of_mem _ m))
      rw [List.flatMap_cons,List.length_append,List.length_cons,List.length_cons]
      omega
    · have one := (putLength u).1
      have rest := numbersFit (lo :: us) fun v m => small v (List.mem_cons_of_mem _ m)
      rw [List.flatMap_cons,List.length_append,List.length_cons]
      omega

theorem unitsCount (little : Bool) : (p : Bytes) → (units little p).length * 2 ≤ p.length
  | [] => Nat.le_refl _
  | [_] => Nat.zero_le _
  | a :: b :: s => by
    have rest := unitsCount little s
    rw [units,List.length_cons,List.length_cons,List.length_cons]
    omega

theorem utf16Fits (little : Bool) (p : Bytes) : (fromUtf16 little p).length ≤ p.length * 2 := by
  have count := unitsCount little p
  have fit := numbersFit (units little p) (unitsSmall little p)
  rw [fromUtf16Numbers]
  omega

theorem unitBack (little : Bool) {u : Nat} (small : u < 0x10000) (s : Bytes) :
    units little (unitBytes little u ++ s) = u :: units little s := by
  have low : (UInt8.ofNat (u % 256)).toNat = u % 256 := UInt8.toNat_ofNat_of_lt' (Nat.mod_lt _ (by decide))
  have high : (UInt8.ofNat (u / 256)).toNat = u / 256 := UInt8.toNat_ofNat_of_lt' (show u / 256 < 256 by omega)
  cases little with
  | true =>
    rw [unitBytes,if_pos rfl,List.cons_append,List.cons_append,units,unit16Sum,if_pos rfl,low,high,List.nil_append]
    congr 1
    omega
  | false =>
    rw [unitBytes,if_neg nofun,List.cons_append,List.cons_append,units,unit16Sum,if_neg nofun,low,high,List.nil_append]
    congr 1
    omega

/-- The units of a character are read as its number. -/
theorem charNumber (c : Char) (us : List Nat) : numbers (utf16Units c ++ us) = c.toNat :: numbers us := by
  have num : c.val.toNat = c.toNat := rfl
  have valid : c.toNat < 0xD800 ∨ 0xDFFF < c.toNat ∧ c.toNat < 0x110000 := by
    rcases c.valid with low | ⟨above,below⟩ <;> omega
  unfold utf16Units
  split
  · have alone : leading c.toNat = false := by
      simp only [leading,Bool.and_eq_false_iff,decide_eq_false_iff_not]
      omega
    cases us with
    | nil => rfl
    | cons lo us => rw [List.singleton_append,numbers,alone,Bool.false_and,if_neg nofun]
  · have pair : (leading (0xD800 + (c.toNat - 0x10000) / 0x400) && trailing (0xDC00 + (c.toNat - 0x10000) % 0x400)) = true := by
      simp only [leading,trailing,Bool.and_eq_true,decide_eq_true_eq]
      omega
    have sum : 0x10000 + ((0xD800 + (c.toNat - 0x10000) / 0x400 - 0xD800) <<< 10) + (0xDC00 + (c.toNat - 0x10000) % 0x400 - 0xDC00) =
        c.toNat := by
      rw [Nat.shiftLeft_eq]
      omega
    simp only [List.cons_append,List.nil_append,numbers,pair,if_true,sum]

theorem charUnits (little : Bool) (c : Char) (s : Bytes) : units little (utf16EncodeChar little c ++ s) = utf16Units c ++ units little s := by
  have num : c.val.toNat = c.toNat := rfl
  have valid : c.toNat < 0x110000 := by
    rcases c.valid with low | ⟨above,below⟩ <;> omega
  unfold utf16EncodeChar utf16Units
  split
  · rename_i small
    rw [List.flatMap_singleton,unitBack little small]
    rfl
  · rw [List.flatMap_cons,List.flatMap_singleton,List.append_assoc,unitBack little (by omega),unitBack little (by omega)]
    rfl

/-- Well-formed UTF-16 becomes UTF-8 of the same characters. -/
theorem utf16Same (little : Bool) (cs : List Char) : fromUtf16 little (cs.flatMap (utf16EncodeChar little)) = cs.flatMap utf8EncodeChar := by
  rw [fromUtf16Numbers]
  induction cs with
  | nil => rfl
  | cons c cs ih => rw [List.flatMap_cons,charUnits,charNumber,List.flatMap_cons,ih,List.flatMap_cons,putChar]

/-! ### The whole -/

/-- The text fits the buffer with its zero, is UTF-8, and that of the same characters where it was well-formed UTF-16. -/
structure Transcoded (src : Source) (p : Bytes) : Prop where
  fits : (src.convert p).length + 1 ≤ src.room p
  utf8 : WellFormed (src.convert p)
  same : ∀ little, src = .utf16 little → ∀ cs : List Char, p = cs.flatMap (utf16EncodeChar little) →
    src.convert p = cs.flatMap utf8EncodeChar

/-- The conversion is as it should be unless a surrogate stands alone in UTF-16. -/
theorem transcodedIff (src : Source) (p : Bytes) :
    Transcoded src p ↔ ∀ little, src = .utf16 little → loneSurrogate (units little p) = false := by
  cases src with
  | page page => exact ⟨fun _ _ is => (nomatch is),fun _ => ⟨Nat.succ_le_succ (pageFits (pageBasic page) p),pageWell (pageBasic page) p,
      fun _ is => (nomatch is)⟩⟩
  | utf16 little =>
    have well : WellFormed (fromUtf16 little p) ↔ loneSurrogate (units little p) = false := by
      rw [fromUtf16Numbers,loneNumbers]
      exact putsWell (numbersSmall _ (unitsSmall little p))
    constructor
    · rintro done _ ⟨⟩
      exact well.mp done.utf8
    · intro paired
      refine ⟨Nat.succ_le_succ (utf16Fits little p),well.mpr (paired little rfl),?_⟩
      rintro _ ⟨⟩ cs rfl
      exact utf16Same little cs

/-- A text of UTF-16 that ends inside a pair. -/
theorem loneWritten : ¬ ∀ src p, Transcoded src p := by
  intro all
  have read := (isUtf8Iff _).mpr (all (.utf16 true) [0x00,0xD8]).utf8
  rw [Source.convert,fromUtf16Numbers,putsAccepted (numbersSmall _ (unitsSmall true _))] at read
  revert read
  decide

end Napastak.Textenc
