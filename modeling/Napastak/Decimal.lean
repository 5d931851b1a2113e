import Napastak.CStr

/-! `%lld` and `strtoll`. -/
namespace Napastak

def digit (d : Nat) : UInt8 := UInt8.ofNat (48 + d)

def decimalGo : Nat → Nat → Bytes
  | 0, n => [digit (n % 10)]
  | fuel + 1, n => if n < 10 then [digit n] else decimalGo fuel (n / 10) ++ [digit (n % 10)]

def decimal (n : Nat) : Bytes := decimalGo n n

/-- `snprintf("%lld",v)`. -/
def lld (v : Int64) : Bytes := if v.toInt < 0 then 45 :: decimal v.toInt.natAbs else decimal v.toInt.natAbs

def digitsValue (acc : Nat) : Bytes → Nat
  | [] => acc
  | c :: cs => if isdigit c then digitsValue (acc * 10 + (c.toNat - 48)) cs else acc

/-- A value outside the range of the result stops at its end. -/
def saturate (v : Int) : Int64 :=
  if v < -2 ^ 63 then Int64.minValue else if 2 ^ 63 ≤ v then Int64.maxValue else Int64.ofInt v

/-- `strtoll(s,NULL,10)`. -/
def strtoll (s : Bytes) : Int64 :=
  match s.dropWhile isspace with
  | 45 :: cs => saturate (-digitsValue 0 cs)
  | 43 :: cs => saturate (digitsValue 0 cs)
  | cs => saturate (digitsValue 0 cs)

theorem digitBounds {d : Nat} (h : d < 10) : 48 ≤ digit d ∧ digit d ≤ 57 := by
  have : (digit d).toNat = 48 + d := UInt8.toNat_ofNat_of_lt' (show 48 + d < 256 by omega)
  rw [UInt8.le_iff_toNat_le,UInt8.le_iff_toNat_le,this]
  exact ⟨Nat.le_add_right 48 d,show 48 + d ≤ 57 by omega⟩

theorem decimalBytes (fuel n : Nat) : ∀ c ∈ decimalGo fuel n, 48 ≤ c ∧ c ≤ 57 := by
  induction fuel generalizing n with
  | zero => intro c hc; rw [decimalGo,List.mem_singleton] at hc; subst hc; exact digitBounds (by omega)
  | succ fuel ih =>
    rw [decimalGo]
    split
    · intro c hc; rw [List.mem_singleton] at hc; subst hc; exact digitBounds ‹_›
    · intro c hc
      rcases List.mem_append.mp hc with h | h
      · exact ih _ c h
      · rw [List.mem_singleton] at h; subst h; exact digitBounds (by omega)

theorem decimalSome (fuel n : Nat) : decimalGo fuel n ≠ [] := by
  cases fuel with
  | zero => simp [decimalGo]
  | succ fuel => rw [decimalGo]; split <;> simp

/-- Signs and digits: nothing a row could be cut at. -/
theorem lldBytes (v : Int64) : ∀ c ∈ lld v, 45 ≤ c ∧ c ≤ 57 := by
  have wider : ∀ c ∈ decimal v.toInt.natAbs, 45 ≤ c ∧ c ≤ 57 := fun c hc =>
    ⟨UInt8.le_trans (by decide) (decimalBytes _ _ c hc).1,(decimalBytes _ _ c hc).2⟩
  rw [lld]
  split
  · intro c hc
    rcases List.mem_cons.mp hc with rfl | h
    · decide
    · exact wider c h
  · exact wider

theorem lldSome (v : Int64) : lld v ≠ [] := by
  rw [lld]
  split
  · simp
  · exact decimalSome _ _

theorem digitsAppend {xs : Bytes} (h : ∀ c ∈ xs, 48 ≤ c ∧ c ≤ 57) (acc : Nat) {d : Nat} (hd : d < 10) :
    digitsValue acc (xs ++ [digit d]) = digitsValue acc xs * 10 + d := by
  have value : (digit d).toNat - 48 = d := by simp only [digit,UInt8.toNat_ofNat']; omega
  induction xs generalizing acc with
  | nil =>
    have := digitBounds hd
    simp [digitsValue,isdigit,this,value]
  | cons c cs ih =>
    have hc := h c List.mem_cons_self
    simp only [List.cons_append,digitsValue,isdigit,hc,and_self,decide_true,if_true]
    exact ih (fun c hc => h c (List.mem_cons_of_mem _ hc)) _

theorem digitsDecimal {fuel n : Nat} (h : n ≤ fuel) : digitsValue 0 (decimalGo fuel n) = n := by
  have one : ∀ d < 10, digitsValue 0 [digit d] = d := fun d hd => by
    have := @digitsAppend [] (by simp) 0 _ hd
    simpa [digitsValue] using this
  induction fuel generalizing n with
  | zero => rw [decimalGo,one _ (by omega)]; omega
  | succ fuel ih =>
    rw [decimalGo]
    split
    · exact one n ‹_›
    · rw [digitsAppend (decimalBytes _ _) 0 (by omega),ih (by omega)]
      omega

theorem saturateSelf (v : Int64) : saturate v.toInt = v := by
  have lo := v.le_toInt
  have hi := v.toInt_lt
  simp only [saturate]
  rw [if_neg (by omega),if_neg (by omega),Int64.ofInt_toInt]

theorem digitNoSpace {c : UInt8} (h : 48 ≤ c) : isspace c = false ∧ c ≠ 45 ∧ c ≠ 43 := by
  have lo : 48 ≤ c.toNat := UInt8.le_iff_toNat_le.mp h
  have ne : ∀ d : UInt8, d.toNat < 48 → c ≠ d := fun d hd e => by subst e; omega
  refine ⟨?_,ne 45 (by decide),ne 43 (by decide)⟩
  simp only [isspace,decide_eq_false_iff_not]
  rintro (e | ⟨_,le⟩)
  · exact ne 32 (by decide) e
  · have : c.toNat ≤ 13 := UInt8.le_iff_toNat_le.mp le
    omega

theorem digitsStop {xs r : Bytes} (h : ∀ c ∈ xs, 48 ≤ c ∧ c ≤ 57) (stop : ∀ y, r.head? = some y → isdigit y = false) (acc : Nat) :
    digitsValue acc (xs ++ r) = digitsValue acc xs := by
  induction xs generalizing acc with
  | nil =>
    cases r with
    | nil => rfl
    | cons y r => simp only [List.nil_append,digitsValue,stop y rfl,Bool.false_eq_true,if_false]
  | cons c cs ih =>
    have hc := h c List.mem_cons_self
    simp only [List.cons_append,digitsValue,isdigit,hc,and_self,decide_true,if_true]
    exact ih (fun c hc => h c (List.mem_cons_of_mem _ hc)) _

/-- A printed integer reads back as itself wherever no digit follows. -/
theorem strtollStops (v : Int64) {r : Bytes} (stop : ∀ y, r.head? = some y → isdigit y = false) : strtoll (lld v ++ r) = v := by
  have value : digitsValue 0 (decimal v.toInt.natAbs ++ r) = v.toInt.natAbs :=
    (digitsStop (decimalBytes _ _) stop 0).trans (digitsDecimal (Nat.le_refl _))
  rw [lld]
  split
  · rename_i neg
    have skip : (45 :: (decimal v.toInt.natAbs ++ r)).dropWhile isspace = 45 :: (decimal v.toInt.natAbs ++ r) := rfl
    rw [List.cons_append,strtoll,skip]
    simp only [value]
    rw [show -(v.toInt.natAbs : Int) = v.toInt by omega,saturateSelf]
  · rename_i pos
    cases h : decimal v.toInt.natAbs with
    | nil => exact absurd h (decimalSome _ _)
    | cons c cs =>
      obtain ⟨space,minus,plus⟩ := digitNoSpace (decimalBytes _ _ c (h ▸ List.mem_cons_self)).1
      have skip : (c :: (cs ++ r)).dropWhile isspace = c :: (cs ++ r) := by rw [List.dropWhile_cons,space]; rfl
      rw [List.cons_append,strtoll,skip]
      split
      · rename_i e; cases e; exact absurd rfl minus
      · rename_i e; cases e; exact absurd rfl plus
      · rw [← List.cons_append,← h,value,show (v.toInt.natAbs : Int) = v.toInt by omega,saturateSelf]

/-- A printed integer reads back as itself. -/
theorem strtollLld (v : Int64) : strtoll (lld v) = v := by
  have read := strtollStops v (r := []) fun y h => nomatch h
  rwa [List.append_nil] at read

theorem decimalShort {k n : Nat} (fuel : Nat) (less : n < 10 ^ (k + 1)) (enough : n ≤ fuel) :
    (decimalGo fuel n).length ≤ k + 1 := by
  induction k generalizing fuel n with
  | zero =>
    cases fuel with
    | zero => exact Nat.le_refl _
    | succ fuel => rw [decimalGo,if_pos (by simpa using less)]; exact Nat.le_refl _
  | succ k ih =>
    cases fuel with
    | zero => exact Nat.succ_le_succ (Nat.zero_le _)
    | succ fuel =>
      rw [decimalGo]
      split
      · exact Nat.succ_le_succ (Nat.zero_le _)
      · rw [List.length_append,List.length_singleton]
        exact Nat.succ_le_succ (ih fuel (Nat.div_lt_of_lt_mul (by rw [Nat.mul_comm,← Nat.pow_succ]; exact less)) (by omega))

theorem lldShort (v : Int64) : (lld v).length ≤ 20 := by
  have lo := v.le_toInt
  have hi := v.toInt_lt
  have digits : (decimal v.toInt.natAbs).length ≤ 19 := decimalShort (k := 18) _ (by omega) (Nat.le_refl _)
  rw [lld]
  split
  · rw [List.length_cons]
    omega
  · omega

end Napastak
