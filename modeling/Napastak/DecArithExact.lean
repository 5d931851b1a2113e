import Napastak.DecArith
import Mathlib.Data.List.TakeWhile
import Mathlib.Tactic.Positivity

/-! When the arithmetic of decimals is exact, and when its texts read back. -/
namespace Napastak.DecArith
open Query (blank)

/-! ### Digits -/

/-- The value of digits by themselves. -/
def dv (xs : Bytes) : Nat := digitsValue 0 xs

def Digits (xs : Bytes) : Prop := ∀ c ∈ xs, isdigit c = true

theorem digitsOnto {xs : Bytes} (digits : Digits xs) (acc : Nat) : digitsValue acc xs = acc * 10 ^ xs.length + dv xs := by
  induction xs generalizing acc with
  | nil => simp [digitsValue,dv]
  | cons c xs ih =>
    have tail : Digits xs := fun d mem => digits d (List.mem_cons_of_mem _ mem)
    have own := digits c List.mem_cons_self
    rw [dv]
    simp only [digitsValue,own,if_true]
    rw [ih tail,ih tail (0 * 10 + (c.toNat - 48)),List.length_cons,Nat.pow_succ]
    ring

theorem digitsCat {xs ys : Bytes} (left : Digits xs) (right : Digits ys) : Digits (xs ++ ys) := fun c mem =>
  (List.mem_append.mp mem).elim (left c) (right c)

theorem digitsValueAppend {xs : Bytes} (left : Digits xs) (acc : Nat) (ys : Bytes) :
    digitsValue acc (xs ++ ys) = digitsValue (digitsValue acc xs) ys := by
  induction xs generalizing acc with
  | nil => rfl
  | cons c xs ih =>
    have own := left c List.mem_cons_self
    simp only [List.cons_append,digitsValue,own,if_true]
    exact ih (fun d mem => left d (List.mem_cons_of_mem _ mem)) _

theorem dvCat {xs ys : Bytes} (left : Digits xs) (right : Digits ys) : dv (xs ++ ys) = dv xs * 10 ^ ys.length + dv ys := by
  rw [dv,digitsValueAppend left,digitsOnto right]
  rfl

theorem digitRange {c : UInt8} (own : isdigit c = true) : c.toNat - 48 < 10 := by
  have := of_decide_eq_true own
  have high : c.toNat ≤ 57 := UInt8.le_iff_toNat_le.mp this.2
  omega

theorem dvLess {xs : Bytes} (digits : Digits xs) : dv xs < 10 ^ xs.length := by
  induction xs with
  | nil => exact Nat.one_pos
  | cons c xs ih =>
    have tail : Digits xs := fun d mem => digits d (List.mem_cons_of_mem _ mem)
    have own := digits c List.mem_cons_self
    have less := ih tail
    have small := digitRange own
    rw [dv]
    simp only [digitsValue,own,if_true]
    rw [digitsOnto tail,List.length_cons,Nat.zero_mul,Nat.zero_add]
    calc (c.toNat - 48) * 10 ^ xs.length + dv xs
        < (c.toNat - 48) * 10 ^ xs.length + 10 ^ xs.length := Nat.add_lt_add_left less _
      _ = (c.toNat - 48 + 1) * 10 ^ xs.length := (Nat.succ_mul ..).symm
      _ ≤ 10 * 10 ^ xs.length := Nat.mul_le_mul_right _ small
      _ = 10 ^ (xs.length + 1) := (Nat.pow_succ').symm

theorem digitIs {d : Nat} (less : d < 10) : isdigit (digit d) = true ∧ (digit d).toNat - 48 = d := by
  obtain ⟨low,high⟩ := digitBounds less
  refine ⟨decide_eq_true ⟨low,high⟩,?_⟩
  simp only [digit,UInt8.toNat_ofNat']
  omega

theorem dvOne {d : Nat} (less : d < 10) : dv [digit d] = d := by
  obtain ⟨own,value⟩ := digitIs less
  simp [dv,digitsValue,own,value]

theorem dvZeros (n : Nat) : dv (List.replicate n 48) = 0 := by
  induction n with
  | zero => rfl
  | succ n ih => exact ih

theorem zerosDigits (n : Nat) : Digits (List.replicate n 48) := fun c mem => by
  rw [List.eq_of_mem_replicate mem]
  rfl

theorem dvNone {xs : Bytes} (digits : Digits xs) (none_ : dv xs = 0) : ∀ c ∈ xs, c = 48 := by
  induction xs with
  | nil => exact nofun
  | cons c xs ih =>
    have tail : Digits xs := fun d mem => digits d (List.mem_cons_of_mem _ mem)
    have own := digits c List.mem_cons_self
    rw [dv] at none_
    simp only [digitsValue,own,if_true] at none_
    rw [digitsOnto tail] at none_
    have power : 0 < 10 ^ xs.length := Nat.pow_pos (by decide)
    have first : c.toNat - 48 = 0 := by
      by_contra some_
      have : 0 < (0 * 10 + (c.toNat - 48)) * 10 ^ xs.length := Nat.mul_pos (by omega) power
      omega
    have rest : dv xs = 0 := by omega
    intro d mem
    rcases List.mem_cons.mp mem with rfl | mem
    · have low : 48 ≤ d.toNat := UInt8.le_iff_toNat_le.mp (of_decide_eq_true own).1
      exact UInt8.toNat_inj.mp (show d.toNat = 48 by omega)
    · exact ih tail rest d mem

/-! ### Reading -/

theorem int128Self {x : Int} (range : InRange x) : int128 x = x := by
  obtain ⟨low,high⟩ := range
  rw [int128,Int.emod_eq_of_lt (by omega) (by omega)]
  omega

theorem nextDigit {n : Nat} {c : UInt8} {ndig : Nat} (own : isdigit c = true) (less : n < 10 ^ ndig) (few : ndig + 1 ≤ 30) :
    int128 (int128 ((n : Int) * 10) + (c.toNat - 48 : Nat)) = ((n * 10 + (c.toNat - 48) : Nat) : Int) ∧
      n * 10 + (c.toNat - 48) < 10 ^ (ndig + 1) := by
  have small := digitRange own
  have bound : n * 10 + (c.toNat - 48) < 10 ^ (ndig + 1) := by
    rw [Nat.pow_succ]
    omega
  have power : 10 ^ (ndig + 1) ≤ 10 ^ 30 := Nat.pow_le_pow_right (by decide) few
  have large : 10 ^ 30 < 2 ^ 127 := by decide
  have first : int128 ((n : Int) * 10) = ((n * 10 : Nat) : Int) := by
    rw [int128Self ⟨by omega,by omega⟩]
    omega
  refine ⟨?_,bound⟩
  rw [first,int128Self ⟨by omega,by omega⟩]
  omega

theorem parseFrac (s : Bytes) {n scale ndig : Nat} (less : n < 10 ^ ndig) (few : ndig ≤ 30) :
    parseLoop s n scale ndig true = if s.all isdigit = true ∧ ndig + s.length ≤ 30 then
      some (((digitsValue n s : Nat) : Int),scale + s.length,ndig + s.length) else none := by
  induction s generalizing n scale ndig with
  | nil => simp [parseLoop,digitsValue,few]
  | cons c s ih =>
    rw [parseLoop.eq_def]
    by_cases point : c = 46
    · subst point
      simp [isdigit]
    · cases own : isdigit c with
      | false => simp [point,own]
      | true =>
        simp only [point,if_false,own,Bool.true_eq_false,if_true]
        by_cases more : 30 < ndig + 1
        · rw [if_pos more,if_neg fun all => by
            rw [List.length_cons] at all
            omega]
        · obtain ⟨value,next⟩ := nextDigit own less (Nat.not_lt.mp more)
          rw [if_neg more,value,ih next (Nat.not_lt.mp more)]
          simp only [List.all_cons,own,Bool.true_and,List.length_cons,digitsValue,if_true]
          rw [show ndig + 1 + s.length = ndig + (s.length + 1) by omega,show scale + 1 + s.length = scale + (s.length + 1) by omega]

/-- The parts of a text without its sign. -/
def intPart (p : Bytes) : Bytes := p.takeWhile isdigit

def fracPart (p : Bytes) : Bytes := (p.dropWhile isdigit).drop 1

/-- Digits with at most one point. -/
def Plain (p : Bytes) : Prop := (p.dropWhile isdigit).head?.getD 46 = 46 ∧ (fracPart p).all isdigit = true

instance (p : Bytes) : Decidable (Plain p) := inferInstanceAs (Decidable (_ ∧ _))

theorem parseInt (p : Bytes) {n scale ndig : Nat} (less : n < 10 ^ ndig) (few : ndig ≤ 30) :
    parseLoop p n scale ndig false = if Plain p ∧ ndig + (intPart p ++ fracPart p).length ≤ 30 then
      some (((digitsValue n (intPart p ++ fracPart p) : Nat) : Int),scale + (fracPart p).length,ndig + (intPart p ++ fracPart p).length)
      else none := by
  induction p generalizing n scale ndig with
  | nil => simp [parseLoop,digitsValue,few,Plain,intPart,fracPart]
  | cons c p ih =>
    rw [parseLoop.eq_def]
    by_cases point : c = 46
    · subst point
      have int : intPart (46 :: p) = [] := rfl
      have frac : fracPart (46 :: p) = p := rfl
      have plain : Plain (46 :: p) ↔ p.all isdigit = true := ⟨fun plain => plain.2,fun all => ⟨rfl,all⟩⟩
      dsimp only
      rw [if_pos rfl,if_neg Bool.false_ne_true,parseFrac p less few,int,frac,List.nil_append]
      simp only [plain]
    · cases own : isdigit c with
      | false =>
        have plain : ¬Plain (c :: p) := fun plain => point (by simpa [own] using plain.1)
        simp [point,own,plain]
      | true =>
        have int : intPart (c :: p) = c :: intPart p := List.takeWhile_cons_of_pos own
        have rest : (c :: p).dropWhile isdigit = p.dropWhile isdigit := List.dropWhile_cons_of_pos own
        have frac : fracPart (c :: p) = fracPart p := congrArg (List.drop 1) rest
        have plain : Plain (c :: p) ↔ Plain p := by rw [Plain,Plain,rest,frac]
        simp only [point,if_false,own,Bool.true_eq_false,int,frac,plain,List.cons_append,List.length_cons]
        by_cases more : 30 < ndig + 1
        · rw [if_pos more,if_neg fun all => by omega]
        · obtain ⟨value,next⟩ := nextDigit own less (Nat.not_lt.mp more)
          rw [if_neg more,value,ih next (Nat.not_lt.mp more)]
          simp only [digitsValue,own,if_true,Bool.false_eq_true,if_false]
          rw [show ndig + 1 + (intPart p ++ fracPart p).length = ndig + ((intPart p ++ fracPart p).length + 1) by omega]

/-- The text behind blanks and sign. -/
def bare (s : Bytes) : Bytes := (signed (s.dropWhile blank)).2

def isNegative (s : Bytes) : Bool := (signed (s.dropWhile blank)).1

/-- The digits of a text. -/
def allDigits (s : Bytes) : Bytes := intPart (bare s) ++ fracPart (bare s)

theorem partsDigits {p : Bytes} (plain : Plain p) : Digits (intPart p ++ fracPart p) :=
  digitsCat (fun _ mem => List.mem_takeWhile_imp mem) (List.all_eq_true.mp plain.2)

theorem numeralIs (s : Bytes) : numeral s = if Plain (bare s) ∧ allDigits s ≠ [] then
    some ((if isNegative s then -1 else 1) * (dv (allDigits s) : ℚ) / 10 ^ (fracPart (bare s)).length) else none := by
  simp only [numeral,Plain,and_assoc]
  rfl

theorem decParseIs (s : Bytes) : decParse s = if Plain (bare s) ∧ allDigits s ≠ [] ∧ (allDigits s).length ≤ 30 then
    some ⟨if isNegative s then -(dv (allDigits s) : Int) else dv (allDigits s),(fracPart (bare s)).length⟩ else none := by
  rw [decParse]
  split
  · rename_i none_
    subst none_
    rfl
  · have parsed := @parseInt (bare s) 0 0 0 Nat.one_pos (Nat.zero_le _)
    have sign : signed (s.dropWhile blank) = (isNegative s,bare s) := rfl
    change parseLoop (bare s) 0 0 0 false = _ at parsed
    rw [sign]
    dsimp only
    rw [parsed]
    by_cases plain : Plain (bare s)
    · by_cases few : (allDigits s).length ≤ 30
      · have digits : Digits (allDigits s) := partsDigits plain
        have less := dvLess digits
        have power : 10 ^ (allDigits s).length ≤ 10 ^ 30 := Nat.pow_le_pow_right (by decide) few
        have large : 10 ^ 30 < 2 ^ 127 := by decide
        have negative : int128 (-(dv (allDigits s) : Int)) = -(dv (allDigits s) : Int) := int128Self ⟨by omega,by omega⟩
        rw [if_pos ⟨plain,by rw [Nat.zero_add]; exact few⟩]
        simp only [Nat.zero_add,List.length_eq_zero_iff]
        show (if allDigits s = [] then none
          else some (Dec.mk (if isNegative s then int128 (-(dv (allDigits s) : Int)) else dv (allDigits s)) (fracPart (bare s)).length)) = _
        by_cases empty : allDigits s = []
        · rw [if_pos empty,if_neg fun all => all.2.1 empty]
        · rw [if_neg empty,negative]
          exact (if_pos ⟨plain,empty,few⟩).symm
      · rw [if_neg fun all => few (Nat.zero_add (allDigits s).length ▸ all.2),if_neg fun all => few all.2.2]
    · rw [if_neg fun all => plain all.1,if_neg fun all => plain all.1]

theorem parsedValue {s : Bytes} {d : Dec} (is : decParse s = some d) :
    numeral s = some d.value ∧ -10 ^ 30 < d.mant ∧ d.mant < 10 ^ 30 ∧ d.scale ≤ 30 := by
  rw [decParseIs] at is
  split at is
  · rename_i all
    obtain ⟨plain,some_,few⟩ := all
    cases is
    have less := dvLess (partsDigits plain)
    have power : 10 ^ (allDigits s).length ≤ 10 ^ 30 := Nat.pow_le_pow_right (by decide) few
    have parts : (allDigits s).length = (intPart (bare s)).length + (fracPart (bare s)).length := List.length_append
    have less' : dv (allDigits s) < 10 ^ 30 := Nat.lt_of_lt_of_le less power
    refine ⟨?_,?_,?_,by dsimp only; omega⟩
    · rw [numeralIs,if_pos ⟨plain,some_⟩,Dec.value]
      cases isNegative s <;> simp
    · dsimp only
      split <;> omega
    · dsimp only
      split <;> omega
  · cases is

theorem numeralParsed {s : Bytes} {x : ℚ} (is : numeral s = some x) (few : (allDigits s).length ≤ 30) :
    ∃ d, decParse s = some d ∧ d.value = x := by
  have all : Plain (bare s) ∧ allDigits s ≠ [] := by
    rw [numeralIs] at is
    split at is
    · assumption
    · cases is
  have parsed := decParseIs s
  rw [if_pos ⟨all.1,all.2,few⟩] at parsed
  refine ⟨_,parsed,?_⟩
  rw [(parsedValue parsed).1] at is
  exact Option.some.inj is

/-! ### Printing -/

theorem lowSpec (n m : Nat) (less : m < 10 ^ n) :
    Digits (lowDigits n m) ∧ dv (lowDigits n m).reverse = m ∧ (m ≠ 0 → 10 ^ (lowDigits n m).length ≤ m * 10) ∧
      (lowDigits n m).length ≤ n := by
  induction n generalizing m with
  | zero =>
    have zero : m = 0 := by omega
    subst zero
    exact ⟨nofun,rfl,fun some_ => absurd rfl some_,Nat.le_refl _⟩
  | succ n ih =>
    rw [lowDigits]
    split
    · rename_i zero
      subst zero
      exact ⟨nofun,rfl,fun some_ => absurd rfl some_,Nat.zero_le _⟩
    · have mod : m % 10 < 10 := Nat.mod_lt _ (by decide)
      obtain ⟨digits,value,large,short⟩ := ih (m / 10) (by rw [Nat.pow_succ] at less; omega)
      have one : Digits [digit (m % 10)] := fun c mem => by
        rw [List.mem_singleton.mp mem]
        exact (digitIs mod).1
      refine ⟨fun c mem => ?_,?_,fun _ => ?_,by rw [List.length_cons]; omega⟩
      · rcases List.mem_cons.mp mem with rfl | mem
        · exact (digitIs mod).1
        · exact digits c mem
      · rw [List.reverse_cons,dvCat (fun c mem => digits c (List.mem_reverse.mp mem)) one,value,dvOne mod]
        show m / 10 * 10 ^ 1 + m % 10 = m
        omega
      · rw [List.length_cons,Nat.pow_succ]
        by_cases zero : m / 10 = 0
        · have empty : lowDigits n (m / 10) = [] := by
            rw [zero]
            cases n <;> rfl
          rw [empty]
          show 1 * 10 ≤ m * 10
          omega
        · have := large zero
          omega

/-- The digits of a number that the buffer takes: its value, one before the point, no zero in front of several. -/
theorem decDigitsSpec {d : Dec} (low : -2 ^ 127 < d.mant) (high : d.mant < 2 ^ 127) :
    Digits (decDigits d) ∧ dv (decDigits d).reverse = d.mant.natAbs ∧ d.scale < (decDigits d).length ∧
      (d.scale + 1 < (decDigits d).length → 10 ^ (decDigits d).length ≤ d.mant.natAbs * 10) ∧
      (decDigits d).length ≤ max 48 (d.scale + 1) := by
  have large : (2 : Nat) ^ 127 < 10 ^ 48 := by decide
  have magnitude : (if d.mant < 0 then int128 (-d.mant) else d.mant) = (d.mant.natAbs : Int) := by
    split
    · rw [int128Self ⟨by omega,by omega⟩]
      omega
    · omega
  have digits : Digits (if (d.mant.natAbs : Int) = 0 then [48] else lowDigits 48 d.mant.natAbs) ∧
      dv (if (d.mant.natAbs : Int) = 0 then [48] else lowDigits 48 d.mant.natAbs).reverse = d.mant.natAbs ∧
      (1 < (if (d.mant.natAbs : Int) = 0 then [48] else lowDigits 48 d.mant.natAbs).length →
        10 ^ (if (d.mant.natAbs : Int) = 0 then [48] else lowDigits 48 d.mant.natAbs).length ≤ d.mant.natAbs * 10) ∧
      (if (d.mant.natAbs : Int) = 0 then [48] else lowDigits 48 d.mant.natAbs).length ≤ 48 := by
    split
    · rename_i zero
      refine ⟨zerosDigits 1,?_,fun more => absurd more (by decide),by decide⟩
      show dv [48] = _
      rw [Int.natCast_eq_zero.mp zero]
      rfl
    · rename_i some_
      obtain ⟨all,value,top,short⟩ := lowSpec 48 d.mant.natAbs (by omega)
      exact ⟨all,value,fun _ => top fun zero => some_ (by omega),short⟩
  obtain ⟨all,value,top,short⟩ := digits
  have is : decDigits d = (if (d.mant.natAbs : Int) = 0 then [48] else lowDigits 48 d.mant.natAbs) ++
      List.replicate (d.scale + 1 - (if (d.mant.natAbs : Int) = 0 then [48] else lowDigits 48 d.mant.natAbs).length) 48 := by
    rw [decDigits]
    simp only [magnitude,Int.toNat_natCast]
  rw [is]
  generalize (if (d.mant.natAbs : Int) = 0 then [48] else lowDigits 48 d.mant.natAbs) = ds at all value top short
  refine ⟨digitsCat all (zerosDigits _),?_,?_,fun more => ?_,?_⟩
  · rw [List.reverse_append,List.reverse_replicate,dvCat (zerosDigits _) fun c mem => all c (List.mem_reverse.mp mem),dvZeros,value,
      Nat.zero_mul,Nat.zero_add]
  · rw [List.length_append,List.length_replicate]
    omega
  · rw [List.length_append,List.length_replicate] at more ⊢
    have none_ : d.scale + 1 - ds.length = 0 := by omega
    rw [none_,Nat.add_zero]
    exact top (by omega)
  · rw [List.length_append,List.length_replicate]
    omega

/-- A text of a sign, digits and perhaps a point with digits. -/
def shown (neg : Bool) (int frac : Bytes) : Bytes := (if neg then [45] else []) ++ int ++ if frac = [] then [] else 46 :: frac

theorem digitHead {c : UInt8} (own : isdigit c = true) : blank c = false ∧ c ≠ 43 ∧ c ≠ 45 := by
  have low : 48 ≤ c.toNat := UInt8.le_iff_toNat_le.mp (of_decide_eq_true own).1
  have ne : ∀ d : UInt8, d.toNat < 48 → c ≠ d := fun d less same => by subst same; omega
  exact ⟨by simp [blank,ne 32 (by decide),ne 9 (by decide)],ne 43 (by decide),ne 45 (by decide)⟩

theorem shownParts {neg : Bool} {int frac : Bytes} (left : Digits int) (right : Digits frac) (some_ : int ≠ []) :
    isNegative (shown neg int frac) = neg ∧ intPart (bare (shown neg int frac)) = int ∧ fracPart (bare (shown neg int frac)) = frac ∧
      Plain (bare (shown neg int frac)) := by
  obtain ⟨c,rest,rfl⟩ := List.exists_cons_of_ne_nil some_
  obtain ⟨solid,plus,minus⟩ := digitHead (left c List.mem_cons_self)
  have sign : signed ((shown neg (c :: rest) frac).dropWhile blank) = (neg,c :: rest ++ if frac = [] then [] else 46 :: frac) := by
    cases neg with
    | true => rfl
    | false =>
      have solid_ : (shown false (c :: rest) frac).dropWhile blank = c :: (rest ++ if frac = [] then [] else 46 :: frac) := by
        simp [shown,solid]
      rw [solid_,signed.eq_def]
      split
      · rename_i is
        cases is
        exact absurd rfl plus
      · rename_i is
        cases is
        exact absurd rfl minus
      · rfl
  have bare_ : bare (shown neg (c :: rest) frac) = c :: rest ++ if frac = [] then [] else 46 :: frac := congrArg Prod.snd sign
  have takes : intPart (bare (shown neg (c :: rest) frac)) = c :: rest := by
    rw [bare_,intPart,List.takeWhile_append_of_pos left]
    split
    · simp
    · simp [isdigit]
  have drops : (bare (shown neg (c :: rest) frac)).dropWhile isdigit = if frac = [] then [] else 46 :: frac := by
    rw [bare_,List.dropWhile_append_of_pos left]
    split
    · rfl
    · simp [isdigit]
  have frac_ : fracPart (bare (shown neg (c :: rest) frac)) = frac := by
    rw [fracPart,drops]
    split
    · rename_i none_
      rw [none_]
      rfl
    · rfl
  refine ⟨congrArg Prod.fst sign,takes,frac_,?_,by rw [frac_]; exact List.all_eq_true.mpr right⟩
  rw [drops]
  split <;> rfl

/-- What `dec_str` keeps of the digits behind the point. -/
def keptFrac (d : Dec) : Bytes := ((decDigits d).take d.scale).dropWhile (· = 48)

theorem shownNot {neg : Bool} {int frac : Bytes} (left : Digits int) (some_ : int ≠ []) (value : neg = true → dv (int ++ frac) ≠ 0) :
    shown neg int frac ≠ [45,48] := by
  obtain ⟨c,rest,rfl⟩ := List.exists_cons_of_ne_nil some_
  intro same
  cases neg with
  | true =>
    by_cases none_ : frac = []
    · subst none_
      have zero : c :: rest = [48] := by simpa [shown] using same
      rw [zero] at value
      exact value rfl rfl
    · simp [shown,none_] at same
  | false =>
    have first : c = 45 := by
      have head := congrArg List.head? same
      simpa [shown] using head
    exact (digitHead (left c List.mem_cons_self)).2.2 first

/-- The trailing zeros and what is shown make up the digits. -/
theorem decParts {d : Dec} (low : -2 ^ 127 < d.mant) (high : d.mant < 2 ^ 127) :
    let int := ((decDigits d).drop d.scale).reverse
    let frac := (keptFrac d).reverse
    decStr d = shown (decide (d.mant < 0)) int frac ∧ Digits int ∧ Digits frac ∧ int ≠ [] ∧ frac.length ≤ d.scale ∧
      dv (int ++ frac) * 10 ^ (d.scale - frac.length) = d.mant.natAbs ∧
      (1 < int.length → 10 ^ (int ++ frac).length ≤ dv (int ++ frac) * 10) := by
  intro int frac
  obtain ⟨all,value,longer,top,_⟩ := decDigitsSpec low high
  have int_ : Digits int := fun c mem => all c (List.mem_of_mem_drop (List.mem_reverse.mp mem))
  have frac_ : Digits frac := fun c mem =>
    all c (List.mem_of_mem_take ((List.dropWhile_sublist _).subset (List.mem_reverse.mp mem)))
  have some_ : int ≠ [] := by simpa [int] using longer
  have zeros : ∀ c ∈ ((decDigits d).take d.scale).takeWhile (· = 48), c = 48 := fun c mem => by simpa using List.mem_takeWhile_imp mem
  obtain ⟨z,is⟩ : ∃ z, ((decDigits d).take d.scale).takeWhile (· = 48) = List.replicate z 48 := ⟨_,List.eq_replicate_iff.mpr ⟨rfl,zeros⟩⟩
  have cut : List.replicate z 48 ++ keptFrac d = (decDigits d).take d.scale := is ▸ List.takeWhile_append_dropWhile
  have length : z + frac.length = d.scale := by
    have lengths := congrArg List.length cut
    simp only [List.length_append,List.length_replicate,List.length_take] at lengths
    simp only [frac,List.length_reverse]
    omega
  have whole : (decDigits d).reverse = int ++ frac ++ List.replicate z 48 := by
    conv => lhs; rw [← List.take_append_drop d.scale (decDigits d),← cut]
    simp [int,frac]
  have sum : dv (int ++ frac) * 10 ^ z = d.mant.natAbs := by
    rw [← value,whole,dvCat (digitsCat int_ frac_) (zerosDigits z),dvZeros,List.length_replicate,Nat.add_zero]
  have short : frac.length ≤ d.scale := by omega
  refine ⟨?_,int_,frac_,some_,short,?_,fun more => ?_⟩
  · have buf : decStr d = if shown (decide (d.mant < 0)) int frac = [45,48] then [48] else shown (decide (d.mant < 0)) int frac := by
      simp only [decStr,shown,decide_eq_true_eq,frac,int,List.reverse_eq_nil_iff]
      rfl
    rw [buf,if_neg (shownNot int_ some_ fun neg none_ => ?_)]
    rw [none_,Nat.zero_mul] at sum
    have := of_decide_eq_true neg
    omega
  · rw [show d.scale - frac.length = z by omega]
    exact sum
  · have long : (int ++ frac).length + z = (decDigits d).length := by
      have lengths := congrArg List.length whole
      rw [List.length_reverse,List.length_append,List.length_replicate] at lengths
      exact lengths.symm
    have drop : int.length = (decDigits d).length - d.scale := by simp [int]
    have large := top (by omega)
    rw [← long,Nat.pow_add,← sum] at large
    refine Nat.le_of_mul_le_mul_right ?_ (Nat.pow_pos (by decide : 0 < 10) (n := z))
    calc 10 ^ (int ++ frac).length * 10 ^ z ≤ dv (int ++ frac) * 10 ^ z * 10 := large
      _ = dv (int ++ frac) * 10 * 10 ^ z := by ring

theorem decStrValue {d : Dec} (low : -2 ^ 127 < d.mant) (high : d.mant < 2 ^ 127) : numeral (decStr d) = some d.value := by
  obtain ⟨str,int,frac,some_,short,value,_⟩ := decParts low high
  obtain ⟨neg,intIs,fracIs,plain⟩ := @shownParts (decide (d.mant < 0)) _ _ int frac some_
  rw [← str] at neg intIs fracIs plain
  have digits : allDigits (decStr d) = _ ++ _ := congrArg₂ (· ++ ·) intIs fracIs
  rw [numeralIs,if_pos ⟨plain,by rw [digits]; simp [some_]⟩,digits,neg,fracIs,Dec.value]
  refine congrArg some ?_
  have cast : (d.mant : ℚ) = (if decide (d.mant < 0) = true then -1 else 1) * (d.mant.natAbs : ℚ) := by
    rw [← Int.cast_natCast (R := ℚ)]
    split
    · rename_i is
      have := of_decide_eq_true is
      rw [show (d.mant.natAbs : Int) = -d.mant by omega]
      push_cast
      ring
    · rename_i is
      rw [show (d.mant.natAbs : Int) = d.mant by simp at is; omega,one_mul]
  rw [cast,← value,div_eq_div_iff (by positivity) (by positivity)]
  push_cast
  rw [mul_assoc,mul_assoc,mul_assoc,← pow_add,Nat.sub_add_cancel short]

/-! ### Arithmetic -/

/-- The number that the digits of a text make, with its sign. -/
def written (s : Bytes) : Int := if isNegative s then -(dv (allDigits s) : Int) else dv (allDigits s)

/-- How many of the digits stand behind the point. -/
def places (s : Bytes) : Nat := (fracPart (bare s)).length

/-- A numeral of at most thirty digits. -/
def Accepted (s : Bytes) : Prop := Plain (bare s) ∧ allDigits s ≠ [] ∧ (allDigits s).length ≤ 30

instance (s : Bytes) : Decidable (Accepted s) := inferInstanceAs (Decidable (_ ∧ _ ∧ _))

/-- The product, or both aligned numbers and their sum, stay below `2^127`. -/
def FitsAt (m n : Int) (j k : Nat) : Op → Prop
  | .mul => j + k ≤ 30 → (m * n).natAbs < 2 ^ 127
  | .add => (m * 10 ^ (max j k - j)).natAbs < 2 ^ 127 ∧ (n * 10 ^ (max j k - k)).natAbs < 2 ^ 127 ∧
      (m * 10 ^ (max j k - j) + n * 10 ^ (max j k - k)).natAbs < 2 ^ 127
  | .sub => (m * 10 ^ (max j k - j)).natAbs < 2 ^ 127 ∧ (n * 10 ^ (max j k - k)).natAbs < 2 ^ 127 ∧
      (m * 10 ^ (max j k - j) - n * 10 ^ (max j k - k)).natAbs < 2 ^ 127

def Fits (s t : Bytes) (op : Op) : Prop :=
  Accepted s → Accepted t → FitsAt (written s) (written t) (places s) (places t) op

theorem decParseAccepted (s : Bytes) : decParse s = if Accepted s then some ⟨written s,places s⟩ else none := decParseIs s

theorem insideRange {x : Int} (inside : x.natAbs < 2 ^ 127) : InRange x := ⟨by omega,by omega⟩

theorem tenTimesExact (n : Nat) {m : Int} (inside : ∀ i < n, InRange (m * 10 ^ (i + 1))) : tenTimes n m = m * 10 ^ n := by
  induction n generalizing m with
  | zero => simp [tenTimes]
  | succ n ih =>
    have first : InRange (m * 10) := by simpa using inside 0 (Nat.succ_pos n)
    rw [tenTimes,int128Self first,ih fun i less => ?_]
    · ring
    · rw [show m * 10 * 10 ^ (i + 1) = m * 10 ^ (i + 1 + 1) by ring]
      exact inside (i + 1) (Nat.succ_lt_succ less)

theorem powersInside {m : Int} {n : Nat} (inside : (m * 10 ^ n).natAbs < 2 ^ 127) : ∀ i < n, InRange (m * 10 ^ (i + 1)) := fun i less => by
  refine insideRange (Nat.lt_of_le_of_lt ?_ inside)
  simp only [Int.natAbs_mul,Int.natAbs_pow]
  exact Nat.mul_le_mul_left _ (Nat.pow_le_pow_right (by decide) less)

/-- A multiple of ten is not the lowest number, and a number of thirty digits is not either. -/
theorem alignedInside {m : Int} {n : Nat} (few : m.natAbs < 10 ^ 30) (inside : ∀ i < n, InRange (m * 10 ^ (i + 1))) :
    (m * 10 ^ n).natAbs < 2 ^ 127 := by
  have large : (10 : Nat) ^ 30 < 2 ^ 127 := by decide
  cases n with
  | zero =>
    rw [pow_zero,mul_one]
    omega
  | succ n =>
    have last := inside n (Nat.lt_succ_self n)
    obtain ⟨low,high⟩ := last
    have tens : m * 10 ^ (n + 1) = m * 10 ^ n * 10 := by ring
    omega

theorem lowestDigits (scale : Nat) : decDigits ⟨-2 ^ 127,scale⟩ = List.replicate (scale + 1) 48 := by
  have none_ : lowDigits 48 (int128 (-(-2 ^ 127))).toNat = [] := by decide
  rw [decDigits]
  simp only [none_,if_pos (show (-2 ^ 127 : Int) < 0 by decide),if_neg (show int128 (-(-2 ^ 127)) ≠ 0 by decide),List.nil_append,List.length_nil,
    Nat.sub_zero]

theorem lowestShown (scale : Nat) : decStr ⟨-2 ^ 127,scale⟩ = [48] := by
  have digits := lowestDigits scale
  have kept : ((List.replicate (scale + 1) (48 : UInt8)).take scale).dropWhile (· = 48) = [] := by
    simp [List.take_replicate]
  rw [decStr,digits]
  simp only [kept,if_pos (show (-2 ^ 127 : Int) < 0 by decide),if_true]
  simp [List.drop_replicate]

/-- A result in the range is shown as itself, except the lowest one. -/
theorem shownExact {m : Int} {scale : Nat} {x : ℚ} (range : InRange m) (x_ : (Dec.mk m scale).value = x) :
    numeral (decStr ⟨m,scale⟩) = some x ↔ m.natAbs < 2 ^ 127 := by
  constructor
  · intro is
    by_contra outside
    obtain ⟨low,high⟩ := range
    have lowest : m = -2 ^ 127 := by omega
    subst lowest
    rw [lowestShown] at is
    have zero : numeral [48] = some 0 := by decide +kernel
    have value : x = 0 := (Option.some.inj (zero.symm.trans is)).symm
    rw [value,Dec.value,div_eq_zero_iff] at x_
    rcases x_ with num | den
    · exact absurd num (by norm_num)
    · exact absurd den (pow_ne_zero _ (by norm_num))
  · intro inside
    rw [decStrValue (show -2 ^ 127 < m by omega) (show m < 2 ^ 127 by omega),x_]

theorem alignedValue (d : Dec) {s : Nat} (le : d.scale ≤ s) : ((d.mant * 10 ^ (s - d.scale) : Int) : ℚ) / 10 ^ s = d.value := by
  rw [Dec.value,div_eq_div_iff (by positivity) (by positivity)]
  push_cast
  rw [mul_assoc,← pow_add,Nat.sub_add_cancel le]

theorem mulRight {a b out : Dec} (is : decArith a b .mul = some out) :
    (∀ x ∈ computed a b .mul, InRange x) ∧ numeral (decStr out) = some (a.value * b.value) ↔ FitsAt a.mant b.mant a.scale b.scale .mul := by
  rw [decArith] at is
  split at is
  · cases is
  · rename_i few
    cases is
    have value : (Dec.mk (a.mant * b.mant) (a.scale + b.scale)).value = a.value * b.value := by
      rw [Dec.value,Dec.value,Dec.value,div_mul_div_comm,pow_add]
      push_cast
      rfl
    constructor
    · rintro ⟨range,right⟩ _
      have own := range _ (List.mem_singleton_self _)
      rw [int128Self own] at right
      exact (shownExact own value).mp right
    · intro fits
      have inside := fits (Nat.not_lt.mp few)
      have own := insideRange inside
      refine ⟨fun x mem => List.mem_singleton.mp mem ▸ own,?_⟩
      rw [int128Self own]
      exact (shownExact own value).mpr inside

/-- Both numbers aligned, and what is computed from them. -/
theorem sumRight {a b : Dec} {ideal : Int} {x : ℚ} (left : a.mant.natAbs < 10 ^ 30) (right : b.mant.natAbs < 10 ^ 30)
    (value : (Dec.mk ideal (max a.scale b.scale)).value = x) :
    (∀ y ∈ ((List.range (max a.scale b.scale - a.scale)).map fun i => a.mant * 10 ^ (i + 1)) ++
        ((List.range (max a.scale b.scale - b.scale)).map fun i => b.mant * 10 ^ (i + 1)) ++ [ideal], InRange y) ∧
      numeral (decStr ⟨int128 ideal,max a.scale b.scale⟩) = some x ↔
    (a.mant * 10 ^ (max a.scale b.scale - a.scale)).natAbs < 2 ^ 127 ∧ (b.mant * 10 ^ (max a.scale b.scale - b.scale)).natAbs < 2 ^ 127 ∧
      ideal.natAbs < 2 ^ 127 := by
  constructor
  · rintro ⟨range,shows⟩
    have own := range ideal (by simp)
    rw [int128Self own] at shows
    refine ⟨alignedInside left fun i less => range _ ?_,alignedInside right fun i less => range _ ?_,(shownExact own value).mp shows⟩
    · exact List.mem_append_left _ (List.mem_append_left _ (List.mem_map_of_mem (List.mem_range.mpr less)))
    · exact List.mem_append_left _ (List.mem_append_right _ (List.mem_map_of_mem (List.mem_range.mpr less)))
  · rintro ⟨first,second,inside⟩
    have own := insideRange inside
    refine ⟨fun y mem => ?_,by rw [int128Self own]; exact (shownExact own value).mpr inside⟩
    rcases List.mem_append.mp mem with mem | mem
    · rcases List.mem_append.mp mem with mem | mem
      · obtain ⟨i,less,rfl⟩ := List.mem_map.mp mem
        exact powersInside first i (List.mem_range.mp less)
      · obtain ⟨i,less,rfl⟩ := List.mem_map.mp mem
        exact powersInside second i (List.mem_range.mp less)
    · rw [List.mem_singleton.mp mem]
      exact own

/-- What a sum comes to when the alignment is exact. -/
theorem tensAligned {a b : Dec} (op : Op) (notMul : op ≠ .mul) (few : max a.scale b.scale ≤ 30)
    (first : ∀ i < max a.scale b.scale - a.scale, InRange (a.mant * 10 ^ (i + 1)))
    (second : ∀ i < max a.scale b.scale - b.scale, InRange (b.mant * 10 ^ (i + 1))) :
    decArith a b op = some ⟨int128 (if op = .add then a.mant * 10 ^ (max a.scale b.scale - a.scale) + b.mant * 10 ^ (max a.scale b.scale - b.scale)
      else a.mant * 10 ^ (max a.scale b.scale - a.scale) - b.mant * 10 ^ (max a.scale b.scale - b.scale)),max a.scale b.scale⟩ := by
  have scale : (if b.scale < a.scale then a.scale else b.scale) = max a.scale b.scale := by
    split <;> omega
  cases op with
  | mul => exact absurd rfl notMul
  | add =>
    simp only [decArith,scale]
    rw [if_neg (Nat.not_lt.mpr few),tenTimesExact _ first,tenTimesExact _ second]
    rfl
  | sub =>
    simp only [decArith,scale]
    rw [if_neg (Nat.not_lt.mpr few),tenTimesExact _ first,tenTimesExact _ second]
    rfl

/-- A sum or difference, `ideal` before it is cut to the integer. -/
theorem alignedRight {a b out : Dec} {op : Op} (notMul : op ≠ .mul) (left : a.mant.natAbs < 10 ^ 30) (right : b.mant.natAbs < 10 ^ 30)
    (few : max a.scale b.scale ≤ 30) (is : decArith a b op = some out) {ideal : Int} {x : ℚ}
    (sum : (if op = .add then a.mant * 10 ^ (max a.scale b.scale - a.scale) + b.mant * 10 ^ (max a.scale b.scale - b.scale)
      else a.mant * 10 ^ (max a.scale b.scale - a.scale) - b.mant * 10 ^ (max a.scale b.scale - b.scale)) = ideal)
    (value : (Dec.mk ideal (max a.scale b.scale)).value = x) :
    (∀ y ∈ ((List.range (max a.scale b.scale - a.scale)).map fun i => a.mant * 10 ^ (i + 1)) ++
        ((List.range (max a.scale b.scale - b.scale)).map fun i => b.mant * 10 ^ (i + 1)) ++ [ideal], InRange y) ∧
      numeral (decStr out) = some x ↔
    (a.mant * 10 ^ (max a.scale b.scale - a.scale)).natAbs < 2 ^ 127 ∧ (b.mant * 10 ^ (max a.scale b.scale - b.scale)).natAbs < 2 ^ 127 ∧
      ideal.natAbs < 2 ^ 127 := by
  have core := sumRight left right value
  constructor
  · rintro ⟨range,shows⟩
    have first : ∀ i < max a.scale b.scale - a.scale, InRange (a.mant * 10 ^ (i + 1)) := fun i less =>
      range _ (List.mem_append_left _ (List.mem_append_left _ (List.mem_map_of_mem (List.mem_range.mpr less))))
    have second : ∀ i < max a.scale b.scale - b.scale, InRange (b.mant * 10 ^ (i + 1)) := fun i less =>
      range _ (List.mem_append_left _ (List.mem_append_right _ (List.mem_map_of_mem (List.mem_range.mpr less))))
    rw [tensAligned op notMul few first second,sum] at is
    cases is
    exact core.mp ⟨range,shows⟩
  · intro fits
    rw [tensAligned op notMul few (powersInside fits.1) (powersInside fits.2.1),sum] at is
    cases is
    exact core.mpr fits

theorem addSubRight {a b out : Dec} {op : Op} (notMul : op ≠ .mul) (left : a.mant.natAbs < 10 ^ 30) (right : b.mant.natAbs < 10 ^ 30)
    (few : max a.scale b.scale ≤ 30) (is : decArith a b op = some out) :
    (∀ x ∈ computed a b op, InRange x) ∧ numeral (decStr out) = some (op.apply a.value b.value) ↔
      FitsAt a.mant b.mant a.scale b.scale op := by
  have aValue := alignedValue a (le_max_left a.scale b.scale)
  have bValue := alignedValue b (le_max_right a.scale b.scale)
  cases op with
  | mul => exact absurd rfl notMul
  | add =>
    refine alignedRight notMul left right few is rfl ?_
    rw [Op.apply,← aValue,← bValue,Dec.value,if_pos rfl]
    push_cast
    ring
  | sub =>
    refine alignedRight notMul left right few is rfl ?_
    rw [Op.apply,← aValue,← bValue,Dec.value,if_neg (by decide)]
    push_cast
    ring

/-- Aligned scales of accepted numbers are never refused; a product is, when its scale passes thirty. -/
theorem arithRefused {a b : Dec} (left : a.scale ≤ 30) (right : b.scale ≤ 30) {op : Op} (is : decArith a b op = none) :
    op = .mul ∧ 30 < a.scale + b.scale := by
  have few : ¬30 < if b.scale < a.scale then a.scale else b.scale := by
    split <;> omega
  cases op with
  | mul =>
    refine ⟨rfl,?_⟩
    simp only [decArith] at is
    split at is
    · assumption
    · cases is
  | add => simp [decArith,few] at is
  | sub => simp [decArith,few] at is

theorem arithRight {a b out : Dec} {op : Op} (left : a.mant.natAbs < 10 ^ 30) (right : b.mant.natAbs < 10 ^ 30) (few : a.scale ≤ 30)
    (few' : b.scale ≤ 30) (is : decArith a b op = some out) :
    (∀ x ∈ computed a b op, InRange x) ∧ numeral (decStr out) = some (op.apply a.value b.value) ↔
      FitsAt a.mant b.mant a.scale b.scale op := by
  by_cases mul : op = .mul
  · subst mul
    exact mulRight is
  · exact addSubRight mul left right (Nat.max_le.mpr ⟨few,few'⟩) is

theorem rightFits (s t : Bytes) (op : Op) : Right s t op ↔ Fits s t op := by
  have of : ∀ {r : Bytes}, Accepted r → decParse r = some ⟨written r,places r⟩ := fun all => (decParseAccepted _).trans (if_pos all)
  constructor
  · intro right first second
    have a := of first
    have b := of second
    obtain ⟨sIs,lowA,highA,placesA⟩ := parsedValue a
    obtain ⟨tIs,lowB,highB,placesB⟩ := parsedValue b
    cases is : decArith ⟨written s,places s⟩ ⟨written t,places t⟩ op with
    | none =>
      obtain ⟨rfl,more⟩ := arithRefused placesA placesB is
      exact fun less => absurd less (Nat.not_le.mpr more)
    | some out =>
      obtain ⟨range,x,y,xIs,yIs,shows⟩ := right _ _ out a b is
      rw [sIs] at xIs
      rw [tIs] at yIs
      cases xIs
      cases yIs
      exact (arithRight (by omega) (by omega) placesA placesB is).mp ⟨range,shows⟩
  · intro fits a b out aIs bIs is
    rw [decParseAccepted] at aIs bIs
    split at aIs
    · split at bIs
      · rename_i first second
        have fit := fits first second
        cases aIs
        cases bIs
        obtain ⟨sIs,lowA,highA,placesA⟩ := parsedValue (of first)
        obtain ⟨tIs,lowB,highB,placesB⟩ := parsedValue (of second)
        have both := (arithRight (by omega) (by omega) placesA placesB is).mpr fit
        exact ⟨both.1,_,_,sIs,tIs,both.2⟩
      · cases bIs
    · cases aIs

/-! ### Reading back -/

/-- The number has at most thirty digits when one stands before the point. -/
def Short (d : Dec) : Prop := ∃ m : Int, ∃ t ≤ d.scale, t ≤ 29 ∧ m.natAbs < 10 ^ 30 ∧ d.mant = m * 10 ^ (d.scale - t)

/-- The last digit that is kept behind the point is not zero. -/
theorem lastKept {d : Dec} (all : Digits (decDigits d)) {int : Bytes} (int_ : Digits int) (some_ : (keptFrac d).reverse ≠ []) :
    dv (int ++ (keptFrac d).reverse) % 10 ≠ 0 := by
  have some' : keptFrac d ≠ [] := by simpa using some_
  obtain ⟨c,rest,is⟩ := List.exists_cons_of_ne_nil some'
  have digits : Digits (keptFrac d) := fun c mem => all c (List.mem_of_mem_take ((List.dropWhile_sublist _).subset mem))
  have kept : ¬c = 48 := by
    have head := List.dropWhile_get_zero_not (fun c : UInt8 => decide (c = 48)) ((decDigits d).take d.scale) (by
      show 0 < (keptFrac d).length
      rw [is]
      exact Nat.succ_pos _)
    have first : (keptFrac d).get ⟨0,by rw [is]; exact Nat.succ_pos _⟩ = c := by simp [is]
    intro same
    exact head (decide_eq_true (first.trans same))
  have own : isdigit c = true := digits c (is ▸ List.mem_cons_self)
  have rest_ : Digits (int ++ rest.reverse) :=
    digitsCat int_ fun c mem => digits c (is ▸ List.mem_cons_of_mem _ (List.mem_reverse.mp mem))
  have one : Digits [c] := fun _ mem => List.mem_singleton.mp mem ▸ own
  have value : dv [c] = c.toNat - 48 := by simp [dv,digitsValue,own]
  have low : 48 ≤ c.toNat := UInt8.le_iff_toNat_le.mp (of_decide_eq_true own).1
  have ne : c.toNat ≠ 48 := fun same => kept (UInt8.toNat_inj.mp same)
  have small := digitRange own
  rw [is,List.reverse_cons,← List.append_assoc,dvCat rest_ one,value,List.length_singleton]
  omega

/-- The lowest number is shown as zero, and is no short one. -/
theorem lowestApart (scale : Nat) : ¬ReadsBack ⟨-2 ^ 127,scale⟩ ∧ ¬Short ⟨-2 ^ 127,scale⟩ := by
  constructor
  · rintro ⟨e,parsed,value⟩
    rw [lowestShown] at parsed
    have zero : decParse [48] = some ⟨0,0⟩ := by decide
    rw [zero] at parsed
    cases parsed
    rw [Dec.value,Dec.value,div_eq_div_iff (by positivity) (by positivity)] at value
    norm_num at value
  · rintro ⟨m,t,le,_,few,is⟩
    dsimp only at is
    cases gap : scale - t with
    | zero =>
      rw [gap,pow_zero,mul_one] at is
      subst is
      exact absurd few (by decide)
    | succ n =>
      have tens : m * 10 ^ (n + 1) = m * 10 ^ n * 10 := by ring
      rw [gap,tens] at is
      omega

theorem shortOf {d : Dec} {xs : Bytes} (digits : Digits xs) (few : xs.length ≤ 30) {t : Nat} (le : t ≤ d.scale) (places_ : t ≤ 29)
    (value : dv xs * 10 ^ (d.scale - t) = d.mant.natAbs) : Short d := by
  have less := dvLess digits
  have power : 10 ^ xs.length ≤ 10 ^ 30 := Nat.pow_le_pow_right (by decide) few
  refine ⟨if d.mant < 0 then -(dv xs : Int) else dv xs,t,le,places_,by split <;> omega,?_⟩
  have signs : d.mant = if d.mant < 0 then -(d.mant.natAbs : Int) else d.mant.natAbs := by split <;> omega
  have cast : (d.mant.natAbs : Int) = (dv xs : Int) * 10 ^ (d.scale - t) := by
    rw [← value]
    push_cast
    rfl
  rw [cast] at signs
  split
  · rename_i minus
    rw [if_pos minus] at signs
    rw [neg_mul]
    exact signs
  · rename_i plus
    rw [if_neg plus] at signs
    exact signs

/-- The digits that are shown are at most those of a short form. -/
theorem shownFew {d : Dec} {i f : Bytes} (some_ : i ≠ []) (short : f.length ≤ d.scale)
    (value : dv (i ++ f) * 10 ^ (d.scale - f.length) = d.mant.natAbs) (top : 1 < i.length → 10 ^ (i ++ f).length ≤ dv (i ++ f) * 10)
    (last : f ≠ [] → dv (i ++ f) % 10 ≠ 0) (is : Short d) : (i ++ f).length ≤ 30 := by
  obtain ⟨m,t,le,places_,few,is⟩ := is
  have magnitude : d.mant.natAbs = m.natAbs * 10 ^ (d.scale - t) := by
    rw [is,Int.natAbs_mul,Int.natAbs_pow]
    rfl
  -- the zeros that the text leaves out are at least those of the given form
  have within : f.length ≤ t := by
    by_contra more
    have gap : d.scale - t = (f.length - t - 1) + 1 + (d.scale - f.length) := by omega
    rw [magnitude,gap,Nat.pow_add,← Nat.mul_assoc] at value
    have same := Nat.eq_of_mul_eq_mul_right (Nat.pow_pos (by decide)) value
    refine last (by rintro rfl; exact more (Nat.zero_le _)) ?_
    rw [same,Nat.pow_succ,← Nat.mul_assoc]
    exact Nat.mul_mod_left _ _
  have gap : d.scale - f.length = (t - f.length) + (d.scale - t) := by omega
  rw [magnitude,gap,Nat.pow_add,← Nat.mul_assoc] at value
  have same := Nat.eq_of_mul_eq_mul_right (Nat.pow_pos (by decide)) value
  have less : dv (i ++ f) < 10 ^ 30 := by
    have one_ : 0 < 10 ^ (t - f.length) := Nat.pow_pos (by decide)
    have le' := Nat.le_mul_of_pos_right (dv (i ++ f)) one_
    omega
  by_cases more : 1 < i.length
  · have large := top more
    by_contra long
    have power : 10 ^ 31 ≤ 10 ^ (i ++ f).length := Nat.pow_le_pow_right (by decide) (by omega)
    have ten : (10 : Nat) ^ 31 = 10 ^ 30 * 10 := by decide
    omega
  · have one := List.length_pos_of_ne_nil some_
    rw [List.length_append]
    omega

theorem readsBackShort {d : Dec} (rep : Representable d) : ReadsBack d ↔ Short d := by
  obtain ⟨⟨low,high⟩,scale⟩ := rep
  by_cases lowest : d.mant = -2 ^ 127
  · obtain ⟨mant,scale'⟩ := d
    dsimp only at lowest
    subst lowest
    obtain ⟨back,short⟩ := lowestApart scale'
    exact ⟨fun h => absurd h back,fun h => absurd h short⟩
  · have low' : -2 ^ 127 < d.mant := by omega
    obtain ⟨all,_⟩ := decDigitsSpec low' high
    obtain ⟨str,int,frac,some_,short,value,top⟩ := decParts low' high
    obtain ⟨neg,intIs,fracIs,plain⟩ := @shownParts (decide (d.mant < 0)) _ _ int frac some_
    rw [← str] at neg intIs fracIs plain
    have digits : allDigits (decStr d) = _ ++ _ := congrArg₂ (· ++ ·) intIs fracIs
    have lengths := congrArg List.length digits
    rw [List.length_append] at lengths
    have one := List.length_pos_of_ne_nil some_
    constructor
    · rintro ⟨e,parsed,_⟩
      rw [decParseAccepted] at parsed
      split at parsed
      · rename_i accepted
        have few := accepted.2.2
        exact shortOf (digitsCat int frac) (by rw [← digits]; exact few) short (by omega) value
      · cases parsed
    · intro is
      have total := shownFew some_ short value top (fun more => lastKept all int more) is
      obtain ⟨e,parsed,value'⟩ := numeralParsed (decStrValue low' high) (by rw [digits]; exact total)
      exact ⟨e,parsed,value'⟩

/-- The digits and the text stay in their buffers. -/
theorem buffersHold {d : Dec} (rep : Representable d) : (decDigits d).length ≤ 48 ∧ (decStr d).length < 64 := by
  obtain ⟨⟨low,high⟩,scale⟩ := rep
  by_cases lowest : d.mant = -2 ^ 127
  · obtain ⟨mant,scale'⟩ := d
    dsimp only at lowest
    subst lowest
    have digits : decDigits ⟨-2 ^ 127,scale'⟩ = List.replicate (scale' + 1) 48 := lowestDigits scale'
    rw [lowestShown,digits,List.length_replicate]
    dsimp only at scale
    exact ⟨by omega,by decide⟩
  · have low' : -2 ^ 127 < d.mant := by omega
    obtain ⟨_,_,_,_,room⟩ := decDigitsSpec low' high
    obtain ⟨str,_,_,_,_,_,_⟩ := decParts low' high
    have kept : (keptFrac d).length ≤ ((decDigits d).take d.scale).length := (List.dropWhile_sublist _).length_le
    have few : (decDigits d).length ≤ 48 := by omega
    refine ⟨few,?_⟩
    rw [str,shown]
    rw [List.length_take] at kept
    simp only [List.length_append,List.length_reverse,List.length_drop]
    have sign : (if decide (d.mant < 0) = true then [45] else ([] : Bytes)).length ≤ 1 := by split <;> simp
    have point : (if (keptFrac d).reverse = [] then [] else 46 :: (keptFrac d).reverse).length ≤ (keptFrac d).length + 1 := by
      split <;> simp
    omega

/-- The arithmetic is exact just for operands that leave room, and a decimal reads back just when its digits are few. -/
theorem exactDecimals (s t : Bytes) (op : Op) {d : Dec} (rep : Representable d) :
    (Right s t op ↔ Fits s t op) ∧ ((decDigits d).length ≤ 48 ∧ (decStr d).length < 64) ∧ (ReadsBack d ↔ Short d) :=
  ⟨rightFits s t op,buffersHold rep,readsBackShort rep⟩

/-- `12.5` less `0.25`, and their difference read back. -/
theorem exactDifference : Right [49,50,46,53] [48,46,50,53] .sub ∧ ReadsBack ⟨1225,2⟩ := by
  obtain ⟨right,_,back⟩ := exactDecimals [49,50,46,53] [48,46,50,53] .sub (d := ⟨1225,2⟩) ⟨⟨by decide,by decide⟩,by decide⟩
  exact ⟨right.mpr fun _ _ => ⟨by decide,by decide,by decide⟩,back.mpr ⟨1225,2,by decide,by decide,by decide,by decide⟩⟩

/-- `18446744073709551616` times itself is shown as zero, and the smallest decimal of thirty places does not read back. -/
theorem squareWraps : (∃ s d out, decParse s = some d ∧ decArith d d .mul = some out ∧ d.value = 2 ^ 64 ∧ decStr out = [48]) ∧
    ¬(∀ s t op, Right s t op) ∧ ¬∀ d, Representable d → ReadsBack d := by
  have parsed : decParse [49,56,52,52,54,55,52,52,48,55,51,55,48,57,53,53,49,54,49,54] = some ⟨2 ^ 64,0⟩ := by decide +kernel
  have square : decArith ⟨2 ^ 64,0⟩ ⟨2 ^ 64,0⟩ .mul = some ⟨int128 (2 ^ 64 * 2 ^ 64),0⟩ := rfl
  refine ⟨⟨_,_,_,parsed,square,by norm_num [Dec.value],by decide⟩,fun exact_ => ?_,fun back => ?_⟩
  · have range := (exact_ _ _ .mul _ _ _ parsed parsed square).1 _ (List.mem_singleton_self _)
    exact absurd range.2 (by decide)
  · obtain ⟨e,parsed,_⟩ := back ⟨1,30⟩ ⟨⟨by decide,by decide⟩,by decide⟩
    have refused : decParse (decStr ⟨1,30⟩) = none := by decide
    rw [refused] at parsed
    cases parsed

end Napastak.DecArith
