import Mathlib.Algebra.Order.Round
import Mathlib.Data.Int.Log
import Mathlib.Data.Rat.Floor
import Mathlib.Tactic.Linarith
import Mathlib.Tactic.Positivity
import Mathlib.Tactic.FieldSimp
import Mathlib.Tactic.Ring

/-! Rationals rounded to the nearest number of a grid, and to a number of digits to a base. -/
namespace Napastak.Rounding

/-- To the nearest integer, to the even one from the middle. -/
def roundEven (q : ℚ) : ℤ :=
  if q - ⌊q⌋ < 1 / 2 then ⌊q⌋ else if 1 / 2 < q - ⌊q⌋ then ⌊q⌋ + 1 else if ⌊q⌋ % 2 = 0 then ⌊q⌋ else ⌊q⌋ + 1

theorem roundEvenNear (q : ℚ) : |(roundEven q : ℚ) - q| ≤ 1 / 2 := by
  have low := Int.floor_le q
  have high := Int.lt_floor_add_one q
  rw [abs_le,roundEven]
  split
  · constructor <;> linarith
  split
  · push_cast
    constructor <;> linarith
  split
  · constructor <;> linarith
  · push_cast
    constructor <;> linarith

theorem roundEvenOf {q : ℚ} {m : ℤ} (near : |q - m| < 1 / 2) : roundEven q = m := by
  have close := roundEvenNear q
  rw [abs_le] at close
  rw [abs_lt] at near
  have less : (roundEven q : ℚ) < m + 1 := by linarith
  have more : (m : ℚ) < roundEven q + 1 := by linarith
  have less' : roundEven q < m + 1 := by exact_mod_cast less
  have more' : m < roundEven q + 1 := by exact_mod_cast more
  omega

theorem roundEvenLow {q : ℚ} {m : ℤ} (low : m ≤ q) : m ≤ roundEven q := by
  have := Int.le_floor.mpr low
  rw [roundEven]
  split
  · exact this
  split
  · omega
  split <;> omega

theorem roundEvenHigh {q : ℚ} {m : ℤ} (high : q ≤ m) : roundEven q ≤ m := by
  have below : ⌊q⌋ ≤ m := Int.floor_le_iff.mpr (by linarith)
  have less (rest : ¬q - ⌊q⌋ < 1 / 2) : ⌊q⌋ + 1 ≤ m := by
    have : (⌊q⌋ : ℚ) < m := by linarith
    exact_mod_cast this
  rw [roundEven]
  split
  · exact below
  · rename_i rest
    have := less rest
    split
    · exact this
    split <;> omega

/-- To the nearest multiple of `step`. -/
def onGrid (step q : ℚ) : ℚ := roundEven (q / step) * step

section
variable {step : ℚ} (pos : 0 < step)
include pos

theorem onGridNear (q : ℚ) : |onGrid step q - q| ≤ step / 2 := by
  have near := roundEvenNear (q / step)
  have scaled : onGrid step q - q = (roundEven (q / step) - q / step) * step := by rw [onGrid,sub_mul,div_mul_cancel₀ q pos.ne']
  rw [scaled,abs_mul,abs_of_pos pos]
  have := mul_le_mul_of_nonneg_right near pos.le
  linarith

theorem onGridOf {q : ℚ} {m : ℤ} (near : |q - m * step| < step / 2) : onGrid step q = m * step := by
  have scaled : q - m * step = (q / step - m) * step := by rw [sub_mul,div_mul_cancel₀ q pos.ne']
  rw [scaled,abs_mul,abs_of_pos pos] at near
  rw [onGrid,roundEvenOf (q := q / step) (m := m)]
  exact lt_of_mul_lt_mul_right (by linarith) pos.le

theorem onGridExact (m : ℤ) : onGrid step (m * step) = m * step := by
  refine onGridOf pos ?_
  rw [sub_self,abs_zero]
  linarith

end

/-! ### Digits -/

/-- The exponent of the last of `p` digits. -/
def place (b p : Nat) (q : ℚ) : ℤ := Int.log b |q| + 1 - p

def toDigits (b p : Nat) (q : ℚ) : ℚ := onGrid ((b : ℚ) ^ place b p q) q

/-- `p` digits and zeros. -/
def Digits (b p : Nat) (x : ℚ) : Prop := ∃ m k : ℤ, |m| < (b : ℤ) ^ p ∧ x = m * (b : ℚ) ^ k

section
variable {b p : Nat} (base : 1 < b) {q : ℚ}
include base

theorem basePos : (0 : ℚ) < b := by
  have : 0 < b := by omega
  exact_mod_cast this

theorem stepPos (e : ℤ) : (0 : ℚ) < (b : ℚ) ^ e := zpow_pos (basePos base) e

theorem placeBounds (some_ : q ≠ 0) : (b : ℚ) ^ (place b p q + p - 1) ≤ |q| ∧ |q| < (b : ℚ) ^ (place b p q + p) := by
  have low := Int.zpow_log_le_self base (abs_pos.mpr some_)
  have high := Int.lt_zpow_succ_log_self base |q|
  have first : place b p q + p - 1 = Int.log b |q| := by rw [place]; ring
  have second : place b p q + p = Int.log b |q| + 1 := by rw [place]; ring
  rw [first,second]
  exact ⟨low,high⟩

/-- The digits of a rounded number, and one zero more where it has gone up to the next power. -/
theorem roundedSize (digits : 0 < p) (some_ : q ≠ 0) : (b : ℤ) ^ (p - 1) ≤ |roundEven (q / (b : ℚ) ^ place b p q)| ∧
    |roundEven (q / (b : ℚ) ^ place b p q)| ≤ (b : ℤ) ^ p := by
  have step := stepPos base (place b p q)
  obtain ⟨low,high⟩ := placeBounds base (p := p) some_
  generalize place b p q = e at step low high ⊢
  have scaled : |q / (b : ℚ) ^ e| = |q| / (b : ℚ) ^ e := by rw [abs_div,abs_of_pos step]
  have below : |q / (b : ℚ) ^ e| ≤ ((b : ℤ) ^ p : ℤ) := by
    push_cast
    rw [scaled,div_le_iff₀ step,← zpow_natCast,← zpow_add₀ (basePos base).ne',add_comm]
    exact high.le
  have above : (((b : ℤ) ^ (p - 1) : ℤ) : ℚ) ≤ |q / (b : ℚ) ^ e| := by
    push_cast
    rw [scaled,le_div_iff₀ step,← zpow_natCast,← zpow_add₀ (basePos base).ne',Nat.cast_sub digits,
      show (p : ℤ) - (1 : Nat) + e = e + p - 1 by push_cast; ring]
    exact low
  generalize q / (b : ℚ) ^ e = x at below above
  rw [abs_le] at below
  refine ⟨?_,abs_le.mpr ⟨roundEvenLow (by exact_mod_cast below.1),roundEvenHigh below.2⟩⟩
  rcases le_abs.mp above with up | down
  · exact (roundEvenLow up).trans (le_abs_self _)
  · have := roundEvenHigh (q := x) (m := -(b : ℤ) ^ (p - 1)) (by push_cast at down ⊢; linarith)
    have := neg_abs_le (roundEven x)
    omega

theorem toDigitsDigits (digits : 0 < p) (q : ℚ) : Digits b p (toDigits b p q) := by
  by_cases some_ : q = 0
  · refine ⟨0,0,by simpa using pow_pos (by omega : (0 : ℤ) < b) p,?_⟩
    rw [some_,toDigits,onGrid,zero_div,roundEvenOf (m := 0) (by norm_num)]
    simp
  have size := (roundedSize base digits some_).2
  rcases lt_or_eq_of_le size with less | full
  · exact ⟨_,_,less,rfl⟩
  -- the next power of the base
  obtain ⟨p,rfl⟩ : ∃ n, p = n + 1 := ⟨p - 1,by omega⟩
  have pow : (0 : ℤ) < (b : ℤ) ^ p := pow_pos (by omega) p
  have one : (b : ℤ) ^ p < (b : ℤ) ^ (p + 1) := pow_lt_pow_right₀ (by exact_mod_cast base) (Nat.lt_succ_self p)
  rcases (abs_eq (by positivity)).mp full with is | is
  · refine ⟨(b : ℤ) ^ p,place b (p + 1) q + 1,by rwa [abs_of_pos pow],?_⟩
    rw [toDigits,onGrid,is,zpow_add_one₀ (basePos base).ne']
    push_cast
    ring
  · refine ⟨-(b : ℤ) ^ p,place b (p + 1) q + 1,by rwa [abs_neg,abs_of_pos pow],?_⟩
    rw [toDigits,onGrid,is,zpow_add_one₀ (basePos base).ne']
    push_cast
    ring

/-- More than `p` digits without a zero behind them are more than `p` digits. -/
theorem digitsLong {n k : ℤ} (last : ¬(b : ℤ) ∣ n) (long : (b : ℤ) ^ p ≤ |n|) : ¬Digits b p (n * (b : ℚ) ^ k) := by
  rintro ⟨m,j,size,is⟩
  have whole : (0 : ℤ) < b := by omega
  rcases lt_or_ge j k with front | behind
  · obtain ⟨d,rfl⟩ : ∃ d : Nat, k = j + d := ⟨(k - j).toNat,by omega⟩
    rw [zpow_add₀ (basePos base).ne',mul_comm ((b : ℚ) ^ j),← mul_assoc,mul_left_inj' (stepPos base j).ne',zpow_natCast] at is
    have same : n * (b : ℤ) ^ d = m := by exact_mod_cast is
    have grown : |n| * 1 ≤ |n| * (b : ℤ) ^ d := mul_le_mul_of_nonneg_left (one_le_pow₀ (by omega)) (abs_nonneg n)
    rw [← same,abs_mul,abs_of_pos (pow_pos whole d)] at size
    omega
  · obtain ⟨d,rfl⟩ : ∃ d : Nat, j = k + d := ⟨(j - k).toNat,by omega⟩
    rw [zpow_add₀ (basePos base).ne',mul_comm ((b : ℚ) ^ k),← mul_assoc,mul_left_inj' (stepPos base k).ne',zpow_natCast] at is
    have same : n = m * (b : ℤ) ^ d := by exact_mod_cast is
    cases d with
    | zero =>
      rw [pow_zero,mul_one] at same
      rw [same] at long
      omega
    | succ d => exact last (same ▸ dvd_mul_of_dvd_right (dvd_pow_self _ (Nat.succ_ne_zero d)) m)

/-- A number of `p` digits is found again from what is nearer to it than half of the last digit. -/
theorem toDigitsOf {x : ℚ} (digits : Digits b p x) (near : 2 * (b : ℚ) ^ p * |q - x| ≤ |q|) : toDigits b p q = x := by
  by_cases some_ : q = 0
  · have same : |q - x| = 0 := by
      rw [some_,abs_zero] at near
      have pow : (0 : ℚ) < 2 * (b : ℚ) ^ p := mul_pos two_pos (pow_pos (basePos base) p)
      exact le_antisymm (by rw [some_]; exact nonpos_of_mul_nonpos_right near pow) (abs_nonneg _)
    rw [← sub_eq_zero.mp (abs_eq_zero.mp same),some_,toDigits,onGrid,zero_div,roundEvenOf (m := 0) (by norm_num)]
    simp
  obtain ⟨m,k,size,rfl⟩ := digits
  obtain ⟨low,high⟩ := placeBounds base (p := p) some_
  have step := stepPos base (place b p q)
  have unit := stepPos base k
  have pow : (0 : ℚ) < (b : ℚ) ^ p := pow_pos (basePos base) p
  -- the place of `q` is not behind that of the digits
  have size' : |(m : ℚ)| ≤ (b : ℚ) ^ p - 1 := by
    have : |m| ≤ (b : ℤ) ^ p - 1 := by omega
    exact_mod_cast this
  have whole : |(m : ℚ) * (b : ℚ) ^ k| ≤ ((b : ℚ) ^ p - 1) * (b : ℚ) ^ k := by
    rw [abs_mul,abs_of_pos unit]
    exact mul_le_mul_of_nonneg_right size' unit.le
  have apart := abs_sub_abs_le_abs_sub q (m * (b : ℚ) ^ k)
  have less : |q| < (b : ℚ) ^ p * (b : ℚ) ^ k := by
    by_contra no
    have one : (1 : ℚ) ≤ (b : ℚ) ^ p := one_le_pow₀ (by exact_mod_cast base.le)
    have far := mul_le_mul_of_nonneg_left (apart.trans' (sub_le_sub_left whole |q|)) (mul_pos two_pos pow).le
    have rest := mul_nonneg (sub_nonneg.mpr (not_lt.mp no)) (show (0 : ℚ) ≤ 2 * (b : ℚ) ^ p - 1 by linarith)
    have area := mul_pos pow unit
    linarith
  have behind : place b p q ≤ k := by
    by_contra no
    have far : (b : ℚ) ^ ((p : ℤ) + k) ≤ (b : ℚ) ^ (place b p q + p - 1) :=
      zpow_le_zpow_right₀ (by exact_mod_cast base.le) (by omega)
    rw [zpow_add₀ (basePos base).ne',zpow_natCast] at far
    linarith
  -- so the digits are on its grid
  obtain ⟨n,rfl⟩ : ∃ n : Nat, k = place b p q + n := ⟨(k - place b p q).toNat,by omega⟩
  have grid : (m : ℚ) * (b : ℚ) ^ (place b p q + n) = ((m * (b : ℤ) ^ n : ℤ) : ℚ) * (b : ℚ) ^ place b p q := by
    rw [zpow_add₀ (basePos base).ne',zpow_natCast]
    push_cast
    ring
  rw [grid] at near ⊢
  refine onGridOf step ?_
  rw [zpow_add₀ (basePos base).ne',zpow_natCast] at high
  nlinarith

end

end Napastak.Rounding
