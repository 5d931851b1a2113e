import Mathlib.Data.List.FinRange
import Mathlib.Logic.Function.Basic
import Mathlib.Algebra.Order.Ring.Nat

/-! A ring of slots under running counters: counter `k` stands for slot `k % n`, and the entries from one counter
to another are read in order. -/
namespace Napastak.Ring
variable {n : Nat} [NeZero n] {α : Type}

def slot (n k : Nat) [NeZero n] : Fin n := Fin.ofNat n k

/-- The entries of the counters `tail`, `tail + 1`, … -/
def window (ring : Fin n → α) : Nat → Nat → List α
  | _, 0 => []
  | tail, count + 1 => ring (slot n tail) :: window ring (tail + 1) count

theorem slotApart {i j : Nat} (less : i < j) (near : j < i + n) : slot n i ≠ slot n j := fun same => by
  have values : i % n = j % n := congrArg Fin.val same
  have gap : (j - i) % n = 0 := Nat.sub_mod_eq_zero_of_mod_eq values.symm
  rw [Nat.mod_eq_of_lt (by omega)] at gap
  omega

variable {ring : Fin n → α}

theorem windowLength (tail count : Nat) : (window ring tail count).length = count := by
  induction count generalizing tail with
  | zero => rfl
  | succ count ih => rw [window,List.length_cons,ih]

theorem windowSplit (tail a b : Nat) : window ring tail (a + b) = window ring tail a ++ window ring (tail + a) b := by
  induction a generalizing tail with
  | zero => rw [Nat.zero_add]; rfl
  | succ a ih => rw [Nat.succ_add,window,window,ih,List.cons_append,Nat.succ_add_eq_add_succ]

/-- Writing a slot that no counter of the window stands for. -/
theorem windowUpdate {tail count j : Nat} (x : α) (apart : ∀ k, tail ≤ k → k < tail + count → slot n k ≠ slot n j) :
    window (Function.update ring (slot n j) x) tail count = window ring tail count := by
  induction count generalizing tail with
  | zero => rfl
  | succ count ih =>
    rw [window,window,Function.update_of_ne (apart tail (Nat.le_refl _) (by omega)),
      ih fun k lo hi => apart k (by omega) (by omega)]

/-- Writing behind a window with room makes it one longer. -/
theorem windowPush {tail count : Nat} (room : count < n) (x : α) :
    window (Function.update ring (slot n (tail + count)) x) tail (count + 1) = window ring tail count ++ [x] := by
  rw [windowSplit,windowUpdate x fun k lo hi => slotApart hi (by omega),window,Function.update_self]
  rfl

end Napastak.Ring
