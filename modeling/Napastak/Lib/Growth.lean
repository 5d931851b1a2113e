import Mathlib.Algebra.Order.Ring.Nat

/-! Buffers whose capacity is doubled until what is to be written fits. -/
namespace Napastak.Growth

def doubled : Nat → Nat → Nat → Nat
  | 0, cap, _ => cap
  | rounds + 1, cap, need => if need ≤ cap then cap else doubled rounds (cap * 2) need

/-- `while (cap < need) cap *= 2`. -/
def grown (cap need : Nat) : Nat := doubled need cap need

theorem doubledIs {rounds cap need : Nat} (enough : need ≤ cap * 2 ^ rounds) :
    ∃ k, doubled rounds cap need = cap * 2 ^ k ∧ need ≤ cap * 2 ^ k ∧ ∀ j < k, cap * 2 ^ j < need := by
  induction rounds generalizing cap with
  | zero => exact ⟨0,by rw [doubled,Nat.pow_zero,Nat.mul_one],enough,nofun⟩
  | succ rounds ih =>
    rw [doubled]
    split
    · rename_i fits
      exact ⟨0,by rw [Nat.pow_zero,Nat.mul_one],by rwa [Nat.pow_zero,Nat.mul_one],nofun⟩
    · rename_i short
      have shift : ∀ j, cap * 2 * 2 ^ j = cap * 2 ^ (j + 1) := fun j => by rw [Nat.pow_succ',Nat.mul_assoc]
      obtain ⟨k,is,fits,least⟩ := ih (by rwa [shift])
      refine ⟨k + 1,by rw [is,shift],by rwa [← shift],fun j less => ?_⟩
      cases j with
      | zero => rw [Nat.pow_zero,Nat.mul_one]; omega
      | succ j => rw [← shift]; exact least j (by omega)

variable {cap need more : Nat}

/-- The capacity is doubled as often as needed and no more. -/
theorem grownIs (pos : 0 < cap) (need : Nat) : ∃ k, grown cap need = cap * 2 ^ k ∧ need ≤ cap * 2 ^ k ∧ ∀ j < k, cap * 2 ^ j < need :=
  doubledIs (Nat.le_trans (Nat.le_of_lt Nat.lt_two_pow_self) (Nat.le_mul_of_pos_left _ pos))

theorem grownFits (pos : 0 < cap) (need : Nat) : need ≤ grown cap need := by
  obtain ⟨k,is,fits,_⟩ := grownIs pos need
  exact is ▸ fits

theorem grownLeast (pos : 0 < cap) {k : Nat} (fits : need ≤ cap * 2 ^ k) : grown cap need ≤ cap * 2 ^ k := by
  obtain ⟨j,is,_,least⟩ := grownIs pos need
  rw [is]
  refine Nat.mul_le_mul_left cap (Nat.pow_le_pow_right (by decide) (Nat.le_of_not_lt fun less => ?_))
  exact absurd (least k less) (Nat.not_lt.mpr fits)

theorem grownMono (pos : 0 < cap) (le : need ≤ more) : grown cap need ≤ grown cap more := by
  obtain ⟨k,is,fits,_⟩ := grownIs pos more
  rw [is]
  exact grownLeast pos (Nat.le_trans le fits)

/-- What fits the capacity that a smaller need has led to leads to the same. -/
theorem grownSame (pos : 0 < cap) (le : need ≤ more) (fits : more ≤ grown cap need) : grown cap more = grown cap need := by
  obtain ⟨k,is,_⟩ := grownIs pos need
  exact Nat.le_antisymm (is ▸ grownLeast pos (is ▸ fits)) (grownMono pos le)

theorem grownAgain (pos : 0 < cap) (le : need ≤ more) : grown (grown cap need) more = grown cap more := by
  obtain ⟨k,is,_,least⟩ := grownIs pos need
  obtain ⟨j,js,jfits,_⟩ := grownIs pos more
  rw [is]
  have pos' : 0 < cap * 2 ^ k := Nat.mul_pos pos (Nat.two_pow_pos k)
  obtain ⟨i,as,fits,_⟩ := grownIs pos' more
  refine Nat.le_antisymm ?_ ?_
  · have behind : k ≤ j := Nat.le_of_not_lt fun less => by have := least j less; omega
    rw [js,show cap * 2 ^ j = cap * 2 ^ k * 2 ^ (j - k) by rw [Nat.mul_assoc,← Nat.pow_add,Nat.add_sub_cancel' behind]]
    refine grownLeast pos' ?_
    rwa [Nat.mul_assoc,← Nat.pow_add,Nat.add_sub_cancel' behind]
  · rw [as,Nat.mul_assoc,← Nat.pow_add]
    refine grownLeast pos ?_
    rwa [Nat.pow_add,← Nat.mul_assoc]

/-- Doubling once is enough for what twice the capacity holds. -/
theorem grownOnce (pos : 0 < cap) (le : need ≤ more) (twice : more ≤ grown cap need * 2) :
    (if grown cap need < more then grown cap need * 2 else grown cap need) = grown cap more := by
  split
  · rename_i less
    obtain ⟨k,is,_⟩ := grownIs pos need
    obtain ⟨j,js,jfits,_⟩ := grownIs pos more
    have next : cap * 2 ^ k * 2 = cap * 2 ^ (k + 1) := by rw [Nat.pow_succ,Nat.mul_assoc]
    rw [is] at less twice ⊢
    refine Nat.le_antisymm ?_ (next ▸ grownLeast pos (next ▸ twice))
    have behind : k < j := Nat.lt_of_not_le fun le => by
      have := Nat.mul_le_mul_left cap (Nat.pow_le_pow_right (show 0 < 2 by decide) le)
      omega
    rw [js,next]
    exact Nat.mul_le_mul_left cap (Nat.pow_le_pow_right (by decide) behind)
  · rename_i fits
    exact (grownSame pos le (Nat.le_of_not_lt fits)).symm

/-- There is no room for two more exactly behind or before the end of a capacity. -/
theorem grownTight (pos : 0 < cap) (need : Nat) :
    need + 2 ≤ grown cap need ↔ ∀ k, need ≠ cap * 2 ^ k ∧ need + 1 ≠ cap * 2 ^ k := by
  constructor
  · intro room k
    constructor <;> intro is
    · have := @grownLeast _ need pos k (Nat.le_of_eq is)
      omega
    · have := @grownLeast _ need pos k (by omega)
      omega
  · intro apart
    obtain ⟨k,is,fits,_⟩ := grownIs pos need
    obtain ⟨here,next⟩ := apart k
    omega

/-! ### The buffer -/

structure Buf where
  cap : Nat
  text : List UInt8
  deriving DecidableEq, Repr

/-- Bytes written as they come; `none` is a write past the end. -/
def Buf.put (b : Buf) (s : List UInt8) : Option Buf :=
  if b.text.length + s.length ≤ b.cap then some ⟨b.cap,b.text ++ s⟩ else none

/-- Room for `n` bytes more. -/
def Buf.reserve (b : Buf) (n : Nat) : Buf := ⟨grown b.cap (b.text.length + n),b.text⟩

/-- Room for `n` bytes more, with one doubling at most. -/
def Buf.twice (b : Buf) (n : Nat) : Buf := ⟨if b.cap < b.text.length + n then b.cap * 2 else b.cap,b.text⟩

/-- The capacity is what `need` has led to, and the text is no longer than that. -/
structure Buf.Led (base need : Nat) (b : Buf) : Prop where
  cap : b.cap = grown base need
  fits : b.text.length ≤ need

variable {base n : Nat} {b : Buf} {s : List UInt8}

theorem putSome (fits : b.text.length + s.length ≤ b.cap) : b.put s = some ⟨b.cap,b.text ++ s⟩ := if_pos fits

theorem putAppend (b : Buf) (s t : List UInt8) : (b.put s).bind (·.put t) = b.put (s ++ t) := by
  by_cases first : b.text.length + s.length ≤ b.cap
  · rw [putSome first,Option.bind_some,Buf.put,Buf.put,List.length_append,List.length_append,Nat.add_assoc,List.append_assoc]
  · have whole : ¬b.text.length + (s ++ t).length ≤ b.cap := by
      rw [List.length_append]
      omega
    rw [Buf.put,Buf.put,if_neg first,if_neg whole,Option.bind_none]

theorem Buf.Led.reserve (pos : 0 < base) (led : b.Led base need) (le : need ≤ b.text.length + n) :
    (b.reserve n).Led base (b.text.length + n) := by
  refine ⟨?_,Nat.le_add_right _ _⟩
  rw [Buf.reserve,led.cap]
  exact grownAgain pos le

theorem Buf.Led.twice (pos : 0 < base) (led : b.Led base need) (le : need ≤ b.text.length + n) (small : n ≤ base) :
    (b.twice n).Led base (b.text.length + n) := by
  refine ⟨?_,Nat.le_add_right _ _⟩
  rw [Buf.twice,led.cap]
  refine grownOnce pos le ?_
  have := led.fits
  have := grownFits pos need
  obtain ⟨k,is,_⟩ := grownIs pos need
  have : base ≤ base * 2 ^ k := Nat.le_mul_of_pos_right _ (Nat.two_pow_pos k)
  omega

/-- What was reserved is written. -/
theorem Buf.Led.put (pos : 0 < base) (led : b.Led base (b.text.length + n)) (le : s.length ≤ n) :
    ∃ b', b.put s = some b' ∧ b'.text = b.text ++ s ∧ b'.Led base (b.text.length + n) := by
  have := grownFits pos (b.text.length + n)
  refine ⟨_,putSome (by rw [led.cap]; omega),rfl,led.cap,?_⟩
  rw [List.length_append]
  omega

/-- A write without a look at the capacity. -/
theorem Buf.Led.putBlind (led : b.Led base b.text.length) :
    (b.put s).isSome ↔ b.text.length + s.length ≤ grown base b.text.length := by
  rw [Buf.put,led.cap]
  split <;> simp_all

theorem Buf.Led.putTight (pos : 0 < base) (led : b.Led base b.text.length) {b' : Buf} (wrote : b.put s = some b') :
    b'.text = b.text ++ s ∧ b'.Led base b'.text.length := by
  rw [Buf.put] at wrote
  split at wrote
  · rename_i fits
    cases wrote
    refine ⟨rfl,?_,Nat.le_refl _⟩
    show b.cap = grown base (b.text ++ s).length
    rw [List.length_append,grownSame pos (Nat.le_add_right _ _) (led.cap ▸ fits)]
    exact led.cap
  · cases wrote

end Napastak.Growth
