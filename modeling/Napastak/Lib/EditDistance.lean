import Mathlib.Order.Lattice.Nat
import Mathlib.Order.Bounds.Basic

/-! The edit distance: the least number of insertions, deletions and substitutions between two lists, its recursion from
either end. -/
namespace Napastak.EditDistance

variable {α : Type}

/-- So many insertions, deletions and substitutions, place by place. -/
inductive Edits : List α → List α → Nat → Prop
  | nil : Edits [] [] 0
  | keep {xs ys : List α} {k : Nat} (a : α) : Edits xs ys k → Edits (a :: xs) (a :: ys) k
  | change {xs ys : List α} {k : Nat} (a b : α) : Edits xs ys k → Edits (a :: xs) (b :: ys) (k + 1)
  | delete {xs ys : List α} {k : Nat} (a : α) : Edits xs ys k → Edits (a :: xs) ys (k + 1)
  | insert {xs ys : List α} {k : Nat} (b : α) : Edits xs ys k → Edits xs (b :: ys) (k + 1)

theorem Edits.symm {xs ys : List α} {k : Nat} (h : Edits xs ys k) : Edits ys xs k := by
  induction h with
  | nil => exact .nil
  | keep a _ ih => exact .keep a ih
  | change a b _ ih => exact .change b a ih
  | delete a _ ih => exact .insert a ih
  | insert b _ ih => exact .delete b ih

theorem Edits.append {xs ys xs' ys' : List α} {k l : Nat} (h : Edits xs ys k) (h' : Edits xs' ys' l) :
    Edits (xs ++ xs') (ys ++ ys') (k + l) := by
  induction h with
  | nil => rwa [Nat.zero_add]
  | keep a _ ih => exact .keep a ih
  | change a b _ ih => exact Nat.succ_add .. ▸ .change a b ih
  | delete a _ ih => exact Nat.succ_add .. ▸ .delete a ih
  | insert b _ ih => exact Nat.succ_add .. ▸ .insert b ih

theorem Edits.reverse {xs ys : List α} {k : Nat} (h : Edits xs ys k) : Edits xs.reverse ys.reverse k := by
  induction h with
  | nil => exact .nil
  | keep a _ ih =>
    rw [List.reverse_cons,List.reverse_cons]
    exact ih.append (.keep a .nil)
  | change a b _ ih =>
    rw [List.reverse_cons,List.reverse_cons]
    exact ih.append (.change a b .nil)
  | delete a _ ih =>
    have behind := ih.append (.delete a .nil)
    rwa [List.append_nil,← List.reverse_cons] at behind
  | insert b _ ih =>
    have behind := ih.append (.insert b .nil)
    rwa [List.append_nil,← List.reverse_cons] at behind

theorem editsAll (xs : List α) : Edits xs [] xs.length := by
  induction xs with
  | nil => exact .nil
  | cons x xs ih => exact .delete x ih

variable [DecidableEq α]

def distance : List α → List α → Nat
  | [], ys => ys.length
  | x :: xs, [] => xs.length + 1
  | x :: xs, y :: ys => min (min (distance xs (y :: ys) + 1) (distance (x :: xs) ys + 1)) (distance xs ys + if x = y then 0 else 1)
termination_by xs ys => xs.length + ys.length

theorem distanceReached (xs ys : List α) : Edits xs ys (distance xs ys) := by
  fun_induction distance xs ys with
  | case1 ys => exact (editsAll ys).symm
  | case2 x xs => exact editsAll (x :: xs)
  | case3 x xs y ys del ins sub =>
    rcases min_choice (min (distance xs (y :: ys) + 1) (distance (x :: xs) ys + 1)) (distance xs ys + if x = y then 0 else 1) with is | is <;>
      rw [is]
    · rcases min_choice (distance xs (y :: ys) + 1) (distance (x :: xs) ys + 1) with is | is <;> rw [is]
      · exact .delete x del
      · exact .insert y ins
    · split
      · rename_i same
        exact same ▸ .keep x sub
      · exact .change x y sub

theorem distanceNil (xs : List α) : distance xs [] = xs.length := by
  cases xs with
  | nil => rw [distance]
  | cons x xs => rw [distance,List.length_cons]

theorem distanceCons (x y : α) (xs ys : List α) : distance (x :: xs) (y :: ys) =
    min (min (distance xs (y :: ys) + 1) (distance (x :: xs) ys + 1)) (distance xs ys + if x = y then 0 else 1) := by
  rw [distance]

/-- One more item on a side costs one edit at most, and saves one at most. -/
theorem distanceStep (x : α) (xs ys : List α) : distance (x :: xs) ys ≤ distance xs ys + 1 := by
  cases ys with
  | nil => rw [distanceNil,distanceNil]; exact Nat.le_refl _
  | cons y ys => rw [distanceCons]; omega

theorem distanceLower {xs ys : List α} {k : Nat} (h : Edits xs ys k) : distance xs ys ≤ k := by
  induction h with
  | nil => rw [distance]; exact Nat.le_refl _
  | keep a _ ih => rw [distanceCons,if_pos rfl]; omega
  | change a b _ ih => rw [distanceCons]; split <;> omega
  | @delete xs ys k a _ ih => have := distanceStep a xs ys; omega
  | @insert xs ys k b _ ih =>
    cases xs with
    | nil => rw [distance] at ih ⊢; exact Nat.succ_le_succ ih
    | cons x xs => rw [distanceCons]; omega

/-- The recursion gives the least number of edits. -/
theorem distanceLeast (xs ys : List α) : IsLeast {k | Edits xs ys k} (distance xs ys) :=
  ⟨distanceReached xs ys,fun _ h => distanceLower h⟩

theorem distanceComm (xs ys : List α) : distance xs ys = distance ys xs :=
  Nat.le_antisymm (distanceLower (distanceReached ys xs).symm) (distanceLower (distanceReached xs ys).symm)

theorem distanceReverse (xs ys : List α) : distance xs.reverse ys.reverse = distance xs ys := by
  refine Nat.le_antisymm (distanceLower (distanceReached xs ys).reverse) (distanceLower ?_)
  have back := (distanceReached xs.reverse ys.reverse).reverse
  rwa [List.reverse_reverse,List.reverse_reverse] at back

/-- The recursion at the ends of the lists. -/
theorem distanceConcat (x y : α) (xs ys : List α) : distance (xs ++ [x]) (ys ++ [y]) =
    min (min (distance xs (ys ++ [y]) + 1) (distance (xs ++ [x]) ys + 1)) (distance xs ys + if x = y then 0 else 1) := by
  rw [← distanceReverse,← distanceReverse xs (ys ++ [y]),← distanceReverse (xs ++ [x]) ys,← distanceReverse xs ys,List.reverse_concat',
    List.reverse_concat',distanceCons]

theorem distanceLong (xs ys : List α) : distance xs ys ≤ max xs.length ys.length := by
  fun_induction distance xs ys with
  | case1 ys => exact Nat.le_max_right ..
  | case2 x xs => exact Nat.le_max_left ..
  | case3 x xs y ys _ _ sub =>
    have cost : (if x = y then 0 else 1) ≤ 1 := by split <;> decide
    rw [List.length_cons,List.length_cons]
    omega

end Napastak.EditDistance
