import Mathlib.Data.List.Nodup
import Mathlib.Data.List.Perm.Basic

/-! The pairs of two places of a list. -/
namespace Napastak.Pairs

variable {α β : Type}

/-- Every two items, the earlier one first. -/
def pairs : List α → List (α × α)
  | [] => []
  | x :: xs => xs.map (x,·) ++ pairs xs

theorem pairsMap (f : α → β) (xs : List α) : pairs (xs.map f) = (pairs xs).map (Prod.map f f) := by
  induction xs with
  | nil => rfl
  | cons x xs ih =>
    rw [List.map_cons,pairs,pairs,ih,List.map_append,List.map_map,List.map_map]
    rfl

theorem memPairs {xs : List Nat} (sorted : xs.Pairwise (· < ·)) {i j : Nat} : (i,j) ∈ pairs xs ↔ i ∈ xs ∧ j ∈ xs ∧ i < j := by
  induction xs with
  | nil => simp only [pairs,List.not_mem_nil,false_and]
  | cons x xs ih =>
    obtain ⟨first,rest⟩ := List.pairwise_cons.mp sorted
    rw [pairs,List.mem_append,List.mem_map,ih rest]
    constructor
    · rintro (⟨k,mem,is⟩ | ⟨i_,j_,less⟩)
      · cases is
        exact ⟨List.mem_cons_self,List.mem_cons_of_mem _ mem,first j mem⟩
      · exact ⟨List.mem_cons_of_mem _ i_,List.mem_cons_of_mem _ j_,less⟩
    · rintro ⟨i_,j_,less⟩
      rcases List.mem_cons.mp i_ with rfl | later
      · rcases List.mem_cons.mp j_ with rfl | mem
        · exact absurd less (Nat.lt_irrefl _)
        · exact .inl ⟨j,mem,rfl⟩
      · rcases List.mem_cons.mp j_ with rfl | mem
        · exact absurd less (Nat.lt_asymm (first i later))
        · exact .inr ⟨later,mem,less⟩

theorem memLeft {xs : List α} {p : α × α} (mem : p ∈ pairs xs) : p.1 ∈ xs := by
  induction xs with
  | nil => cases mem
  | cons x xs ih =>
    rcases List.mem_append.mp mem with mem | mem
    · obtain ⟨y,_,rfl⟩ := List.mem_map.mp mem
      exact List.mem_cons_self
    · exact List.mem_cons_of_mem _ (ih mem)

theorem memRight {xs : List α} {p : α × α} (mem : p ∈ pairs xs) : p.2 ∈ xs := by
  induction xs with
  | nil => cases mem
  | cons x xs ih =>
    rcases List.mem_append.mp mem with mem | mem
    · obtain ⟨y,y_,rfl⟩ := List.mem_map.mp mem
      exact List.mem_cons_of_mem _ y_
    · exact List.mem_cons_of_mem _ (ih mem)

theorem pairsNodup {xs : List α} (nodup : xs.Nodup) : (pairs xs).Nodup := by
  induction xs with
  | nil => exact List.nodup_nil
  | cons x xs ih =>
    obtain ⟨fresh,nodup⟩ := List.nodup_cons.mp nodup
    refine List.Nodup.append (nodup.map fun _ _ same => (Prod.mk.inj same).2) (ih nodup) ?_
    intro p left right
    obtain ⟨y,_,rfl⟩ := List.mem_map.mp left
    exact fresh (memLeft right)

/-- What is kept of the pairs does not depend on the order of the items, where both orders of a pair give the same. -/
theorem pairsPerm {xs ys : List α} (perm : xs.Perm ys) {g : α × α → Option β} (even : ∀ x ∈ xs, ∀ y ∈ xs, g (x,y) = g (y,x)) :
    ((pairs xs).filterMap g).Perm ((pairs ys).filterMap g) := by
  induction perm with
  | nil => exact .nil
  | @cons x xs ys perm ih =>
    rw [pairs,pairs,List.filterMap_append,List.filterMap_append]
    exact ((perm.map _).filterMap g).append (ih fun x mem y mem' => even x (List.mem_cons_of_mem _ mem) y (List.mem_cons_of_mem _ mem'))
  | swap x y xs =>
    have turned : g (y,x) = g (x,y) := even y List.mem_cons_self x (List.mem_cons_of_mem _ List.mem_cons_self)
    have same (a b : List (α × α)) : ((((y,x) :: a) ++ (b ++ pairs xs)).filterMap g).Perm ((((x,y) :: b) ++ (a ++ pairs xs)).filterMap g) := by
      rw [List.cons_append,List.cons_append,List.filterMap_cons,List.filterMap_cons,turned,← List.append_assoc,← List.append_assoc]
      have rest : ((a ++ b ++ pairs xs).filterMap g).Perm ((b ++ a ++ pairs xs).filterMap g) :=
        (List.perm_append_comm.append_right _).filterMap g
      cases g (x,y) with
      | none => exact rest
      | some z => exact rest.cons z
    exact same _ _
  | trans perm _ ih ih' => exact (ih even).trans (ih' fun x mem y mem' => even x (perm.mem_iff.mpr mem) y (perm.mem_iff.mpr mem'))

end Napastak.Pairs
