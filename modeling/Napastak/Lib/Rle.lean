import Mathlib.Data.List.Basic
import Mathlib.Algebra.Order.Ring.Nat

/-! Run-length encoding with a bound on the run length. -/
namespace Napastak.Rle

section
variable {α : Type} [DecidableEq α]

/-- The runs of `n` copies of `cur` followed by the list, no run longer than `cap`. -/
def rleGo (cap : Nat) (cur : α) (n : Nat) : List α → List (Nat × α)
  | [] => [(n,cur)]
  | x :: xs => if x = cur ∧ n < cap then rleGo cap cur (n + 1) xs else (n,cur) :: rleGo cap x 1 xs

def rle (cap : Nat) : List α → List (Nat × α)
  | [] => []
  | x :: xs => rleGo cap x 1 xs

def expand (runs : List (Nat × α)) : List α := runs.flatMap fun r => List.replicate r.1 r.2

theorem expandGo (cap : Nat) (cur : α) (n : Nat) (xs : List α) :
    expand (rleGo cap cur n xs) = List.replicate n cur ++ xs := by
  induction xs generalizing cur n with
  | nil => simp [rleGo,expand]
  | cons x xs ih =>
    simp only [rleGo]
    split
    · rename_i h
      rw [ih,h.1,List.replicate_succ']
      simp
    · have := ih x 1
      simp only [expand,List.flatMap_cons] at this ⊢
      rw [this]
      simp

theorem expandRle (cap : Nat) (xs : List α) : expand (rle cap xs) = xs := by
  cases xs with
  | nil => rfl
  | cons x xs => simp [rle,expandGo]

theorem goValues (cap : Nat) (cur : α) (n : Nat) (xs : List α) :
    ∀ r ∈ rleGo cap cur n xs, r.2 = cur ∨ r.2 ∈ xs := by
  induction xs generalizing cur n with
  | nil => simp [rleGo]
  | cons x xs ih =>
    simp only [rleGo]
    split
    · intro r hr
      rcases ih cur (n + 1) r hr with h | h
      · exact .inl h
      · exact .inr (List.mem_cons_of_mem _ h)
    · intro r hr
      rcases List.mem_cons.mp hr with rfl | hr
      · exact .inl rfl
      · rcases ih x 1 r hr with h | h
        · exact .inr (h ▸ List.mem_cons_self)
        · exact .inr (List.mem_cons_of_mem _ h)

theorem rleValues (cap : Nat) (xs : List α) : ∀ r ∈ rle cap xs, r.2 ∈ xs := by
  cases xs with
  | nil => simp [rle]
  | cons x xs =>
    intro r hr
    rcases goValues cap x 1 xs r hr with h | h
    · exact h ▸ List.mem_cons_self
    · exact List.mem_cons_of_mem _ h

theorem goCounts {cap : Nat} (pos : 0 < cap) (cur : α) (n : Nat) (xs : List α) (h : n ≤ cap) :
    ∀ r ∈ rleGo cap cur n xs, r.1 ≤ cap := by
  induction xs generalizing cur n with
  | nil => simp [rleGo,h]
  | cons x xs ih =>
    simp only [rleGo]
    split
    · rename_i g; exact ih cur (n + 1) g.2
    · intro r hr
      rcases List.mem_cons.mp hr with rfl | hr
      · exact h
      · exact ih x 1 pos r hr

theorem rleCounts {cap : Nat} (pos : 0 < cap) (xs : List α) : ∀ r ∈ rle cap xs, r.1 ≤ cap := by
  cases xs with
  | nil => simp [rle]
  | cons x xs => exact goCounts pos x 1 xs pos

theorem goLength (cap : Nat) (cur : α) (n : Nat) (xs : List α) : (rleGo cap cur n xs).length ≤ xs.length + 1 := by
  induction xs generalizing cur n with
  | nil => simp [rleGo]
  | cons x xs ih =>
    simp only [rleGo]
    split
    · exact Nat.le_succ_of_le (ih cur (n + 1))
    · simpa using ih x 1

theorem rleLength (cap : Nat) (xs : List α) : (rle cap xs).length ≤ xs.length := by
  cases xs with
  | nil => simp [rle]
  | cons x xs => exact goLength cap x 1 xs

/-- How many runs there are when no run has to be cut. -/
def countRuns : List α → Nat
  | [] => 0
  | [_] => 1
  | x :: y :: xs => (if x = y then 0 else 1) + countRuns (y :: xs)

theorem countRunsPos (x : α) (xs : List α) : 0 < countRuns (x :: xs) := by
  induction xs generalizing x with
  | nil => simp [countRuns]
  | cons y xs ih => simp only [countRuns]; have := ih y; omega

theorem countRunsLe (xs : List α) : countRuns xs ≤ xs.length := by
  induction xs with
  | nil => simp [countRuns]
  | cons x xs ih =>
    cases xs with
    | nil => simp [countRuns]
    | cons y xs => simp only [countRuns,List.length_cons] at ih ⊢; split <;> omega

omit [DecidableEq α] in
/-- A run longer than the block in front of it cannot start in that block. -/
theorem runPastBlock {cap : Nat} {cur x : α} (ne : x ≠ cur) (v : α) (xs : List α) {n : Nat} (h : n ≤ cap) :
    List.replicate (cap + 1) v <:+: List.replicate n cur ++ x :: xs ↔
      List.replicate (cap + 1) v <:+: x :: xs := by
  induction n with
  | zero => simp
  | succ m ih =>
    rw [List.replicate_succ (n := m),List.cons_append,List.infix_cons_iff,ih (by omega)]
    refine or_iff_right fun pre => ?_
    -- the run would hold both the block's first cell and the cell after the block
    rw [← List.cons_append,← List.replicate_succ (n := m)] at pre
    have first : (List.replicate (cap + 1) v)[0]? = some v := by simp
    have later : (List.replicate (cap + 1) v)[m + 1]? = some v := by
      rw [List.getElem?_replicate,if_pos (by omega)]
    obtain ⟨t,ht⟩ := pre
    have a := congrArg (·[0]?) ht
    have b := congrArg (·[m + 1]?) ht
    simp only [List.getElem?_append_left (show 0 < (List.replicate (cap + 1) v).length by simp),
      List.getElem?_append_left (show m + 1 < (List.replicate (cap + 1) v).length by simp; omega),first,later] at a b
    rw [List.getElem?_append_left (by simp)] at a
    rw [List.getElem?_append_right (by simp)] at b
    simp at a b
    exact ne (b.symm.trans a)

theorem goFits {cap : Nat} (cur : α) (n : Nat) (xs : List α) (le : n ≤ cap) (pos : 0 < n) :
    countRuns (cur :: xs) ≤ (rleGo cap cur n xs).length ∧
      ((rleGo cap cur n xs).length ≤ countRuns (cur :: xs) ↔
        ∀ v, ¬ List.replicate (cap + 1) v <:+: List.replicate n cur ++ xs) := by
  induction xs generalizing cur n with
  | nil =>
    refine ⟨by simp [countRuns,rleGo],iff_of_true (by simp [countRuns,rleGo]) fun v h => ?_⟩
    have := h.length_le
    simp at this
    omega
  | cons x xs ih =>
    simp only [rleGo,countRuns]
    by_cases same : x = cur
    · subst same
      by_cases room : n < cap
      · have := ih x (n + 1) room (Nat.succ_pos n)
        rw [List.replicate_succ',List.append_assoc,List.singleton_append] at this
        simpa [room] using this
      · obtain rfl : n = cap := by omega
        have := (ih x 1 (by omega) Nat.one_pos).1
        simp only [room,and_false,if_false,if_true,Nat.zero_add,List.length_cons]
        refine ⟨by omega,iff_of_false (by omega) fun h => h x ⟨[],xs,?_⟩⟩
        rw [List.replicate_succ']
        simp
    · have := ih x 1 (by omega) Nat.one_pos
      simp only [same,false_and,if_false,if_neg (Ne.symm same),List.length_cons]
      refine ⟨by omega,?_⟩
      rw [forall_congr' fun v => not_congr (runPastBlock same v xs le),show List.replicate 1 x ++ xs = x :: xs from rfl] at *
      rw [← this.2]
      omega

/-- Cutting never makes fewer runs. -/
theorem rleAtLeast {cap : Nat} (pos : 0 < cap) (xs : List α) : countRuns xs ≤ (rle cap xs).length := by
  cases xs with
  | nil => exact Nat.le_refl 0
  | cons x xs => exact (goFits x 1 xs pos Nat.one_pos).1

omit [DecidableEq α] in
theorem expandLength (runs : List (Nat × α)) : (expand runs).length = (runs.map (·.1)).sum := by
  simp [expand,List.length_flatMap]

/-- Cutting the runs at `cap` makes no more of them exactly when there is nothing to cut. -/
theorem rleFits {cap : Nat} (pos : 0 < cap) (xs : List α) :
    (rle cap xs).length ≤ countRuns xs ↔ ∀ v, ¬ List.replicate (cap + 1) v <:+: xs := by
  cases xs with
  | nil => simp [rle]
  | cons x xs => exact (goFits x 1 xs pos Nat.one_pos).2

end

end Napastak.Rle
