import Mathlib.Data.List.Dedup
import Mathlib.Data.List.Sort
import Mathlib.Data.Int.Order.Basic

/-! Dictionaries of the values of a list: the values in order of first appearance up to a
limit, and binary search in a list sorted by a key. -/
namespace Napastak.Dict

section
variable {α : Type} [DecidableEq α]

/-- How many different values a list has. -/
def distinct (xs : List α) : Nat := xs.dedup.length

theorem distinctOf {u xs : List α} (nodup : u.Nodup) (mem : ∀ v, v ∈ u ↔ v ∈ xs) : u.length = distinct xs :=
  ((List.perm_ext_iff_of_nodup nodup (List.nodup_dedup xs)).mpr fun v => by rw [mem,List.mem_dedup]).length_eq

theorem distinctGe {u xs : List α} (nodup : u.Nodup) (sub : ∀ v ∈ u, v ∈ xs) : u.length ≤ distinct xs :=
  (List.subperm_of_subset nodup fun v h => List.mem_dedup.mpr (sub v h)).length_le

theorem distinctLe (xs : List α) : distinct xs ≤ xs.length := (List.dedup_sublist xs).length_le

def addUnique (limit : Nat) (u : List α) (v : α) : Option (List α) :=
  if v ∈ u then some u else if limit ≤ u.length then none else some (u ++ [v])

/-- The values in order of first appearance, or nothing when there are more than `limit`. -/
def uniques (limit : Nat) (xs : List α) : Option (List α) := xs.foldlM (addUnique limit) []

theorem foldUnique {limit : Nat} {done u : List α} (xs : List α) (nodup : u.Nodup) (le : u.length ≤ limit)
    (mem : ∀ v, v ∈ u ↔ v ∈ done) :
    (∀ w, xs.foldlM (addUnique limit) u = some w → w.Nodup ∧ w.length ≤ limit ∧ ∀ v, v ∈ w ↔ v ∈ done ++ xs) ∧
      (xs.foldlM (addUnique limit) u = none → limit < distinct (done ++ xs)) := by
  induction xs generalizing done u with
  | nil => simp [nodup,le,mem]
  | cons x xs ih =>
    rw [List.foldlM_cons,List.append_cons]
    simp only [addUnique]
    split
    · rename_i old
      exact ih nodup le fun v => by simp only [mem,List.mem_append,List.mem_singleton]; grind
    · rename_i new
      split
      · rename_i full
        refine ⟨by simp,fun _ => ?_⟩
        have more : (u ++ [x]).Nodup := by simp [List.nodup_append,nodup]; grind
        have := @distinctGe _ _ _ (done ++ [x] ++ xs) more fun v h => by grind
        simp only [List.length_append,List.length_singleton] at this
        omega
      · refine ih (by simp [List.nodup_append,nodup]; grind) (by simp; omega) fun v => by grind

theorem uniquesSome {limit : Nat} {xs u : List α} (h : uniques limit xs = some u) :
    u.Nodup ∧ u.length ≤ limit ∧ ∀ v, v ∈ u ↔ v ∈ xs := by
  simpa using (@foldUnique _ _ limit [] [] xs List.nodup_nil (Nat.zero_le limit) (by simp)).1 u h

theorem uniquesNone {limit : Nat} {xs : List α} : uniques limit xs = none ↔ limit < distinct xs := by
  refine ⟨fun h => by simpa using (@foldUnique _ _ limit [] [] xs List.nodup_nil (Nat.zero_le limit) (by simp)).2 h,
    fun h => ?_⟩
  cases hu : uniques limit xs with
  | none => rfl
  | some u =>
    obtain ⟨nodup,le,mem⟩ := uniquesSome hu
    have := distinctOf nodup mem
    omega

end

section
variable {α : Type} [DecidableEq α] (key : α → Int)

/-- The loop over the window from `lo` up to, not including, `hi`; `0` when it closes empty. -/
def bsearch (u : List α) (v : α) (lo hi : Nat) : Nat :=
  if lo < hi then
    let m := (lo + (hi - 1)) / 2
    match u[m]? with
    | none => 0
    | some w => if w = v then m else if key w < key v then bsearch u v (m + 1) hi else bsearch u v lo m
  else 0
termination_by hi - lo
decreasing_by all_goals omega

variable {key}

theorem bsearchWindow {u : List α} (sorted : u.Pairwise (fun a b => key a < key b)) {v : α} (lo hi k : Nat)
    (le : hi ≤ u.length) (low : lo ≤ k) (high : k < hi) (at_ : u[k]? = some v) :
    u[bsearch key u v lo hi]? = some v := by
  induction lo, hi using bsearch.induct key u v with
  | case1 lo hi h m none_ => have := List.getElem?_eq_none_iff.mp none_; omega
  | case2 lo hi h m here =>
    rw [bsearch,if_pos h]
    simp only [show (lo + (hi - 1)) / 2 = m from rfl,here,if_true]
  | case3 lo hi h m w found ne less ih =>
    rw [bsearch,if_pos h]
    simp only [show (lo + (hi - 1)) / 2 = m from rfl,found,ne,less,if_true,if_false]
    refine ih le (Nat.lt_of_not_le fun km => ?_) high
    -- an entry at or before `m` has a key no larger than the one at `m`
    rcases Nat.lt_or_eq_of_le km with km | rfl
    · obtain ⟨lk,ek⟩ := List.getElem?_eq_some_iff.mp at_
      obtain ⟨lm,em⟩ := List.getElem?_eq_some_iff.mp found
      have := List.pairwise_iff_getElem.mp sorted k m lk lm km
      rw [ek,em] at this
      omega
    · exact ne (Option.some.inj (found.symm.trans at_))
  | case4 lo hi h m w found ne less ih =>
    rw [bsearch,if_pos h]
    simp only [show (lo + (hi - 1)) / 2 = m from rfl,found,ne,less,if_false]
    refine ih (by omega) low (Nat.lt_of_not_le fun mk => ?_)
    rcases Nat.lt_or_eq_of_le mk with mk | rfl
    · obtain ⟨lk,ek⟩ := List.getElem?_eq_some_iff.mp at_
      obtain ⟨lm,em⟩ := List.getElem?_eq_some_iff.mp found
      have := List.pairwise_iff_getElem.mp sorted m k lm lk mk
      rw [ek,em] at this
      omega
    · exact ne (Option.some.inj (found.symm.trans at_))
  | case5 lo hi h => omega

/-- In a list sorted strictly by its key the search finds every entry. -/
theorem bsearchFinds {u : List α} (sorted : u.Pairwise (fun a b => key a < key b)) {v : α} (h : v ∈ u) :
    u[bsearch key u v 0 u.length]? = some v := by
  obtain ⟨k,lt,at_⟩ := List.mem_iff_getElem.mp h
  exact bsearchWindow sorted 0 u.length k le_rfl (Nat.zero_le k) lt (by rw [List.getElem?_eq_getElem lt,at_])

omit [DecidableEq α]

/-- Entries put in the order of their key. -/
def sortBy (key : α → Int) (u : List α) : List α := u.insertionSort fun a b => key a ≤ key b

theorem sortByMem (u : List α) (v : α) : v ∈ sortBy key u ↔ v ∈ u := List.mem_insertionSort _

theorem sortByLength (u : List α) : (sortBy key u).length = u.length := List.length_insertionSort _ u

theorem sortByStrict (inj : Function.Injective key) {u : List α} (nodup : u.Nodup) :
    (sortBy key u).Pairwise fun a b => key a < key b := by
  let r : α → α → Prop := fun a b => key a ≤ key b
  have total : Std.Total r := ⟨fun a b => le_total (key a) (key b)⟩
  have trans_ : IsTrans α r := ⟨fun _ _ _ => le_trans⟩
  have weak : (u.insertionSort r).Pairwise r := List.pairwise_insertionSort r u
  have once : (u.insertionSort r).Nodup := (List.perm_insertionSort r u).nodup_iff.mpr nodup
  exact (weak.and once).imp fun h => lt_of_le_of_ne h.1 fun e => h.2 (inj e)

end

end Napastak.Dict
