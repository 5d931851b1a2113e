import Mathlib.Data.List.Perm.Basic
import Mathlib.Data.List.Count
import Mathlib.Algebra.BigOperators.Group.List.Basic

/-! Joins of two lists of rows, the right row behind the left one. -/
namespace Napastak.Join

variable {α : Type} {L R L' R' : List (List α)} {p : List α → Bool} {w : Nat}

/-- Each left row with each right row. -/
def merged (L R : List (List α)) : List (List α) := L.flatMap fun l => R.map (l ++ ·)

/-- The rows without a partner. -/
def loneLeft (p : List α → Bool) (L R : List (List α)) : List (List α) := L.filter fun l => R.all fun r => !p (l ++ r)

def loneRight (p : List α → Bool) (L R : List (List α)) : List (List α) := R.filter fun r => L.all fun l => !p (l ++ r)

/-- The pairs for which `p` holds, and those rows without a partner that are kept, padded. -/
def outer (keepLeft keepRight : Bool) (padLeft padRight : List α) (p : List α → Bool) (L R : List (List α)) : List (List α) :=
  (merged L R).filter p ++ ((if keepLeft then (loneLeft p L R).map (· ++ padRight) else []) ++
    if keepRight then (loneRight p L R).map (padLeft ++ ·) else [])

theorem memMerged {x : List α} : x ∈ merged L R ↔ ∃ l ∈ L, ∃ r ∈ R, l ++ r = x := by
  rw [merged,List.mem_flatMap]
  exact exists_congr fun l => and_congr_right fun _ => List.mem_map

theorem mergedNil : merged L R = [] ↔ L = [] ∨ R = [] := by
  cases L with
  | nil => exact ⟨fun _ => .inl rfl,fun _ => rfl⟩
  | cons l L =>
    cases R with
    | nil => exact ⟨fun _ => .inr rfl,fun _ => List.flatMap_eq_nil_iff.mpr fun _ _ => rfl⟩
    | cons r R => exact ⟨fun no => absurd no (List.cons_ne_nil _ _),fun h => h.elim (absurd · (List.cons_ne_nil _ _)) (absurd · (List.cons_ne_nil _ _))⟩

theorem mergedFilter : (merged L R).filter p = L.flatMap fun l => (R.filter fun r => p (l ++ r)).map (l ++ ·) := by
  rw [merged,List.filter_flatMap]
  congr 1
  funext l
  rw [List.filter_map]
  rfl

theorem mergedLength : (merged L R).length = L.length * R.length := by
  rw [merged,List.length_flatMap]
  simp only [List.length_map,List.map_const',List.sum_replicate_nat]

theorem mergedPerm (left : L.Perm L') (right : R.Perm R') : (merged L R).Perm (merged L' R') :=
  (left.flatMap_right _).trans (List.Perm.flatMap_left _ fun _ _ => right.map _)

/-- Sides of one width are found again in the merged rows. -/
theorem leftOfPerm (wide : ∀ l ∈ L, l.length = w) (wide' : ∀ l ∈ L', l.length = w) (perm : (merged L R).Perm (merged L' R'))
    (same : R.length = R'.length) (some_ : R ≠ []) : L.Perm L' := by
  classical
  have fronts {L R : List (List α)} (wide : ∀ l ∈ L, l.length = w) (x : List α) :
      ((merged L R).map (List.take w)).count x = L.count x * R.length := by
    induction L with
    | nil => simp [merged]
    | cons l L ih =>
      obtain ⟨first,later⟩ := List.forall_mem_cons.mp wide
      have here : (R.map (l ++ ·)).map (List.take w) = List.replicate R.length l := by
        rw [List.map_map,← List.map_const']
        exact List.map_congr_left fun r _ => List.take_left' first
      rw [merged,List.flatMap_cons,List.map_append,here,List.count_append,List.count_replicate,List.count_cons,Nat.add_mul]
      rw [merged] at ih
      rw [ih later,Nat.add_comm]
      congr 1
      by_cases eq : (l == x) = true
      · rw [if_pos eq,if_pos eq,Nat.one_mul]
      · rw [if_neg eq,if_neg eq,Nat.zero_mul]
  rw [List.perm_iff_count]
  intro x
  have counts := (perm.map (List.take w)).count_eq x
  rw [fronts wide,fronts wide',same] at counts
  exact Nat.eq_of_mul_eq_mul_right (same ▸ List.length_pos_iff.mpr some_) counts

theorem rightOfPerm (wide : ∀ l ∈ L, l.length = w) (wide' : ∀ l ∈ L', l.length = w) (perm : (merged L R).Perm (merged L' R'))
    (same : L.length = L'.length) (some_ : L ≠ []) : R.Perm R' := by
  classical
  have backs {L R : List (List α)} (wide : ∀ l ∈ L, l.length = w) (x : List α) :
      ((merged L R).map (List.drop w)).count x = L.length * R.count x := by
    induction L with
    | nil => simp [merged]
    | cons l L ih =>
      obtain ⟨first,later⟩ := List.forall_mem_cons.mp wide
      have here : (R.map (l ++ ·)).map (List.drop w) = R := by
        rw [List.map_map]
        exact List.map_id'' (fun r => List.drop_left' first) R
      rw [merged,List.flatMap_cons,List.map_append,here,List.count_append,List.length_cons,Nat.succ_mul]
      rw [merged] at ih
      rw [ih later,Nat.add_comm]
  rw [List.perm_iff_count]
  intro x
  have counts := (perm.map (List.drop w)).count_eq x
  rw [backs wide,backs wide',same] at counts
  exact Nat.eq_of_mul_eq_mul_left (same ▸ List.length_pos_iff.mpr some_) counts

/-- Lists of rows of two widths are no permutations of each other but for empty ones. -/
theorem widthsApart {w' : Nat} (apart : w ≠ w') (wide : ∀ l ∈ L, l.length = w) (wide' : ∀ l ∈ L', l.length = w') :
    L.Perm L' ↔ L = [] ∧ L' = [] := by
  refine ⟨fun perm => ?_,fun ⟨l,r⟩ => by rw [l,r]⟩
  cases L with
  | nil => exact ⟨rfl,perm.nil_eq.symm⟩
  | cons l L => exact absurd ((wide l List.mem_cons_self).symm.trans (wide' l (perm.mem_iff.mp List.mem_cons_self))) apart

theorem outerWide {padLeft padRight : List α} {keepLeft keepRight : Bool} (wide : ∀ l ∈ L, l.length = padLeft.length)
    (wide' : ∀ r ∈ R, r.length = padRight.length) :
    ∀ x ∈ outer keepLeft keepRight padLeft padRight p L R, x.length = padLeft.length + padRight.length := by
  intro x mem
  rcases List.mem_append.mp mem with mem | mem
  · obtain ⟨l,inL,r,inR,rfl⟩ := memMerged.mp (List.mem_of_mem_filter mem)
    rw [List.length_append,wide l inL,wide' r inR]
  rcases List.mem_append.mp mem with mem | mem
  · split at mem
    · obtain ⟨l,inL,rfl⟩ := List.mem_map.mp mem
      rw [List.length_append,wide l (List.mem_of_mem_filter inL)]
    · cases mem
  · split at mem
    · obtain ⟨r,inR,rfl⟩ := List.mem_map.mp mem
      rw [List.length_append,wide' r (List.mem_of_mem_filter inR)]
    · cases mem

theorem outerNil {padLeft padRight : List α} {keepLeft keepRight : Bool} : outer keepLeft keepRight padLeft padRight p [] [] = [] := by
  cases keepLeft <;> cases keepRight <;> rfl

/-- Each row that is kept has a partner. -/
def Covered (keepLeft keepRight : Bool) (p : List α → Bool) (L R : List (List α)) : Prop :=
  (keepLeft = true → ∀ l ∈ L, ∃ r ∈ R, p (l ++ r) = true) ∧ (keepRight = true → ∀ r ∈ R, ∃ l ∈ L, p (l ++ r) = true)

instance {keepLeft keepRight : Bool} [DecidableEq α] : Decidable (Covered keepLeft keepRight p L R) := by
  unfold Covered
  infer_instance

theorem outerCovered {padLeft padRight : List α} {keepLeft keepRight : Bool} :
    ((merged L R).filter p).Perm (outer keepLeft keepRight padLeft padRight p L R) ↔ Covered keepLeft keepRight p L R := by
  have lone {f : List α → List α} {keep : Bool} {q : List α → Bool} {xs : List (List α)} :
      (if keep then (xs.filter q).map f else []) = [] ↔ (keep = true → ∀ x ∈ xs, ¬q x = true) := by
    cases keep with
    | false => exact ⟨fun _ => nofun,fun _ => rfl⟩
    | true => rw [if_pos rfl,List.map_eq_nil_iff,List.filter_eq_nil_iff]; exact ⟨fun h _ => h,fun h => h rfl⟩
  have none_ : outer keepLeft keepRight padLeft padRight p L R = (merged L R).filter p ↔ Covered keepLeft keepRight p L R := by
    rw [outer,List.append_right_eq_self,List.append_eq_nil_iff,loneLeft,loneRight,lone,lone,Covered]
    simp
  rw [← none_]
  refine ⟨fun perm => ?_,fun same => same ▸ List.Perm.refl _⟩
  have lengths := perm.length_eq
  rw [outer,List.length_append,Nat.left_eq_add,List.length_eq_zero_iff] at lengths
  rw [outer,lengths,List.append_nil]

end Napastak.Join
