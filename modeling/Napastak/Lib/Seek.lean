import Mathlib.Data.List.Infix

/-! The first place in a list where a test of the rest of the list succeeds, and the first occurrence of a pattern. -/
namespace Napastak.Seek
variable {α : Type}

/-- The longest tail that passes. -/
def seek (p : List α → Bool) (s : List α) : Option (List α) := s.tails.find? p

variable {p : List α → Bool}

theorem seekHere {s : List α} (here : p s = true) : seek p s = some s := by
  cases s with
  | nil => rw [seek,List.tails,List.find?_cons,here]
  | cons c s => rw [seek,List.tails,List.find?_cons,here]

theorem seekNil (not : p [] = false) : seek p [] = none := by
  rw [seek,List.tails,List.find?_cons,not]
  rfl

theorem seekLater {c : α} {s : List α} (not : p (c :: s) = false) : seek p (c :: s) = seek p s := by
  rw [seek,List.tails,List.find?_cons,not]
  rfl

/-- A test that looks for a first element passes over what does not have it. -/
theorem seekSkip {c : α} (first : ∀ t, p t = true → t.head? = some c) {x : List α} (plain : c ∉ x) (r : List α) :
    seek p (x ++ r) = seek p r := by
  induction x with
  | nil => rfl
  | cons a x ih =>
    have other : p (a :: (x ++ r)) = false := Bool.eq_false_iff.mpr fun passes => by
      cases first _ passes
      exact plain List.mem_cons_self
    rw [List.cons_append,seekLater other]
    exact ih fun mem => plain (List.mem_cons_of_mem _ mem)

theorem seekSound {s t : List α} (found : seek p s = some t) : t <:+ s ∧ p t = true :=
  ⟨(List.mem_tails _ _).mp (List.mem_of_find?_eq_some found),List.find?_some found⟩

theorem seekNone {s : List α} : seek p s = none ↔ ∀ t, t <:+ s → p t = false := by
  simp only [seek,List.find?_eq_none,List.mem_tails,Bool.not_eq_true]

theorem seekFirst {s t : List α} (found : seek p s = some t) {u : List α} (tail : u <:+ s) (passes : p u = true) :
    u.length ≤ t.length := by
  induction s with
  | nil =>
    rw [List.suffix_nil.mp tail]
    exact Nat.zero_le _
  | cons c s ih =>
    by_cases here : p (c :: s) = true
    · cases (seekHere here).symm.trans found
      exact tail.length_le
    · rw [seekLater (Bool.eq_false_iff.mpr here)] at found
      rcases List.suffix_cons_iff.mp tail with rfl | later
      · exact absurd passes here
      · exact ih found later

section
variable [BEq α] [LawfulBEq α]

theorem patternNone {s n : List α} : seek (fun t => n.isPrefixOf t) s = none ↔ ¬ n <:+: s := by
  rw [seekNone]
  constructor
  · rintro none_ ⟨before,after,is⟩
    have here := none_ (n ++ after) ⟨before,by rw [← List.append_assoc,is]⟩
    exact absurd (List.isPrefixOf_iff_prefix.mpr (List.prefix_append n after)) (Bool.eq_false_iff.mp here)
  · rintro apart t ⟨before,rfl⟩
    refine Bool.eq_false_iff.mpr fun here => apart ?_
    obtain ⟨after,rfl⟩ := List.isPrefixOf_iff_prefix.mp here
    exact ⟨before,after,List.append_assoc ..⟩

/-- A pattern first found at the end of a text is in no text that stops before. -/
theorem patternUnfinished {s n : List α} (end_ : seek (fun t => n.isPrefixOf t) s = some n) {u : List α} (short : u <+: s)
    (less : u.length < s.length) : seek (fun t => n.isPrefixOf t) u = none := by
  rw [patternNone]
  rintro ⟨before,after,rfl⟩
  obtain ⟨more,rfl⟩ := short
  have tail : n ++ after ++ more <:+ before ++ n ++ after ++ more := ⟨before,by simp only [List.append_assoc]⟩
  have bound := seekFirst end_ tail (List.isPrefixOf_iff_prefix.mpr (by rw [List.append_assoc]; exact List.prefix_append ..))
  simp only [List.length_append] at bound less
  omega

end

end Napastak.Seek
