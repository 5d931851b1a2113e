import Napastak.Val
import Mathlib.Data.List.Infix

/-! The patterns of LIKE as languages, and the matcher that walks over them. -/
namespace Napastak.Query

/-- The strings of a pattern: `%` stands for any run of bytes, `_` for one byte, another byte for those it is the same as. -/
inductive Matches (same : UInt8 → UInt8 → Prop) : Bytes → Bytes → Prop
  | done : Matches same [] []
  | run {p s : Bytes} (taken : Bytes) : Matches same p s → Matches same (37 :: p) (taken ++ s)
  | one {p s : Bytes} (a : UInt8) : Matches same p s → Matches same (95 :: p) (a :: s)
  | byte {p s : Bytes} {c a : UInt8} : c ≠ 37 → c ≠ 95 → same c a → Matches same p s → Matches same (c :: p) (a :: s)

/-- Bytes that LIKE, and with `icase` ILIKE, do not tell apart. -/
def folded (icase : Bool) (c a : UInt8) : Prop := if icase then tolower c = tolower a else c = a

section
variable {same : UInt8 → UInt8 → Prop} {p s : Bytes}

theorem matchesNil : Matches same [] s ↔ s = [] := by
  constructor
  · intro h
    cases h
    rfl
  · rintro rfl
    exact .done

theorem matchesRun : Matches same (37 :: p) s ↔ ∃ t, t <:+ s ∧ Matches same p t := by
  constructor
  · intro h
    cases h with
    | @run _ t taken rest => exact ⟨t,⟨taken,rfl⟩,rest⟩
    | byte c37 => exact absurd rfl c37
  · rintro ⟨t,⟨taken,rfl⟩,rest⟩
    exact .run taken rest

/-- Several `%` in a row are one. -/
theorem matchesRuns : Matches same (37 :: p) s ↔ Matches same (37 :: p.dropWhile (· = 37)) s := by
  induction p generalizing s with
  | nil => rfl
  | cons c p ih =>
    by_cases run : c = 37
    · rw [List.dropWhile_cons,if_pos (decide_eq_true run),← ih,run]
      constructor
      · intro h
        obtain ⟨t,within,rest⟩ := matchesRun.mp h
        obtain ⟨u,inner,rest⟩ := matchesRun.mp rest
        exact matchesRun.mpr ⟨u,inner.trans within,rest⟩
      · intro h
        exact matchesRun.mpr ⟨s,List.suffix_refl s,h⟩
    · rw [List.dropWhile_cons,if_neg (by simpa using run)]

theorem matchesAny : Matches same [37] s := by
  have := Matches.run s (.done : Matches same [] [])
  rwa [List.append_nil] at this

theorem matchesByte {c : UInt8} (run : c ≠ 37) :
    Matches same (c :: p) s ↔ ∃ a t, s = a :: t ∧ (c = 95 ∨ same c a) ∧ Matches same p t := by
  constructor
  · intro h
    cases h with
    | run => exact absurd rfl run
    | one a rest => exact ⟨a,_,rfl,.inl rfl,rest⟩
    | byte _ _ is rest => exact ⟨_,_,rfl,.inr is,rest⟩
  · rintro ⟨a,t,rfl,is,rest⟩
    by_cases one : c = 95
    · rw [one]
      exact .one a rest
    · exact .byte run one (is.resolve_left one) rest

end

theorem likeRRun (s p : Bytes) : likeR s (37 :: p) =
    if (p.dropWhile (· = 37)).isEmpty then true else s.tails.any fun t => likeR t (p.dropWhile (· = 37)) := by
  rw [likeR.eq_def]
  rfl

/-- One round of the matcher for each byte of the pattern, and one for each place where the run of a `%` can end. -/
theorem likeRMatches (s p : Bytes) : likeR s p = true ↔ Matches (· = ·) p s := by
  induction s, p using likeR.induct with
  | case1 s => rw [likeR,matchesNil,List.isEmpty_iff]
  | case2 s p rest all =>
    have none_ : p.dropWhile (· = 37) = [] := List.isEmpty_iff.mp all
    rw [likeRRun,if_pos all,matchesRuns,none_]
    exact iff_of_true rfl matchesAny
  | case3 s p rest more ih =>
    rw [likeRRun,if_neg more,matchesRuns,matchesRun,List.any_eq_true]
    exact exists_congr fun t => and_congr (List.mem_tails t s) (ih t)
  | case4 c p run =>
    rw [likeR,if_neg run,matchesByte run]
    exact iff_of_false Bool.false_ne_true fun ⟨a,t,is,_⟩ => nomatch is
  | case5 c p run a s is ih =>
    rw [likeR,if_neg run,if_pos is,matchesByte run,ih]
    constructor
    · intro h
      exact ⟨a,s,rfl,is.imp id Eq.symm,h⟩
    · rintro ⟨a',s',same,_,h⟩
      rwa [(List.cons.inj same).2]
  | case6 c p run a s other =>
    rw [likeR,if_neg run,if_neg other,matchesByte run]
    refine iff_of_false Bool.false_ne_true ?_
    rintro ⟨a',s',same,is,_⟩
    exact other (is.imp id fun e => (List.cons.inj same).1.trans e.symm)

/-! ### Case folding -/

theorem tolowerPattern {c : UInt8} : (tolower c = 37 ↔ c = 37) ∧ (tolower c = 95 ↔ c = 95) := by
  rw [tolower]
  split
  · rename_i upper
    have lo : 65 ≤ c.toNat := UInt8.le_iff_toNat_le.mp upper.1
    have hi : c.toNat ≤ 90 := UInt8.le_iff_toNat_le.mp upper.2
    have sum : (c + 32).toNat = c.toNat + 32 := by
      rw [UInt8.toNat_add]
      exact Nat.mod_eq_of_lt (by simp; omega)
    simp only [← UInt8.toNat_inj,sum]
    simp only [show (37 : UInt8).toNat = 37 from rfl,show (95 : UInt8).toNat = 95 from rfl]
    omega
  · exact ⟨Iff.rfl,Iff.rfl⟩

theorem matchesFold (p s : Bytes) :
    Matches (· = ·) (p.map tolower) (s.map tolower) ↔ Matches (fun c a => tolower c = tolower a) p s := by
  induction p generalizing s with
  | nil => rw [List.map_nil,matchesNil,matchesNil,List.map_eq_nil_iff]
  | cons c p ih =>
    rw [List.map_cons]
    by_cases run : c = 37
    · rw [run,tolowerPattern.1.mpr rfl,matchesRun,matchesRun]
      constructor
      · rintro ⟨t,within,rest⟩
        obtain ⟨u,inside,rfl⟩ := List.suffix_map_iff.mp within
        exact ⟨u,inside,(ih u).mp rest⟩
      · rintro ⟨t,within,rest⟩
        exact ⟨t.map tolower,within.map tolower,(ih t).mpr rest⟩
    · rw [matchesByte (fun e => run (tolowerPattern.1.mp e)),matchesByte run]
      constructor
      · rintro ⟨a,t,split,is,rest⟩
        obtain ⟨b,u,rfl,rfl,rfl⟩ := List.map_eq_cons_iff.mp split
        exact ⟨b,u,rfl,is.imp tolowerPattern.2.mp id,(ih u).mp rest⟩
      · rintro ⟨b,u,rfl,is,rest⟩
        exact ⟨tolower b,u.map tolower,rfl,is.imp tolowerPattern.2.mpr id,(ih u).mpr rest⟩

/-- LIKE and ILIKE end on every string and pattern and hold for the strings of the pattern. -/
theorem likeIsLanguage (s p : Bytes) (icase : Bool) : likeMatch s p icase = true ↔ Matches (folded icase) p s := by
  cases icase with
  | false => exact likeRMatches s p
  | true =>
    rw [likeMatch,if_pos rfl,likeRMatches]
    exact matchesFold p s

end Napastak.Query
