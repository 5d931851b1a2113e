import Mathlib.Data.List.Basic

/-! First fit: one after the other, every place of a row takes the first place of a second row that suits it and is
still free. Which places are taken does not depend on which of the rows goes first. -/
namespace Napastak.FirstFit

section
variable (R : Nat → Nat → Prop)

/-- They suit each other, and neither has an earlier place. -/
def Chosen (i j : Nat) : Prop :=
  R i j ∧ (∀ k, (_ : k < j) → ¬ Chosen i k) ∧ ∀ k, (_ : k < i) → ¬ Chosen k j
termination_by i + j

end

theorem Chosen.flip {R : Nat → Nat → Prop} {i j : Nat} (h : Chosen R i j) : Chosen (fun a b => R b a) j i := by
  rw [Chosen] at h ⊢
  obtain ⟨suits,left,right⟩ := h
  exact ⟨suits,fun k less taken => right k less taken.flip,fun k less taken => left k less taken.flip⟩
termination_by i + j

section
variable {R : Nat → Nat → Prop} {i j k : Nat}

theorem Chosen.suits (h : Chosen R i j) : R i j := by
  rw [Chosen] at h
  exact h.1

theorem chosenOnce (h : Chosen R i j) (h' : Chosen R i k) : j = k := by
  have first := h
  have second := h'
  rw [Chosen] at first second
  rcases Nat.lt_trichotomy j k with less | same | less
  · exact absurd h (second.2.1 j less)
  · exact same
  · exact absurd h' (first.2.1 k less)

end

/-! ### The run -/

/-- Which places are taken in either row, and how many. -/
structure Flags where
  left : List Bool
  right : List Bool
  count : Nat
  deriving DecidableEq

/-- The place `i` looks at the places `near i` in their order. -/
def claim (near : Nat → List Nat) (suits : Nat → Nat → Bool) (st : Flags) (i : Nat) : Flags :=
  match (near i).find? fun j => !st.right.getD j false && suits i j with
  | some j => ⟨st.left.set i true,st.right.set j true,st.count + 1⟩
  | none => st

def fit (near : Nat → List Nat) (suits : Nat → Nat → Bool) (m n : Nat) : Flags :=
  (List.range m).foldl (claim near suits) ⟨List.replicate m false,List.replicate n false,0⟩

def Meets (near : Nat → List Nat) (suits : Nat → Nat → Bool) (m i j : Nat) : Prop := i < m ∧ j ∈ near i ∧ suits i j = true

/-- What the flags say when the places below `i` had their turn. -/
structure Kept (R : Nat → Nat → Prop) (m n i : Nat) (st : Flags) : Prop where
  left : st.left.length = m
  right : st.right.length = n
  leftIff : ∀ k < m, st.left[k]? = some true ↔ k < i ∧ ∃ j, Chosen R k j
  rightIff : ∀ j < n, st.right[j]? = some true ↔ ∃ k < i, Chosen R k j
  leftCount : st.left.count true = st.count
  rightCount : st.right.count true = st.count

theorem setCount {xs : List Bool} {k : Nat} (free : xs[k]? = some false) : (xs.set k true).count true = xs.count true + 1 := by
  induction xs generalizing k with
  | nil => cases free
  | cons x xs ih =>
    cases k with
    | zero =>
      cases Option.some.inj free
      rw [List.set_cons_zero,List.count_cons_self,List.count_cons_of_ne (by decide)]
    | succ k =>
      rw [List.set_cons_succ,List.count_cons,List.count_cons,ih free]
      omega

section
variable {near : Nat → List Nat} {suits : Nat → Nat → Bool} {m n i : Nat} {st : Flags}

/-- The first free place that suits is the one that is chosen. -/
theorem findChosen (sorted : (near i).Pairwise (· < ·)) (inside : ∀ j ∈ near i, j < n) (i_ : i < m)
    (kept : Kept (Meets near suits m) m n i st) (j : Nat) :
    (near i).find? (fun j => !st.right.getD j false && suits i j) = some j ↔ Chosen (Meets near suits m) i j := by
  -- a place is free where nothing before `i` has chosen it
  have free {j : Nat} (mem : j ∈ near i) : (!st.right.getD j false) = true ↔ ∀ k, k < i → ¬ Chosen (Meets near suits m) k j := by
    have iff := kept.rightIff j (inside j mem)
    rw [List.getElem?_eq_getElem (kept.right ▸ inside j mem),Option.some.injEq] at iff
    rw [List.getD_eq_getElem?_getD,List.getElem?_eq_getElem (kept.right ▸ inside j mem),Option.getD_some,Bool.not_eq_true',
      ← Bool.not_eq_true]
    exact ⟨fun no k less taken => no (iff.mpr ⟨k,less,taken⟩),fun none_ yes => (iff.mp yes).elim fun k ⟨less,taken⟩ => none_ k less taken⟩
  rw [List.find?_eq_some_iff_append]
  constructor
  · rintro ⟨yes,as,bs,is,before⟩
    have mem : j ∈ near i := is ▸ List.mem_append_right _ List.mem_cons_self
    rw [Bool.and_eq_true] at yes
    rw [Chosen]
    refine ⟨⟨i_,mem,yes.2⟩,fun k less taken => ?_,(free mem).mp yes.1⟩
    obtain ⟨_,mem',suits'⟩ := taken.suits
    have first : k ∈ as := by
      rw [is] at mem' sorted
      rcases List.mem_append.mp mem' with first | later
      · exact first
      · rcases List.mem_cons.mp later with rfl | later
        · exact absurd less (Nat.lt_irrefl _)
        · exact absurd less (Nat.lt_asymm ((List.pairwise_cons.mp (List.pairwise_append.mp sorted).2.1).1 k later))
    have no := before k first
    rw [Chosen] at taken
    rw [(free mem').mpr taken.2.2,suits'] at no
    cases no
  · intro chosen
    have meets := chosen.suits
    obtain ⟨as,bs,is⟩ := List.append_of_mem meets.2.1
    rw [Chosen] at chosen
    refine ⟨by rw [(free meets.2.1).mpr chosen.2.2,meets.2.2]; rfl,as,bs,is,fun k first => ?_⟩
    have mem' : k ∈ near i := is ▸ List.mem_append_left _ first
    have less : k < j := by
      rw [is] at sorted
      exact (List.pairwise_append.mp sorted).2.2 k first j List.mem_cons_self
    have no := chosen.2.1 k less
    rw [Chosen] at no
    rw [Bool.not_eq_true',← Bool.not_eq_true,Bool.and_eq_true]
    exact fun ⟨open_,suits'⟩ => no ⟨⟨i_,mem',suits'⟩,fun k' less' => chosen.2.1 k' (Nat.lt_trans less' less),(free mem').mp open_⟩

theorem claimKept (sorted : (near i).Pairwise (· < ·)) (inside : ∀ j ∈ near i, j < n) (i_ : i < m)
    (kept : Kept (Meets near suits m) m n i st) : Kept (Meets near suits m) m n (i + 1) (claim near suits st i) := by
  have find := findChosen sorted inside i_ kept
  rw [claim]
  cases found : (near i).find? (fun j => !st.right.getD j false && suits i j) with
  | none =>
    have nobody (j : Nat) : ¬ Chosen (Meets near suits m) i j := fun chosen => by
      rw [← find,found] at chosen
      cases chosen
    refine ⟨kept.left,kept.right,fun k k_ => ?_,fun j j_ => ?_,kept.leftCount,kept.rightCount⟩
    · rw [kept.leftIff k k_]
      refine and_congr_left fun ⟨j,chosen⟩ => ⟨fun less => Nat.lt_succ_of_lt less,fun less => ?_⟩
      exact (Nat.lt_succ_iff_lt_or_eq.mp less).resolve_right fun same => nobody j (same ▸ chosen)
    · rw [kept.rightIff j j_]
      refine ⟨fun ⟨k,less,chosen⟩ => ⟨k,Nat.lt_succ_of_lt less,chosen⟩,fun ⟨k,less,chosen⟩ => ⟨k,?_,chosen⟩⟩
      exact (Nat.lt_succ_iff_lt_or_eq.mp less).resolve_right fun same => nobody j (same ▸ chosen)
  | some j =>
    have chosen : Chosen (Meets near suits m) i j := (find j).mp found
    have j_ : j < n := inside j chosen.suits.2.1
    have freeLeft : st.left[i]? = some false := by
      rw [List.getElem?_eq_getElem (kept.left ▸ i_),Option.some.injEq,← Bool.not_eq_true]
      intro taken
      have iff := kept.leftIff i i_
      rw [List.getElem?_eq_getElem (kept.left ▸ i_),taken] at iff
      exact absurd (iff.mp rfl).1 (Nat.lt_irrefl i)
    have freeRight : st.right[j]? = some false := by
      rw [List.getElem?_eq_getElem (kept.right ▸ j_),Option.some.injEq,← Bool.not_eq_true]
      intro taken
      have iff := kept.rightIff j j_
      rw [List.getElem?_eq_getElem (kept.right ▸ j_),taken] at iff
      obtain ⟨k,less,chosen'⟩ := iff.mp rfl
      exact absurd (chosenOnce chosen'.flip chosen.flip) (Nat.ne_of_lt less)
    refine ⟨by rw [List.length_set,kept.left],by rw [List.length_set,kept.right],fun k k_ => ?_,fun l l_ => ?_,
      by rw [setCount freeLeft,kept.leftCount],by rw [setCount freeRight,kept.rightCount]⟩
    · rw [List.getElem?_set]
      split
      · rename_i same
        subst same
        rw [if_pos (kept.left ▸ i_)]
        exact ⟨fun _ => ⟨Nat.lt_succ_self i,j,chosen⟩,fun _ => rfl⟩
      · rename_i other
        rw [kept.leftIff k k_]
        refine and_congr_left fun _ => ⟨fun less => Nat.lt_succ_of_lt less,fun less => ?_⟩
        exact (Nat.lt_succ_iff_lt_or_eq.mp less).resolve_right fun same => other same.symm
    · rw [List.getElem?_set]
      split
      · rename_i same
        subst same
        rw [if_pos (kept.right ▸ j_)]
        exact ⟨fun _ => ⟨i,Nat.lt_succ_self i,chosen⟩,fun _ => rfl⟩
      · rename_i other
        rw [kept.rightIff l l_]
        refine ⟨fun ⟨k,less,chosen'⟩ => ⟨k,Nat.lt_succ_of_lt less,chosen'⟩,fun ⟨k,less,chosen'⟩ => ⟨k,?_,chosen'⟩⟩
        exact (Nat.lt_succ_iff_lt_or_eq.mp less).resolve_right fun same => other (chosenOnce chosen (same ▸ chosen'))

end

section
variable {near near' : Nat → List Nat} {suits suits' : Nat → Nat → Bool} {m n : Nat}

theorem sameFlags {xs ys : List Bool} (length : xs.length = ys.length)
    (same : ∀ k < xs.length, xs[k]? = some true ↔ ys[k]? = some true) : xs = ys := by
  refine List.ext_getElem length fun k k_ k_' => Bool.eq_iff_iff.mpr ?_
  have iff := same k k_
  rwa [List.getElem?_eq_getElem k_,List.getElem?_eq_getElem k_',Option.some.injEq,Option.some.injEq] at iff

structure Looks (near : Nat → List Nat) (n : Nat) : Prop where
  sorted : ∀ i, (near i).Pairwise (· < ·)
  inside : ∀ i, ∀ j ∈ near i, j < n

theorem fitKept (looks : Looks near n) : Kept (Meets near suits m) m n m (fit near suits m n) := by
  suffices run : ∀ i ≤ m, Kept (Meets near suits m) m n i
      ((List.range i).foldl (claim near suits) ⟨List.replicate m false,List.replicate n false,0⟩) from run m (Nat.le_refl m)
  intro i
  induction i with
  | zero =>
    refine fun _ => ⟨List.length_replicate,List.length_replicate,fun k k_ => ?_,fun j j_ => ?_,?_,?_⟩
    · exact ⟨fun taken => by simp [k_] at taken,fun ⟨less,_⟩ => absurd less (Nat.not_lt_zero k)⟩
    · exact ⟨fun taken => by simp [j_] at taken,fun ⟨k,less,_⟩ => absurd less (Nat.not_lt_zero k)⟩
    · exact List.count_eq_zero.mpr fun mem => nomatch (List.mem_replicate.mp mem).2
    · exact List.count_eq_zero.mpr fun mem => nomatch (List.mem_replicate.mp mem).2
  | succ i ih =>
    intro i_
    rw [List.range_succ,List.foldl_append]
    exact claimKept (looks.sorted i) (looks.inside i) i_ (ih (Nat.le_of_lt i_))

/-- If the other row goes first, the flags are the same. -/
theorem fitFlip (looks : Looks near n) (looks' : Looks near' m)
    (turned : ∀ i < m, ∀ j < n, j ∈ near i ∧ suits i j = true ↔ i ∈ near' j ∧ suits' j i = true) :
    fit near' suits' n m = ⟨(fit near suits m n).right,(fit near suits m n).left,(fit near suits m n).count⟩ := by
  have kept : Kept (Meets near suits m) m n m (fit near suits m n) := fitKept looks
  have kept' : Kept (Meets near' suits' n) n m n (fit near' suits' n m) := fitKept looks'
  have same : Meets near' suits' n = fun j i => Meets near suits m i j := by
    funext j i
    refine propext ⟨fun ⟨j_,mem,yes⟩ => ?_,fun ⟨i_,mem,yes⟩ => ?_⟩
    · have i_ := looks'.inside j i mem
      exact ⟨i_,(turned i i_ j j_).mpr ⟨mem,yes⟩⟩
    · have j_ := looks.inside i j mem
      exact ⟨j_,(turned i i_ j j_).mp ⟨mem,yes⟩⟩
  rw [same] at kept'
  have left : (fit near' suits' n m).left = (fit near suits m n).right := by
    refine sameFlags (kept'.left.trans kept.right.symm) fun j j_ => ?_
    rw [kept'.left] at j_
    rw [kept'.leftIff j j_,kept.rightIff j j_]
    exact ⟨fun ⟨_,i,chosen⟩ => ⟨i,chosen.flip.suits.1,chosen.flip⟩,fun ⟨i,_,chosen⟩ => ⟨j_,i,chosen.flip⟩⟩
  have right : (fit near' suits' n m).right = (fit near suits m n).left := by
    refine sameFlags (kept'.right.trans kept.left.symm) fun i i_ => ?_
    rw [kept'.right] at i_
    rw [kept'.rightIff i i_,kept.leftIff i i_]
    exact ⟨fun ⟨j,_,chosen⟩ => ⟨i_,j,chosen.flip⟩,fun ⟨_,j,chosen⟩ => ⟨j,looks.inside i j chosen.suits.2.1,chosen.flip⟩⟩
  have count : (fit near' suits' n m).count = (fit near suits m n).count := by
    rw [← kept'.leftCount,left,kept.rightCount]
  rw [← left,← right,← count]

end
end Napastak.FirstFit
