import Mathlib.Data.List.Count
import Mathlib.Order.Basic

/-! Sorts that are given a comparator: what is known of their results, and that no more is. -/
namespace Napastak.Qsort

variable {α : Type}

/-- On the elements of `l` the comparator is that of a total preorder. -/
structure Consistent (cmp : α → α → Int) (l : List α) : Prop where
  flip : ∀ a ∈ l, ∀ b ∈ l, (cmp b a).sign = -(cmp a b).sign
  trans : ∀ a ∈ l, ∀ b ∈ l, ∀ c ∈ l, cmp a b ≤ 0 → cmp b c ≤ 0 → cmp a c ≤ 0

/-- A sort only has to sort where the comparator is consistent. -/
structure Lawful (qsort : (α → α → Int) → List α → List α) : Prop where
  perm : ∀ cmp l, (qsort cmp l).Perm l
  sorted : ∀ cmp l, Consistent cmp l → (qsort cmp l).Pairwise fun a b => cmp a b ≤ 0

/-- How many elements are before `a`. -/
def rank (cmp : α → α → Int) (l : List α) (a : α) : Nat := l.countP fun b => cmp b a < 0

def byKey (key : α → Nat) (l : List α) : List α := l.mergeSort fun a b => key a ≤ key b

variable {cmp : α → α → Int} {l : List α} {a b : α}

theorem byKeyPerm (key : α → Nat) (l : List α) : (byKey key l).Perm l := List.mergeSort_perm l _

theorem byKeySorted (key : α → Nat) (l : List α) : (byKey key l).Pairwise fun a b => key a ≤ key b := by
  have sorted := @List.pairwise_mergeSort _ (fun a b : α => decide (key a ≤ key b))
    (fun a b c ab bc => decide_eq_true (Nat.le_trans (of_decide_eq_true ab) (of_decide_eq_true bc)))
    (fun a b => by simpa using Nat.le_total (key a) (key b)) l
  exact sorted.imp fun ab => of_decide_eq_true ab

/-- What has the less key comes first. -/
theorem byKeyFirst {key : α → Nat} (inList : a ∈ l) (inList' : b ∈ l) (less : key a < key b) {r : α → α → Prop}
    (pairwise : (byKey key l).Pairwise r) : r a b := by
  have both := (byKeySorted key l).and pairwise
  obtain ⟨i,at_,rfl⟩ := List.getElem_of_mem ((byKeyPerm key l).mem_iff.mpr inList)
  obtain ⟨j,at_',rfl⟩ := List.getElem_of_mem ((byKeyPerm key l).mem_iff.mpr inList')
  rw [List.pairwise_iff_getElem] at both
  rcases Nat.lt_trichotomy i j with before | rfl | behind
  · exact (both i j at_ at_' before).2
  · exact absurd less (Nat.lt_irrefl _)
  · exact absurd (both j i at_' at_ behind).1 (Nat.not_le.mpr less)

theorem countLess {p q : α → Bool} (sub : ∀ x ∈ l, p x = true → q x = true) (mem : a ∈ l) (no : p a = false) (yes : q a = true) :
    l.countP p < l.countP q := by
  obtain ⟨s,t,rfl⟩ := List.append_of_mem mem
  have front := List.countP_mono_left (l := s) fun x inFront => sub x (List.mem_append_left _ inFront)
  have back := List.countP_mono_left (l := t) fun x inBack => sub x (List.mem_append_right _ (List.mem_cons_of_mem _ inBack))
  rw [List.countP_append,List.countP_append,List.countP_cons,List.countP_cons,no,yes]
  simp only [Bool.false_eq_true,if_false,if_true]
  omega

theorem Consistent.self (consistent : Consistent cmp l) (mem : a ∈ l) : cmp a a = 0 := by
  have flip := consistent.flip a mem a mem
  exact Int.sign_eq_zero_iff_zero.mp (by omega)

theorem Consistent.pos (consistent : Consistent cmp l) (mem : a ∈ l) (mem' : b ∈ l) : 0 < cmp a b ↔ cmp b a < 0 := by
  have flip := consistent.flip a mem b mem'
  rw [← Int.sign_eq_one_iff_pos,← Int.sign_eq_neg_one_iff_neg,flip]
  omega

theorem Consistent.rankLe (consistent : Consistent cmp l) (mem : a ∈ l) (mem' : b ∈ l) : rank cmp l a ≤ rank cmp l b ↔ cmp a b ≤ 0 := by
  constructor
  · intro le
    by_contra more
    have less := (consistent.pos mem mem').mp (Int.not_le.mp more)
    refine absurd le (Nat.not_le.mpr (countLess (a := b) (fun x inList before => ?_) mem' ?_ (decide_eq_true less)))
    · have before := of_decide_eq_true before
      have le := consistent.trans x inList b mem' a mem (by omega) (by omega)
      by_contra no
      have zero : cmp x a = 0 := by
        have := of_decide_eq_false (Bool.eq_false_iff.mpr no)
        omega
      have back : cmp a x ≤ 0 := by
        by_contra above_
        have := (consistent.pos mem inList).mp (Int.not_le.mp above_)
        omega
      exact more (consistent.trans a mem x inList b mem' back (by omega))
    · rw [consistent.self mem']
      rfl
  · intro le
    refine List.countP_mono_left fun x inList before => decide_eq_true ?_
    have before := of_decide_eq_true before
    have up := consistent.trans x inList a mem b mem' (by omega) le
    by_contra no
    have back : cmp b x ≤ 0 := by
      by_contra above_
      have := (consistent.pos mem' inList).mp (Int.not_le.mp above_)
      omega
    have := (consistent.pos mem inList).mpr before
    have := consistent.trans a mem b mem' x inList le back
    omega

theorem byRankSorted (consistent : Consistent cmp l) : (byKey (rank cmp l) l).Pairwise fun a b => cmp a b ≤ 0 :=
  List.Pairwise.imp_of_mem (fun inList inList' le =>
    (consistent.rankLe ((byKeyPerm _ l).mem_iff.mp inList) ((byKeyPerm _ l).mem_iff.mp inList')).mp le) (byKeySorted _ l)

theorem lawfulRank : Lawful fun (cmp : α → α → Int) l => byKey (rank cmp l) l where
  perm _ l := byKeyPerm _ l
  sorted _ _ consistent := byRankSorted consistent

/-- Any order of the elements may be the result, a sorted one where the comparator is consistent. -/
theorem lawfulAny {out : List α} (perm : out.Perm l) (sorted : Consistent cmp l → out.Pairwise fun a b => cmp a b ≤ 0) :
    ∃ qsort, Lawful qsort ∧ qsort cmp l = out := by
  classical
  refine ⟨fun cmp' l' => if cmp' = cmp ∧ l' = l then out else byKey (rank cmp' l') l',⟨fun cmp' l' => ?_,fun cmp' l' consistent => ?_⟩,
    if_pos ⟨rfl,rfl⟩⟩
  · split
    · rename_i same
      rw [same.2]
      exact perm
    · exact byKeyPerm _ l'
  · split
    · rename_i same
      obtain ⟨rfl,rfl⟩ := same
      exact sorted consistent
    · exact byRankSorted consistent

/-- A sorted order in which `a` is before `b`. -/
theorem Consistent.first (consistent : Consistent cmp l) (mem : a ∈ l) (mem' : b ∈ l) (apart : a ≠ b) (le : cmp a b ≤ 0) :
    ∃ out : List α, out.Perm l ∧ (out.Pairwise fun a b => cmp a b ≤ 0) ∧ ∀ r : α → α → Prop, out.Pairwise r → r a b := by
  classical
  let key (x : α) : Nat := 2 * rank cmp l x + if x = a then 0 else 1
  have ranks := (consistent.rankLe mem mem').mpr le
  refine ⟨byKey key l,byKeyPerm key l,?_,fun r pairwise => byKeyFirst mem mem' ?_ pairwise⟩
  · refine List.Pairwise.imp_of_mem (fun inList inList' le => ?_) (byKeySorted key l)
    refine (consistent.rankLe ((byKeyPerm key l).mem_iff.mp inList) ((byKeyPerm key l).mem_iff.mp inList')).mp ?_
    dsimp only [key] at le
    split at le <;> split at le <;> omega
  · dsimp only [key]
    rw [if_pos rfl,if_neg apart.symm]
    omega

/-- Some order in which `a` is before `b`. -/
theorem anyFirst (mem : a ∈ l) (mem' : b ∈ l) (apart : a ≠ b) :
    ∃ out : List α, out.Perm l ∧ ∀ r : α → α → Prop, out.Pairwise r → r a b := by
  classical
  refine ⟨byKey (fun x => if x = a then 0 else 1) l,byKeyPerm _ l,fun r pairwise => byKeyFirst mem mem' ?_ pairwise⟩
  rw [if_pos rfl,if_neg apart.symm]
  exact Nat.zero_lt_one

/-- What holds of every result: it follows from the comparator, or the order of the elements makes no difference. -/
theorem pairwiseIff (distinct : l.Nodup) {r : α → α → Prop} : (∀ qsort, Lawful qsort → (qsort cmp l).Pairwise r) ↔
    (Consistent cmp l ∧ ∀ a ∈ l, ∀ b ∈ l, a ≠ b → cmp a b ≤ 0 → r a b) ∨ ∀ a ∈ l, ∀ b ∈ l, a ≠ b → r a b := by
  constructor
  · intro all
    have given {out : List α} (perm : out.Perm l) (sorted : Consistent cmp l → out.Pairwise fun a b => cmp a b ≤ 0) : out.Pairwise r := by
      obtain ⟨qsort,lawful,is⟩ := lawfulAny perm sorted
      exact is ▸ all qsort lawful
    by_cases consistent : Consistent cmp l
    · refine .inl ⟨consistent,fun a mem b mem' apart le => ?_⟩
      obtain ⟨out,perm,sorted,first⟩ := consistent.first mem mem' apart le
      exact first r (given perm fun _ => sorted)
    · refine .inr fun a mem b mem' apart => ?_
      obtain ⟨out,perm,first⟩ := anyFirst mem mem' apart
      exact first r (given perm fun yes => absurd yes consistent)
  · intro is qsort lawful
    have perm := lawful.perm cmp l
    have apart : (qsort cmp l).Pairwise (· ≠ ·) := perm.nodup_iff.mpr distinct
    rcases is with ⟨consistent,sound⟩ | any_
    · exact (apart.and (lawful.sorted cmp l consistent)).imp_of_mem fun mem mem' both =>
        sound _ (perm.mem_iff.mp mem) _ (perm.mem_iff.mp mem') both.1 both.2
    · exact apart.imp_of_mem fun mem mem' ne => any_ _ (perm.mem_iff.mp mem) _ (perm.mem_iff.mp mem') ne

section
variable {β : Type} {cmp' : β → β → Int} {l' : List β} {f : α → β}

/-- A comparator that looks at the images alone. -/
theorem consistentImage (into : ∀ a ∈ l, f a ∈ l') (onto : ∀ y ∈ l', ∃ a ∈ l, f a = y)
    (same : ∀ a ∈ l, ∀ b ∈ l, cmp a b = cmp' (f a) (f b)) : Consistent cmp l ↔ Consistent cmp' l' := by
  constructor
  · rintro ⟨flip,trans⟩
    refine ⟨fun x inX y inY => ?_,fun x inX y inY z inZ => ?_⟩
    · obtain ⟨a,inA,rfl⟩ := onto x inX
      obtain ⟨b,inB,rfl⟩ := onto y inY
      rw [← same a inA b inB,← same b inB a inA]
      exact flip a inA b inB
    · obtain ⟨a,inA,rfl⟩ := onto x inX
      obtain ⟨b,inB,rfl⟩ := onto y inY
      obtain ⟨c,inC,rfl⟩ := onto z inZ
      rw [← same a inA b inB,← same b inB c inC,← same a inA c inC]
      exact trans a inA b inB c inC
  · rintro ⟨flip,trans⟩
    refine ⟨fun a inA b inB => ?_,fun a inA b inB c inC => ?_⟩
    · rw [same a inA b inB,same b inB a inA]
      exact flip _ (into a inA) _ (into b inB)
    · rw [same a inA b inB,same b inB c inC,same a inA c inC]
      exact trans _ (into a inA) _ (into b inB) _ (into c inC)

theorem pairsImage {q : α → α → Prop} {q' : β → β → Prop} (into : ∀ a ∈ l, f a ∈ l') (onto : ∀ y ∈ l', ∃ a ∈ l, f a = y)
    (same : ∀ a ∈ l, ∀ b ∈ l, q a b ↔ q' (f a) (f b)) (refl : ∀ y, q' y y) :
    (∀ a ∈ l, ∀ b ∈ l, a ≠ b → q a b) ↔ ∀ x ∈ l', ∀ y ∈ l', q' x y := by
  constructor
  · intro all x inX y inY
    obtain ⟨a,inA,rfl⟩ := onto x inX
    obtain ⟨b,inB,rfl⟩ := onto y inY
    by_cases apart : a = b
    · rw [apart]
      exact refl _
    · exact (same a inA b inB).mp (all a inA b inB apart)
  · exact fun all a inA b inB _ => (same a inA b inB).mpr (all _ (into a inA) _ (into b inB))

end

end Napastak.Qsort
