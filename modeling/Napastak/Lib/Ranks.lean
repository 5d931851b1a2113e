import Mathlib.Data.List.SplitBy
import Mathlib.Data.List.TakeWhile
import Mathlib.Data.Set.Function
import Mathlib.Data.Finset.Card
import Mathlib.Data.List.Dedup
import Mathlib.Order.Interval.Set.Defs

/-! Runs of one key in a sorted list, and the ranks that a walk over a run gives by the changes of a second key. -/
namespace Napastak.Ranks

variable {α κ : Type} [DecidableEq κ]

/-! ### Runs -/

def runs (key : α → κ) (l : List α) : List (List α) := l.splitBy fun a b => key a = key b

section
variable (key : α → κ)

theorem runsCons (x : α) (l : List α) :
    runs key (x :: l) = (x :: l.takeWhile fun y => key y = key x) :: runs key (l.dropWhile fun y => key y = key x) := by
  have own {y : α} (mem : y ∈ x :: l.takeWhile fun y => key y = key x) : key y = key x := by
    rcases List.mem_cons.1 mem with rfl | mem
    · rfl
    · exact of_decide_eq_true (List.mem_takeWhile_imp (p := fun y => decide (key y = key x)) mem)
  have one : runs key (x :: l.takeWhile fun y => key y = key x) = [x :: l.takeWhile fun y => key y = key x] := by
    refine List.splitBy_of_isChain (List.cons_ne_nil _ _) (List.Pairwise.isChain ?_)
    exact List.pairwise_of_forall_mem_list fun a ha b hb => decide_eq_true ((own ha).trans (own hb).symm)
  have apart : ∀ a ∈ (x :: l.takeWhile fun y => key y = key x).getLast?, ∀ b ∈ (l.dropWhile fun y => key y = key x).head?,
      decide (key a = key b) = false := by
    intro a ha b hb
    have stop := List.head?_dropWhile_not (fun y => decide (key y = key x)) l
    rw [hb] at stop
    rw [own (List.mem_of_mem_getLast? ha)]
    exact decide_eq_false fun same => of_decide_eq_false stop same.symm
  have cut := List.splitBy_append apart
  rw [List.cons_append,List.takeWhile_append_dropWhile] at cut
  rw [runs,cut]
  exact congrArg (· ++ _) one

/-- Behind the run of `y` its key does not come back. -/
theorem runOver {le : κ → κ → Prop} (antisymm : ∀ a b, le a b → le b a → a = b) {y : α} {ys : List α}
    (sorted : (y :: ys).Pairwise fun a b => le (key a) (key b)) {z : α} (mem : z ∈ ys.dropWhile fun z => key z = key y) :
    key z ≠ key y := by
  intro same
  have whole := List.takeWhile_append_dropWhile (p := fun z => decide (key z = key y)) (l := ys)
  have stop := List.head?_dropWhile_not (fun z => decide (key z = key y)) ys
  cases rest_ : ys.dropWhile (fun z => key z = key y) with
  | nil =>
    rw [rest_] at mem
    cases mem
  | cons w ws =>
    rw [rest_] at mem stop whole
    have differ : key w ≠ key y := of_decide_eq_false stop
    rw [← whole] at sorted
    obtain ⟨first,others⟩ := List.pairwise_cons.1 sorted
    rcases List.mem_cons.1 mem with rfl | later
    · exact differ same
    · have yw := first w (List.mem_append_right _ List.mem_cons_self)
      have wz := (List.pairwise_cons.1 (List.pairwise_append.1 others).2.1).1 z later
      exact differ (antisymm _ _ (same ▸ wz) yw)

/-- Where the list is sorted by the key, a run has all the elements of its key. -/
theorem runFilter {le : κ → κ → Prop} (antisymm : ∀ a b, le a b → le b a → a = b) {l : List α}
    (sorted : l.Pairwise fun a b => le (key a) (key b)) {run : List α} (mem : run ∈ runs key l) {x : α} (xIn : x ∈ run) :
    run = l.filter fun y => key y = key x := by
  obtain ⟨n,size⟩ : ∃ n, l.length ≤ n := ⟨_,le_refl _⟩
  induction n generalizing l with
  | zero =>
    rw [List.length_eq_zero_iff.1 (Nat.le_zero.1 size),runs,List.splitBy_nil] at mem
    cases mem
  | succ n ih =>
    cases l with
    | nil => cases mem
    | cons y ys =>
      have own : ∀ z ∈ ys.takeWhile (fun z => key z = key y), key z = key y := fun z mem =>
        of_decide_eq_true (List.mem_takeWhile_imp (p := fun z => decide (key z = key y)) mem)
      have gone : ∀ z ∈ ys.dropWhile (fun z => key z = key y), key z ≠ key y := fun z mem => runOver key antisymm sorted mem
      have short : (ys.dropWhile (fun z => key z = key y)).length ≤ n :=
        ((List.dropWhile_sublist _).length_le).trans (Nat.le_of_succ_le_succ size)
      have sub : (ys.dropWhile (fun z => key z = key y)).Sublist (y :: ys) :=
        (List.dropWhile_sublist _).trans (List.sublist_cons_self y ys)
      have cut : (y :: ys).filter (fun z => key z = key x) =
          (y :: ys.takeWhile fun z => key z = key y).filter (fun z => key z = key x) ++
            (ys.dropWhile fun z => key z = key y).filter fun z => key z = key x := by
        rw [← List.filter_append,List.cons_append,List.takeWhile_append_dropWhile]
      rw [cut]
      rw [runsCons] at mem
      rcases List.mem_cons.1 mem with rfl | mem
      · have all : ∀ z ∈ y :: ys.takeWhile (fun z => key z = key y), key z = key y := List.forall_mem_cons.2 ⟨rfl,own⟩
        rw [all x xIn,List.filter_eq_self.2 fun z mem => decide_eq_true (all z mem),
          List.filter_eq_nil_iff.2 fun z mem => by simpa using gone z mem,List.append_nil]
      · have late : x ∈ ys.dropWhile (fun z => key z = key y) := by
          rw [← List.flatten_splitBy (fun a b => decide (key a = key b)) (ys.dropWhile _)]
          exact List.mem_flatten.2 ⟨run,mem,xIn⟩
        have none_ : (y :: ys.takeWhile fun z => key z = key y).filter (fun z => key z = key x) = [] := by
          refine List.filter_eq_nil_iff.2 fun z mem same => gone x late ((of_decide_eq_true same).symm.trans ?_)
          rcases List.mem_cons.1 mem with rfl | mem
          · rfl
          · exact own z mem
        rw [none_,List.nil_append]
        exact ih (sorted.sublist sub) mem short

theorem runOf {le : κ → κ → Prop} (antisymm : ∀ a b, le a b → le b a → a = b) {l : List α}
    (sorted : l.Pairwise fun a b => le (key a) (key b)) {x : α} (mem : x ∈ l) : (l.filter fun y => key y = key x) ∈ runs key l := by
  rw [← List.flatten_splitBy (fun a b => decide (key a = key b)) l] at mem
  obtain ⟨run,runIn,xIn⟩ := List.mem_flatten.1 mem
  exact runFilter key antisymm sorted runIn xIn ▸ runIn

end

/-! ### Ranks -/

/-- The element at place `pi` has the rank of the one in front of it where the key is the same, else the next one. -/
def ranksFrom (next : Nat → Nat → Nat) (key : α → κ) (prev : κ) (rank pi : Nat) : List α → List (α × Nat)
  | [] => []
  | x :: xs =>
    if prev = key x then (x,rank) :: ranksFrom next key prev rank (pi + 1) xs
    else (x,next rank pi) :: ranksFrom next key (key x) (next rank pi) (pi + 1) xs

def ranks (next : Nat → Nat → Nat) (key : α → κ) : List α → List (α × Nat)
  | [] => []
  | x :: xs => (x,1) :: ranksFrom next key (key x) 1 1 xs

def numbers (l : List α) : List (α × Nat) := l.zipIdx.map fun (x,pi) => (x,pi + 1)

theorem ranksFromFst (next : Nat → Nat → Nat) (key : α → κ) (prev : κ) (rank pi : Nat) (l : List α) :
    (ranksFrom next key prev rank pi l).map Prod.fst = l := by
  induction l generalizing prev rank pi with
  | nil => rfl
  | cons x xs ih =>
    rw [ranksFrom]
    split <;> rw [List.map_cons,ih]

theorem ranksFst (next : Nat → Nat → Nat) (key : α → κ) (l : List α) : (ranks next key l).map Prod.fst = l := by
  cases l with
  | nil => rfl
  | cons x xs => rw [ranks,List.map_cons,ranksFromFst]

omit [DecidableEq κ] in
theorem numbersFst (l : List α) : (numbers l).map Prod.fst = l := by
  rw [numbers,List.map_map]
  exact List.zipIdx_map_fst 0 l

theorem memNumbers {l : List α} {p : α × Nat} : p ∈ numbers l ↔ ∃ i, l[i]? = some p.1 ∧ p.2 = i + 1 := by
  rw [numbers,List.mem_map]
  constructor
  · rintro ⟨⟨x,i⟩,mem,rfl⟩
    exact ⟨i,List.mem_zipIdx_iff_getElem?.1 mem,rfl⟩
  · rintro ⟨i,at_,is⟩
    exact ⟨(p.1,i),List.mem_zipIdx_iff_getElem?.2 at_,Prod.ext rfl is.symm⟩

theorem numbersBij (l : List α) : Set.BijOn Prod.snd {p | p ∈ numbers l} (Set.Icc 1 l.length) := by
  refine ⟨fun p mem => ?_,fun p mem q mem' same => ?_,fun v inside => ?_⟩
  · obtain ⟨i,at_,is⟩ := memNumbers.1 mem
    have lt := (List.getElem?_eq_some_iff.1 at_).1
    exact ⟨by omega,by omega⟩
  · obtain ⟨i,at_,is⟩ := memNumbers.1 mem
    obtain ⟨j,at',js⟩ := memNumbers.1 mem'
    obtain rfl : i = j := by omega
    exact Prod.ext (Option.some.inj (at_.symm.trans at')) same
  · obtain ⟨low,high⟩ := inside
    have lt : v - 1 < l.length := by omega
    exact ⟨(l[v - 1],v),memNumbers.2 ⟨v - 1,List.getElem?_eq_getElem lt,by omega⟩,rfl⟩

/-- Ranks that skip as many places as they share grow with the key. -/
theorem ranksFromGrow (key : α → κ) (prev : κ) (rank pi : Nat) (le : rank ≤ pi) (l : List α) :
    (∀ p ∈ ranksFrom (fun _ pi => pi + 1) key prev rank pi l, rank ≤ p.2 ∧ (rank = p.2 → prev = key p.1)) ∧
      (ranksFrom (fun _ pi => pi + 1) key prev rank pi l).Pairwise fun p q => p.2 ≤ q.2 ∧ (p.2 = q.2 → key p.1 = key q.1) := by
  induction l generalizing prev rank pi with
  | nil => exact ⟨fun _ mem => (List.not_mem_nil mem).elim,.nil⟩
  | cons x xs ih =>
    rw [ranksFrom]
    split
    · rename_i same
      obtain ⟨low,grow⟩ := ih prev rank (pi + 1) (by omega)
      refine ⟨List.forall_mem_cons.2 ⟨⟨le_refl _,fun _ => same⟩,low⟩,List.pairwise_cons.2 ⟨fun q mem => ?_,grow⟩⟩
      exact ⟨(low q mem).1,fun h => same ▸ (low q mem).2 h⟩
    · obtain ⟨low,grow⟩ := ih (key x) (pi + 1) (pi + 1) (le_refl _)
      refine ⟨List.forall_mem_cons.2 ⟨⟨by dsimp only; omega,fun h => by dsimp only at h; omega⟩,fun q mem => ?_⟩,
        List.pairwise_cons.2 ⟨low,grow⟩⟩
      have := (low q mem).1
      exact ⟨by omega,fun h => by omega⟩

theorem ranksGrow (key : α → κ) (l : List α) :
    (ranks (fun _ pi => pi + 1) key l).Pairwise fun p q => p.2 ≤ q.2 ∧ (p.2 = q.2 → key p.1 = key q.1) := by
  cases l with
  | nil => exact .nil
  | cons x xs =>
    obtain ⟨low,grow⟩ := ranksFromGrow key (key x) 1 1 (le_refl 1) xs
    exact List.pairwise_cons.2 ⟨low,grow⟩

/-! ### What the ranks count -/

/-- `l` is in the order of `lt`, and only elements of one key stand side by side in it. -/
structure Ordered (lt : α → α → Prop) (key : α → κ) (l : List α) : Prop where
  irrefl : ∀ a ∈ l, ¬lt a a
  trans : ∀ a ∈ l, ∀ b ∈ l, ∀ c ∈ l, lt a b → ¬lt c b → lt a c
  apart : l.Pairwise fun a b => ¬lt b a ∧ (lt a b ↔ key a ≠ key b)

section
variable {lt : α → α → Prop} [DecidableRel lt] {key : α → κ} {l : List α}

/-- The elements in front of those that are like `x`. -/
def ahead (lt : α → α → Prop) [DecidableRel lt] (l : List α) (x : α) : List α := l.filter fun e => lt e x

omit [DecidableEq κ] in
theorem aheadSame (ordered : Ordered lt key l) {pre xs : List α} {a b : α} (is : l = pre ++ a :: b :: xs) (same : key a = key b) :
    ahead lt l a = ahead lt l b := by
  have aIn : a ∈ l := by simp [is]
  have bIn : b ∈ l := by simp [is]
  have apart := ordered.apart
  rw [is] at apart
  obtain ⟨notBelow,differ⟩ := (List.pairwise_cons.1 (List.pairwise_append.1 apart).2.1).1 b List.mem_cons_self
  refine List.filter_congr fun e mem => decide_eq_decide.2 ⟨fun less => ?_,fun less => ?_⟩
  · exact ordered.trans e mem a aIn b bIn less notBelow
  · exact ordered.trans e mem b bIn a aIn less fun below => differ.1 below same

omit [DecidableEq κ] in
theorem aheadNew (ordered : Ordered lt key l) {pre xs : List α} {a b : α} (is : l = pre ++ a :: b :: xs) (differ : key a ≠ key b) :
    ahead lt l b = pre ++ [a] := by
  have aIn : a ∈ l := by simp [is]
  have bIn : b ∈ l := by simp [is]
  have apart := ordered.apart
  rw [is] at apart
  obtain ⟨-,tail,early⟩ := List.pairwise_append.1 apart
  obtain ⟨fromA,tail⟩ := List.pairwise_cons.1 tail
  have less : lt a b := (fromA b List.mem_cons_self).2.2 differ
  have front : ∀ e ∈ pre, lt e b := by
    intro e mem
    by_cases same : key e = key a
    · exact (early e mem b (by simp)).2.2 (same ▸ differ)
    · exact ordered.trans e (by simp [is,mem]) a aIn b bIn ((early e mem a List.mem_cons_self).2.2 same)
        (fromA b List.mem_cons_self).1
  have back : ∀ e ∈ b :: xs, ¬lt e b := by
    intro e mem
    rcases List.mem_cons.1 mem with rfl | mem
    · exact ordered.irrefl e bIn
    · exact ((List.pairwise_cons.1 tail).1 e mem).1
  have frontAll : pre.filter (fun e => lt e b) = pre := List.filter_eq_self.2 fun e mem => decide_eq_true (front e mem)
  have backNone : (b :: xs).filter (fun e => lt e b) = [] := List.filter_eq_nil_iff.2 fun e mem => by simpa using back e mem
  rw [ahead,is,List.filter_append,frontAll,List.filter_cons,if_pos (decide_eq_true less),backNone]

omit [DecidableEq κ] in
theorem aheadFirst (ordered : Ordered lt key l) {xs : List α} {a : α} (is : l = a :: xs) : ahead lt l a = [] := by
  refine List.filter_eq_nil_iff.2 fun e mem less => ?_
  have less := of_decide_eq_true less
  have apart := ordered.apart
  rw [is] at apart mem
  rcases List.mem_cons.1 mem with rfl | mem
  · exact ordered.irrefl e (by simp [is]) less
  · exact ((List.pairwise_cons.1 apart).1 e mem).1 less

/-- The step that `next` takes to a new key, for what `measure` counts. -/
def Steps (lt : α → α → Prop) [DecidableRel lt] (key : α → κ) (next : Nat → Nat → Nat) (measure_ : List α → Nat) (l : List α) : Prop :=
  ∀ pre a b xs, l = pre ++ a :: b :: xs → key a ≠ key b →
    next (1 + measure_ (ahead lt l a)) (pre.length + 1) = 1 + measure_ (pre ++ [a])

theorem ranksFromCount (ordered : Ordered lt key l) {next : Nat → Nat → Nat} {measure_ : List α → Nat}
    (steps : Steps lt key next measure_ l) {pre xs : List α} {a : α} (is : l = pre ++ a :: xs) :
    ∀ p ∈ ranksFrom next key (key a) (1 + measure_ (ahead lt l a)) (pre.length + 1) xs, p.2 = 1 + measure_ (ahead lt l p.1) := by
  induction xs generalizing pre a with
  | nil => exact fun _ mem => (List.not_mem_nil mem).elim
  | cons x xs ih =>
    have later : l = (pre ++ [a]) ++ x :: xs := by rw [is,List.append_assoc]; rfl
    have length : (pre ++ [a]).length = pre.length + 1 := by simp
    have ih := ih later
    rw [ranksFrom]
    rw [length] at ih
    split
    · rename_i same
      rw [aheadSame ordered is same]
      rw [← same] at ih
      exact List.forall_mem_cons.2 ⟨rfl,ih⟩
    · rename_i differ
      have value := steps pre a x xs is differ
      rw [← aheadNew ordered is differ] at value
      rw [value]
      exact List.forall_mem_cons.2 ⟨rfl,ih⟩

theorem ranksCount (measure_ : List α → Nat) (ordered : Ordered lt key l) {next : Nat → Nat → Nat} (none_ : measure_ [] = 0)
    (steps : Steps lt key next measure_ l) : ∀ p ∈ ranks next key l, p.2 = 1 + measure_ (ahead lt l p.1) := by
  cases is : l with
  | nil => exact fun _ mem => (List.not_mem_nil mem).elim
  | cons x xs =>
    have first : measure_ (ahead lt l x) = 0 := by rw [aheadFirst ordered is,none_]
    have others := ranksFromCount ordered steps (show l = [] ++ x :: xs from is)
    rw [first] at others
    rw [ranks,← is]
    exact List.forall_mem_cons.2 ⟨by rw [first],others⟩

/-- A rank that skips places counts the elements in front. -/
theorem ranksLength (ordered : Ordered lt key l) : ∀ p ∈ ranks (fun _ pi => pi + 1) key l, p.2 = 1 + (ahead lt l p.1).length :=
  ranksCount List.length ordered rfl fun pre a b xs _ _ => by simp [Nat.add_comm]

/-- A rank that skips none counts their keys. -/
theorem ranksKeys (ordered : Ordered lt key l) :
    ∀ p ∈ ranks (fun dr _ => dr + 1) key l, p.2 = 1 + ((ahead lt l p.1).map key).toFinset.card := by
  refine ranksCount (fun s => (s.map key).toFinset.card) ordered rfl fun pre a b xs is differ => ?_
  have apart := ordered.apart
  rw [is] at apart
  obtain ⟨-,tail,early⟩ := List.pairwise_append.1 apart
  have fromA := (List.pairwise_cons.1 tail).1
  have inside (e : α) : e ∈ ahead lt l a ↔ e ∈ pre ∧ key e ≠ key a := by
    rw [ahead,List.mem_filter,decide_eq_true_iff,is,List.mem_append]
    constructor
    · rintro ⟨mem | mem,less⟩
      · exact ⟨mem,(early e mem a List.mem_cons_self).2.1 less⟩
      · rcases List.mem_cons.1 mem with rfl | mem
        · exact absurd less (ordered.irrefl e (by simp [is]))
        · exact absurd less (fromA e mem).1
    · rintro ⟨mem,other⟩
      exact ⟨.inl mem,(early e mem a List.mem_cons_self).2.2 other⟩
  have keys : ((pre ++ [a]).map key).toFinset = insert (key a) ((ahead lt l a).map key).toFinset := by
    ext k
    simp only [List.mem_toFinset,List.mem_map,Finset.mem_insert,List.mem_append,List.mem_singleton,inside]
    constructor
    · rintro ⟨e,mem | rfl,rfl⟩
      · by_cases same : key e = key a
        · exact .inl same
        · exact .inr ⟨e,⟨mem,same⟩,rfl⟩
      · exact .inl rfl
    · rintro (rfl | ⟨e,⟨mem,-⟩,rfl⟩)
      · exact ⟨a,.inr rfl,rfl⟩
      · exact ⟨e,.inl mem,rfl⟩
  have fresh : key a ∉ ((ahead lt l a).map key).toFinset := by
    simp only [List.mem_toFinset,List.mem_map,inside]
    rintro ⟨e,⟨-,other⟩,same⟩
    exact other same
  dsimp only
  rw [keys,Finset.card_insert_of_notMem fresh]
  omega

end
end Napastak.Ranks
