import Mathlib.Data.List.Sort

/-! Reading a table page by page behind a bookmark: each page holds the first rows, in the order of their keys, whose
keys are greater than the bookmark, and the bookmark is the key of the last row read. Rows without a key come last. -/
namespace Napastak.Keyset

variable {α V : Type} [LinearOrder V]

/-- The order of the keys, absent ones last. -/
def KeyLe : Option V → Option V → Prop
  | _, none => True
  | none, some _ => False
  | some a, some b => a ≤ b

instance : ∀ a b : Option V, Decidable (KeyLe a b)
  | none, none | some _, none => isTrue trivial
  | none, some _ => isFalse id
  | some a, some b => inferInstanceAs (Decidable (a ≤ b))

/-- A table to read: the key of a row, the bookmark a row leaves, the rows and the size of a page. -/
structure Table (α V : Type) where
  key : α → Option V
  mark : α → Option V
  rows : List α
  size : Nat

variable (t : Table α V)

namespace Table

def Sorted (l : List α) : Prop := l.Pairwise fun a b => KeyLe (t.key a) (t.key b)

instance (l : List α) : Decidable (t.Sorted l) := inferInstanceAs (Decidable (List.Pairwise _ _))

def beyond (v : V) (r : α) : Bool := (t.key r).any fun x => decide (v < x)

/-- The rows a page is taken from; without a bookmark, all of them. -/
def selected (l : List α) : Option V → List α
  | none => l
  | some v => l.filter (t.beyond v)

/-- The bookmark behind a page; an empty page leaves it. -/
def advance (c : Option V) (page : List α) : Option V :=
  match page.getLast? with
  | none => c
  | some r => t.mark r

/-- Successive reads of the table. Rows with the same key come in any order, at each read in another. -/
structure Run where
  page : Nat → List α
  cursor : Nat → Option V
  start : cursor 0 = none
  next : ∀ i, cursor (i + 1) = t.advance (cursor i) (page i)
  answers : ∀ i, ∃ l, l.Perm (t.selected t.rows (cursor i)) ∧ t.Sorted l ∧ page i = l.take t.size

/-- Reading until a page is empty gives every row once. -/
def Delivered (page : Nat → List α) : Prop :=
  ∃ n, page n = [] ∧ (∀ i < n, page i ≠ []) ∧ ((List.range n).flatMap page).Perm t.rows

/-- No page ends between two rows of one key, and the last row of each leaves a bookmark. -/
inductive Splits : List α → Prop
  | nil : Splits []
  | page {l : List α} {v : V} : l ≠ [] → (l.take t.size).getLast?.bind t.mark = some v → (∀ r ∈ l.drop t.size, t.beyond v r = true) →
      Splits (l.drop t.size) → Splits l

variable {t}

theorem Splits.later {l : List α} (splits : t.Splits l) : t.Splits (l.drop t.size) := by
  cases splits with
  | nil =>
    rw [List.drop_nil]
    exact .nil
  | page _ _ _ later => exact later

theorem beyondIff {v : V} {r : α} : t.beyond v r = true ↔ ∃ x, t.key r = some x ∧ v < x := by
  rw [beyond,Option.any_eq_true]
  simp

/-- What stands before a row in the order is not beyond its key. -/
theorem notBeyond {l : List α} {r s : α} {v : V} (sorted : t.Sorted l) (last : l.getLast? = some r) (key : t.key r = some v)
    (mem : s ∈ l) : t.beyond v s = false := by
  obtain ⟨front,rfl⟩ := List.getLast?_eq_some_iff.mp last
  refine Bool.eq_false_iff.mpr fun is => ?_
  obtain ⟨x,keyIs,less⟩ := beyondIff.mp is
  rcases List.mem_append.mp mem with before | same
  · have le := (List.pairwise_append.mp sorted).2.2 s before r List.mem_cons_self
    rw [keyIs,key] at le
    exact absurd less (not_lt.mpr le)
  · rw [List.mem_singleton.mp same,key] at keyIs
    cases keyIs
    exact absurd less (lt_irrefl v)

theorem selectedNarrow {l : List α} {r : α} {v : V} {c : Option V} (mem : r ∈ t.selected l c) (key : t.key r = some v) :
    t.selected l (some v) = (t.selected l c).filter (t.beyond v) := by
  cases c with
  | none => rfl
  | some u =>
    rw [selected,selected,List.filter_filter]
    refine List.filter_congr fun s _ => ?_
    obtain ⟨x,keyIs,less⟩ := beyondIff.mp (List.mem_filter.mp mem).2
    rw [key] at keyIs
    cases keyIs
    cases is : t.beyond v s with
    | false => rfl
    | true =>
      obtain ⟨y,keyS,less'⟩ := beyondIff.mp is
      rw [beyondIff.mpr ⟨y,keyS,less.trans less'⟩,Bool.and_true]

theorem filterRest {b rest : List α} {r : α} {v : V} (sorted : t.Sorted b) (last : b.getLast? = some r) (key : t.key r = some v)
    (far : ∀ s ∈ rest, t.beyond v s = true) : (b ++ rest).filter (t.beyond v) = rest := by
  rw [List.filter_append,List.filter_eq_nil_iff.mpr fun s mem => by rw [notBeyond sorted last key mem]; exact Bool.false_ne_true,
    List.filter_eq_self.mpr far,List.nil_append]

/-- Behind a row that leaves its key as the bookmark, the selection is what comes after it. -/
theorem selectedRest {l b rest : List α} {r : α} {v : V} {c : Option V} (perm : (b ++ rest).Perm (t.selected l c)) (sorted : t.Sorted b)
    (last : b.getLast? = some r) (key : t.key r = some v) (far : ∀ s ∈ rest, t.beyond v s = true) :
    rest.Perm (t.selected l (some v)) := by
  have mem : r ∈ t.selected l c := perm.mem_iff.mp (List.mem_append_left _ (List.mem_of_getLast? last))
  have kept := perm.filter (t.beyond v)
  rwa [filterRest sorted last key far,← selectedNarrow mem key] at kept

theorem takeNonempty {l : List α} {n : Nat} (positive : 0 < n) (some_ : l ≠ []) : ∃ r, (l.take n).getLast? = some r := by
  cases is : (l.take n).getLast? with
  | some r => exact ⟨r,rfl⟩
  | none =>
    rcases List.take_eq_nil_iff.mp (List.getLast?_eq_none_iff.mp is) with zero | none_
    · omega
    · exact absurd none_ some_

/-- Rows in order behind a page of the same table give the page again. -/
theorem pageAgain {l l' : List α} (n : Nat) (perm : l'.Perm (l.drop n)) :
    (l.take n ++ l').take n = l.take n ∧ (l.take n ++ l').drop n = l' := by
  by_cases short : l.length ≤ n
  · rw [List.drop_eq_nil_of_le short] at perm
    rw [perm.eq_nil,List.append_nil,List.take_of_length_le short,List.take_of_length_le short,List.drop_eq_nil_of_le short]
    exact ⟨rfl,rfl⟩
  · have long : (l.take n).length = n := List.length_take_of_le (Nat.le_of_not_le short)
    exact ⟨List.take_left' long,List.drop_left' long⟩

/-- Pages that split the table give every row once, from any point of a run on. -/
theorem Run.rest (positive : 0 < t.size) (marks : ∀ r v, t.mark r = some v → t.key r = some v) (run : t.Run) (k : Nat) :
    ∀ i, (t.selected t.rows (run.cursor i)).length ≤ k →
      (∀ l, l.Perm (t.selected t.rows (run.cursor i)) → t.Sorted l → t.Splits l) →
      ∃ n, run.page (i + n) = [] ∧ (∀ j < n, run.page (i + j) ≠ []) ∧
        ((List.range n).flatMap fun j => run.page (i + j)).Perm (t.selected t.rows (run.cursor i)) := by
  induction k with
  | zero =>
    intro i short _
    obtain ⟨l,perm,_,page⟩ := run.answers i
    have none_ := List.eq_nil_of_length_eq_zero (Nat.le_zero.mp short)
    rw [none_] at perm ⊢
    exact ⟨0,by rw [Nat.add_zero,page,perm.eq_nil,List.take_nil],fun _ less => absurd less (Nat.not_lt_zero _),List.Perm.refl _⟩
  | succ k ih =>
    intro i short splits
    obtain ⟨l,perm,sorted,page⟩ := run.answers i
    cases splits l perm sorted with
    | nil =>
      exact ⟨0,by rw [Nat.add_zero,page,List.take_nil],fun _ less => absurd less (Nat.not_lt_zero _),perm⟩
    | @page _ v some_ mark far _ =>
      obtain ⟨r,last⟩ := takeNonempty positive some_
      rw [last,Option.bind_some] at mark
      have key := marks r v mark
      have cursor : run.cursor (i + 1) = some v := by
        rw [run.next,advance,page,last]
        exact mark
      have parts : (l.take t.size ++ l.drop t.size).Perm (t.selected t.rows (run.cursor i)) := by rwa [List.take_append_drop]
      have sortedTake : t.Sorted (l.take t.size) := sorted.sublist (List.take_sublist _ _)
      have rest := selectedRest parts sortedTake last key far
      have shorter : (t.selected t.rows (run.cursor (i + 1))).length ≤ k := by
        have total := perm.length_eq
        have positiveLength := List.length_pos_of_ne_nil some_
        rw [cursor,← rest.length_eq,List.length_drop]
        omega
      obtain ⟨n,end_,before,all⟩ := ih (i + 1) shorter fun l' perm' sorted' => by
        rw [cursor] at perm'
        have again := perm'.trans rest.symm
        have whole := splits (l.take t.size ++ l') ((again.append_left _).trans parts) <| by
          refine List.pairwise_append.mpr ⟨sortedTake,sorted',fun a ha b hb => ?_⟩
          have order := List.pairwise_append.mp (List.take_append_drop t.size l ▸ sorted)
          exact order.2.2 a ha b (again.mem_iff.mp hb)
        have later := whole.later
        rwa [(pageAgain t.size again).2] at later
      refine ⟨n + 1,?_,fun j less => ?_,?_⟩
      · rw [Nat.add_comm n 1,← Nat.add_assoc]
        exact end_
      · cases j with
        | zero =>
          rw [Nat.add_zero,page]
          exact fun none_ => by rw [none_] at last; cases last
        | succ j =>
          rw [Nat.add_comm j 1,← Nat.add_assoc]
          exact before j (Nat.lt_of_succ_lt_succ less)
      · rw [List.range_succ_eq_map,List.flatMap_cons,List.flatMap_map,Nat.add_zero,page]
        have shift : (fun j => run.page (i + Nat.succ j)) = fun j => run.page (i + 1 + j) := funext fun j => by
          rw [Nat.succ_eq_add_one,Nat.add_comm j 1,← Nat.add_assoc]
        rw [shift]
        rw [cursor] at all
        exact ((all.trans rest.symm).append_left _).trans parts

/-- Pages that split the table give every row once, whatever order rows with one key come in. -/
theorem Run.delivers (positive : 0 < t.size) (marks : ∀ r v, t.mark r = some v → t.key r = some v)
    (splits : ∀ l, l.Perm t.rows → t.Sorted l → t.Splits l) (run : t.Run) : t.Delivered run.page := by
  have all := run.rest positive marks t.rows.length 0
  rw [run.start] at all
  obtain ⟨n,end_,before,perm⟩ := all (Nat.le_refl _) splits
  simp only [Nat.zero_add] at end_ before perm
  exact ⟨n,end_,before,perm⟩

theorem sortedExists (t : Table α V) (rows : List α) : ∃ l, l.Perm rows ∧ t.Sorted l := by
  classical
  let r : α → α → Prop := fun a b => KeyLe (t.key a) (t.key b)
  have total : Std.Total r := ⟨fun a b => by
    show KeyLe _ _ ∨ KeyLe _ _
    cases t.key a <;> cases t.key b <;> simp [KeyLe,le_total]⟩
  have trans : IsTrans α r := ⟨fun a b c => by
    show KeyLe _ _ → KeyLe _ _ → KeyLe _ _
    cases t.key a <;> cases t.key b <;> cases t.key c <;> simp [KeyLe]
    exact le_trans⟩
  exact ⟨rows.insertionSort r,List.perm_insertionSort r rows,List.pairwise_insertionSort r rows⟩

/-! A run whose reads find rows of one key in the same order. -/

/-- The run that reads a fixed order of the rows. -/
structure Steady (l : List α) (page : Nat → List α) (cursor : Nat → Option V) : Prop where
  start : cursor 0 = none
  next : ∀ i, cursor (i + 1) = t.advance (cursor i) (page i)
  page : ∀ i, page i = (t.selected l (cursor i)).take t.size

variable {l : List α} {page : Nat → List α} {cursor : Nat → Option V}

theorem Steady.again (steady : Steady (t := t) l page cursor) {i : Nat} (back : cursor i = none) (j : Nat) :
    cursor (i + j) = cursor j ∧ page (i + j) = page j := by
  induction j with
  | zero => exact ⟨back.trans steady.start.symm,by rw [steady.page,steady.page 0,Nat.add_zero,back,steady.start]⟩
  | succ j ih =>
    have same : cursor (i + (j + 1)) = cursor (j + 1) := by rw [← Nat.add_assoc,steady.next,steady.next,ih.1,ih.2]
    exact ⟨same,by rw [steady.page,steady.page (j + 1),same]⟩

/-- A run that ends does not come back to its start. -/
theorem Steady.onward (steady : Steady (t := t) l page cursor) {n : Nat} (end_ : page n = []) (before : ∀ i < n, page i ≠ []) {i : Nat}
    (positive : 0 < i) (within : i ≤ n) : cursor i ≠ none := fun back => by
  have again := (steady.again back (n - i)).2
  rw [Nat.add_sub_cancel' within,end_] at again
  exact before (n - i) (by omega) again.symm

/-- From a bookmark on, the bookmarks do not go back. -/
theorem Steady.grows (marks : ∀ r v, t.mark r = some v → t.key r = some v) (steady : Steady (t := t) l page cursor) {n i : Nat} {v : V}
    (end_ : page n = []) (before : ∀ i < n, page i ≠ []) (at_ : cursor i = some v) (j : Nat) (within : i + j ≤ n) :
    ∃ u, cursor (i + j) = some u ∧ v ≤ u := by
  induction j with
  | zero => exact ⟨v,at_,le_refl v⟩
  | succ j ih =>
    obtain ⟨u,here,le⟩ := ih (by omega)
    obtain ⟨u',there⟩ := Option.ne_none_iff_exists'.mp (steady.onward end_ before (Nat.succ_pos (i + j)) within)
    have next := steady.next (i + j)
    rw [advance] at next
    cases last : (page (i + j)).getLast? with
    | none => exact absurd (List.getLast?_eq_none_iff.mp last) (before (i + j) (by omega))
    | some r =>
      rw [last] at next
      have mem := List.mem_of_getLast? last
      rw [steady.page,here] at mem
      obtain ⟨x,key,less⟩ := beyondIff.mp (List.mem_filter.mp (List.mem_of_mem_take mem)).2
      have marked : t.mark r = some u' := next.symm.trans there
      rw [marks r u' marked] at key
      cases key
      exact ⟨u',there,le.trans less.le⟩

theorem Steady.splits (positive : 0 < t.size) (marks : ∀ r v, t.mark r = some v → t.key r = some v) (sorted : t.Sorted l)
    (steady : Steady (t := t) l page cursor) {n : Nat} (end_ : page n = []) (before : ∀ i < n, page i ≠ []) (k : Nat) :
    ∀ i, i + k = n → ((List.range k).flatMap fun j => page (i + j)).Perm (t.selected l (cursor i)) →
      t.Splits (t.selected l (cursor i)) := by
  induction k with
  | zero =>
    intro i _ all
    rw [show t.selected l (cursor i) = [] from all.symm.eq_nil]
    exact .nil
  | succ k ih =>
    intro i here all
    have some_ : t.selected l (cursor i) ≠ [] := fun none_ => before i (by omega) (by rw [steady.page,none_,List.take_nil])
    obtain ⟨r,last⟩ := takeNonempty positive some_
    have next : cursor (i + 1) = t.mark r := by
      rw [steady.next,advance,steady.page,last]
    obtain ⟨v,cursorIs⟩ := Option.ne_none_iff_exists'.mp (steady.onward end_ before (Nat.succ_pos i) (by omega))
    have mark := next.symm.trans cursorIs
    have key := marks r v mark
    have sortedHere : t.Sorted (t.selected l (cursor i)) := by
      cases cursor i with
      | none => exact sorted
      | some u => exact sorted.sublist List.filter_sublist
    have later : ((List.range k).flatMap fun j => page (i + 1 + j)).Perm ((t.selected l (cursor i)).drop t.size) := by
      rw [List.range_succ_eq_map,List.flatMap_cons,List.flatMap_map,Nat.add_zero,steady.page i] at all
      have parts := all.trans (List.Perm.of_eq (List.take_append_drop t.size (t.selected l (cursor i))).symm)
      have shift : (fun j => page (i + Nat.succ j)) = fun j => page (i + 1 + j) := funext fun j => by
        rw [Nat.succ_eq_add_one,Nat.add_comm j 1,← Nat.add_assoc]
      rw [shift] at parts
      exact (List.perm_append_left_iff _).mp parts
    have far : ∀ s ∈ (t.selected l (cursor i)).drop t.size, t.beyond v s = true := fun s mem => by
      obtain ⟨j,less,within⟩ := List.mem_flatMap.mp (later.mem_iff.mpr mem)
      obtain ⟨u,bookmark,le⟩ := steady.grows marks end_ before cursorIs j (by have := List.mem_range.mp less; omega)
      rw [steady.page,bookmark] at within
      obtain ⟨x,keyS,less⟩ := beyondIff.mp (List.mem_filter.mp (List.mem_of_mem_take within)).2
      exact beyondIff.mpr ⟨x,keyS,le.trans_lt less⟩
    have rest : t.selected l (cursor (i + 1)) = (t.selected l (cursor i)).drop t.size := by
      rw [cursorIs,selectedNarrow (List.mem_of_mem_take (List.mem_of_getLast? last)) key]
      conv_lhs => rw [← List.take_append_drop t.size (t.selected l (cursor i))]
      exact filterRest (sortedHere.sublist (List.take_sublist _ _)) last key far
    have splits := ih (i + 1) (by omega) (rest ▸ later)
    rw [rest] at splits
    exact .page some_ (by rw [last,Option.bind_some,mark]) far splits

/-- A steady run that gives every row once has pages that split the table. -/
theorem Steady.mustSplit (positive : 0 < t.size) (marks : ∀ r v, t.mark r = some v → t.key r = some v) (sorted : t.Sorted l)
    (perm : l.Perm t.rows) (steady : Steady (t := t) l page cursor) (delivered : t.Delivered page) : t.Splits l := by
  obtain ⟨n,end_,before,all⟩ := delivered
  have splits := steady.splits positive marks sorted end_ before n 0 (Nat.zero_add n)
  rw [steady.start] at splits
  refine splits ?_
  simp only [Nat.zero_add]
  exact all.trans perm.symm

end Table
end Napastak.Keyset
