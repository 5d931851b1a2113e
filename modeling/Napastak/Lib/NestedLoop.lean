import Mathlib.Data.List.Basic

/-! A nested loop that stops at each hit and goes on behind it: the rows of `xs`, item by item, against `cols` columns. -/
namespace Napastak.NestedLoop

variable {α : Type} (size : α → Nat) (cols : Nat) (test : α → Nat → Nat → Option Bool)

/-- The first hit of a row from column `c` on, of `k` columns; `none` where a test goes wrong. -/
def firstCol (x : α) (r : Nat) : Nat → Nat → Option (Option Nat)
  | 0, _ => some none
  | k + 1, c => (test x r c).bind fun hit => if hit then some (some c) else firstCol x r k (c + 1)

/-- The first hit of the `k` rows from `r` on. -/
def firstRow (x : α) : Nat → Nat → Nat → Option (Option (Nat × Nat))
  | 0, _, _ => some none
  | k + 1, r, c => (firstCol test x r (cols - c) c).bind fun found =>
    match found with
    | some c => some (some (r,c))
    | none => firstRow x k (r + 1) 0

/-- The first hit of the items to come; an item without rows is the end. -/
def firstItem : List α → Option (Option (α × Nat × Nat) × List α)
  | [] => some (none,[])
  | x :: xs =>
    if size x = 0 then some (none,xs)
    else (firstRow cols test x (size x) 0 0).bind fun found =>
      match found with
      | some at_ => some (some (x,at_),xs)
      | none => firstItem xs

structure Pos (α : Type) where
  item : Option α
  row : Nat
  col : Nat
  rest : List α

/-- The next hit, and the place behind it. -/
def next (p : Pos α) : Option (Option (α × Nat × Nat) × Pos α) :=
  (p.item.elim (some none) fun x => (firstRow cols test x (size x - p.row) p.row p.col).map (Option.map (x,·))).bind fun found =>
    match found with
    | some hit => some (some hit,⟨some hit.1,hit.2.1,hit.2.2 + 1,p.rest⟩)
    | none => (firstItem size cols test p.rest).map fun found =>
      match found.1 with
      | some hit => (some hit,⟨some hit.1,hit.2.1,hit.2.2 + 1,found.2⟩)
      | none => (none,⟨none,0,0,found.2⟩)

/-! ### Tests that answer -/

variable {size cols} {p : α → Nat → Nat → Bool}

/-- The hits of the `k` columns from `c` on. -/
def rowHits (p : α → Nat → Nat → Bool) (x : α) (r c k : Nat) : List (α × Nat × Nat) :=
  ((List.range' c k).filter (p x r)).map fun c => (x,r,c)

def rowsHits (cols : Nat) (p : α → Nat → Nat → Bool) (x : α) : Nat → Nat → Nat → List (α × Nat × Nat)
  | 0, _, _ => []
  | k + 1, r, c => rowHits p x r c (cols - c) ++ rowsHits cols p x k (r + 1) 0

/-- The hits of all items up to one without rows. -/
def itemHits (size : α → Nat) (cols : Nat) (p : α → Nat → Nat → Bool) (xs : List α) : List (α × Nat × Nat) :=
  (xs.takeWhile fun x => 0 < size x).flatMap fun x => rowsHits cols p x (size x) 0 0

def Pos.hits (size : α → Nat) (cols : Nat) (p : α → Nat → Nat → Bool) (s : Pos α) : List (α × Nat × Nat) :=
  s.item.elim [] (fun x => rowsHits cols p x (size x - s.row) s.row s.col) ++ itemHits size cols p s.rest

theorem firstColIs (x : α) (r k c : Nat) : ∃ found, firstCol (fun x r c => some (p x r c)) x r k c = some found ∧
    match found with
    | none => rowHits p x r c k = []
    | some c' => c ≤ c' ∧ c' < c + k ∧ rowHits p x r c k = (x,r,c') :: rowHits p x r (c' + 1) (c + k - (c' + 1)) := by
  induction k generalizing c with
  | zero => exact ⟨none,rfl,rfl⟩
  | succ k ih =>
    rw [firstCol,Option.bind_some]
    cases hit : p x r c with
    | true =>
      refine ⟨some c,rfl,Nat.le_refl c,by omega,?_⟩
      rw [rowHits,List.range'_succ,List.filter_cons_of_pos hit,List.map_cons,show c + (k + 1) - (c + 1) = k by omega]
      rfl
    | false =>
      obtain ⟨found,is,hits⟩ := ih (c + 1)
      have same : rowHits p x r c (k + 1) = rowHits p x r (c + 1) k := by
        rw [rowHits,List.range'_succ,List.filter_cons_of_neg (by rw [hit]; decide)]
        rfl
      refine ⟨found,is,?_⟩
      rw [same,show c + (k + 1) = c + 1 + k by omega]
      cases found with
      | none => exact hits
      | some c' => exact ⟨by have := hits.1; omega,hits.2⟩

theorem firstRowIs (x : α) (k r c : Nat) : ∃ found, firstRow cols (fun x r c => some (p x r c)) x k r c = some found ∧
    match found with
    | none => rowsHits cols p x k r c = []
    | some at_ => r ≤ at_.1 ∧ at_.1 < r + k ∧
        rowsHits cols p x k r c = (x,at_) :: rowsHits cols p x (r + k - at_.1) at_.1 (at_.2 + 1) := by
  induction k generalizing r c with
  | zero => exact ⟨none,rfl,rfl⟩
  | succ k ih =>
    obtain ⟨found,is,hits⟩ := @firstColIs α p x r (cols - c) c
    rw [firstRow,is,Option.bind_some,rowsHits]
    cases found with
    | some c' =>
      refine ⟨some (r,c'),rfl,Nat.le_refl r,by omega,?_⟩
      obtain ⟨from_,inside,hits⟩ := hits
      rw [show c + (cols - c) = cols by omega] at hits
      dsimp only
      rw [hits,show r + (k + 1) - r = k + 1 by omega]
      rfl
    | none =>
      obtain ⟨found,is,later⟩ := ih (r + 1) 0
      rw [show rowHits p x r c (cols - c) = [] from hits,List.nil_append,show r + (k + 1) = r + 1 + k by omega]
      refine ⟨found,is,?_⟩
      cases found with
      | none => exact later
      | some at_ => exact ⟨by have := later.1; omega,later.2⟩

theorem firstItemIs (xs : List α) : ∃ found, firstItem size cols (fun x r c => some (p x r c)) xs = some found ∧
    match found.1 with
    | none => itemHits size cols p xs = []
    | some hit => itemHits size cols p xs = hit ::
        (rowsHits cols p hit.1 (size hit.1 - hit.2.1) hit.2.1 (hit.2.2 + 1) ++ itemHits size cols p found.2) := by
  induction xs with
  | nil => exact ⟨_,rfl,rfl⟩
  | cons x xs ih =>
    rw [firstItem]
    by_cases none_ : size x = 0
    · rw [if_pos none_]
      refine ⟨_,rfl,?_⟩
      rw [itemHits,List.takeWhile_cons_of_neg (by rw [none_]; decide),List.flatMap_nil]
    · have here : itemHits size cols p (x :: xs) = rowsHits cols p x (size x) 0 0 ++ itemHits size cols p xs := by
        rw [itemHits,List.takeWhile_cons,if_pos (decide_eq_true (Nat.pos_of_ne_zero none_)),List.flatMap_cons]
        rfl
      obtain ⟨found,is,hits⟩ := @firstRowIs α cols p x (size x) 0 0
      rw [if_neg none_,is,Option.bind_some,here]
      cases found with
      | some at_ =>
        refine ⟨_,rfl,?_⟩
        rw [hits.2.2,Nat.zero_add]
        rfl
      | none =>
        obtain ⟨found,is,later⟩ := ih
        rw [show rowsHits cols p x (size x) 0 0 = [] from hits,List.nil_append]
        exact ⟨found,is,later⟩

/-- A call gives the first of the hits that are left. -/
theorem nextIs (s : Pos α) : ∃ found, next size cols (fun x r c => some (p x r c)) s = some found ∧
    match found.1 with
    | none => s.hits size cols p = []
    | some hit => s.hits size cols p = hit :: found.2.hits size cols p := by
  obtain ⟨item,row,col,rest⟩ := s
  obtain ⟨found,is,hits⟩ := @firstItemIs α size cols p rest
  have fresh (none_ : item.elim [] (fun x => rowsHits cols p x (size x - row) row col) = [])
      (end_ : item.elim (some none) (fun x => (firstRow cols (fun x r c => some (p x r c)) x (size x - row) row col).map
        (Option.map (x,·))) = some none) :
      ∃ found, next size cols (fun x r c => some (p x r c)) ⟨item,row,col,rest⟩ = some found ∧
        match found.1 with
        | none => Pos.hits size cols p ⟨item,row,col,rest⟩ = []
        | some hit => Pos.hits size cols p ⟨item,row,col,rest⟩ = hit :: found.2.hits size cols p := by
    rw [next,end_,Option.bind_some,is,Option.map_some,Pos.hits,none_,List.nil_append]
    obtain ⟨hit,later⟩ := found
    cases hit with
    | none => exact ⟨_,rfl,hits⟩
    | some hit => exact ⟨_,rfl,hits⟩
  cases item with
  | none => exact fresh rfl rfl
  | some x =>
    obtain ⟨found,is,hits⟩ := @firstRowIs α cols p x (size x - row) row col
    cases found with
    | none => exact fresh hits (by rw [Option.elim_some,is]; rfl)
    | some at_ =>
      have left : row + (size x - row) - at_.1 = size x - at_.1 := by
        have := hits.1
        have := hits.2.1
        omega
      refine ⟨(some (x,at_),⟨some x,at_.1,at_.2 + 1,rest⟩),by rw [next,Option.elim_some,is]; rfl,?_⟩
      dsimp only at hits ⊢
      rw [Pos.hits,Option.elim_some,hits.2.2,left]
      rfl

/-- Where a test goes wrong, nothing is given but the end. -/
theorem nextStuck {s : Pos α} (fresh : s.item = none) (some_ : 0 < cols) : next size cols (fun _ _ _ => none) s =
    match s.rest with
    | [] => some (none,⟨none,0,0,[]⟩)
    | x :: xs => if size x = 0 then some (none,⟨none,0,0,xs⟩) else none := by
  rw [next,fresh]
  dsimp only [Option.elim_none,Option.bind_some]
  cases s.rest with
  | nil => rfl
  | cons x xs =>
    dsimp only
    rw [firstItem]
    by_cases none_ : size x = 0
    · rw [if_pos none_,if_pos none_]
      rfl
    · obtain ⟨k,is⟩ := Nat.exists_eq_succ_of_ne_zero none_
      obtain ⟨n,cols⟩ := Nat.exists_eq_succ_of_ne_zero (Nat.ne_of_gt some_)
      rw [if_neg none_,if_neg none_,is,firstRow,Nat.sub_zero,cols,firstCol]
      rfl

/-- The hits by the places of the rows. -/
theorem rowsHitsIs (x : α) (k r : Nat) : rowsHits cols p x k r 0 =
    (List.range' r k).flatMap fun r => ((List.range cols).filter (p x r)).map fun c => (x,r,c) := by
  induction k generalizing r with
  | zero => rfl
  | succ k ih =>
    rw [rowsHits,ih,List.range'_succ,List.flatMap_cons,rowHits,Nat.sub_zero,List.range_eq_range']

theorem itemHitsIs (xs : List α) : itemHits size cols p xs = (xs.takeWhile fun x => 0 < size x).flatMap fun x =>
    (List.range (size x)).flatMap fun r => ((List.range cols).filter (p x r)).map fun c => (x,r,c) := by
  rw [itemHits]
  congr 1
  funext x
  rw [rowsHitsIs,← List.range_eq_range']

end Napastak.NestedLoop
