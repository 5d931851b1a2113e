import Napastak.Lib.EditDistance
import Napastak.Val

/-! `qe_levenshtein` over code points and `api_levenshtein` over bytes: one dynamic program with two rows of `int`. -/
namespace Napastak.Levenshtein
open Query EditDistance

/-! ### Code points -/

/-- The number of bytes and the first bits that a lead byte announces. -/
def announced (c : UInt8) : Nat × Nat :=
  if c < 0x80 then (c.toNat,1)
  else if c &&& 0xE0 = 0xC0 then ((c &&& 0x1F).toNat,2)
  else if c &&& 0xF0 = 0xE0 then ((c &&& 0x0F).toNat,3)
  else if c &&& 0xF8 = 0xF0 then ((c &&& 0x07).toNat,4)
  else (c.toNat,1)

/-- The code point of the announced continuation bytes; none when one of them is missing or is something else. -/
def continued : Nat → Nat → Bytes → Option Nat
  | 0, u, _ => some u
  | _ + 1, _, [] => none
  | k + 1, u, c :: s => if c &&& 0xC0 = 0x80 then continued k (u <<< 6 ||| (c &&& 0x3F).toNat) s else none

/-- A byte that begins nothing complete stands for itself. -/
def qeUtf8Decode : Bytes → List Nat
  | [] => []
  | c :: s =>
    match continued ((announced c).2 - 1) (announced c).1 s with
    | some u => u :: qeUtf8Decode (s.drop ((announced c).2 - 1))
    | none => c.toNat :: qeUtf8Decode s
termination_by s => s.length
decreasing_by all_goals simp_wf <;> omega

/-! ### The program -/

/-- `(int)n`. -/
def asInt (n : Nat) : Int := Int.bmod n (2 ^ 32)

/-- One more in `int`; what overflows has no value. -/
def incr (v : Int) : Option Int := if v < 2 ^ 31 - 1 then some (v + 1) else none

section
variable {α : Type} [DecidableEq α]

/-- A cell from those of the row before, above it and before that one, and from the one on its left. -/
def cell (x y : α) (diag above left : Int) : Option Int := do
  let del ← incr above
  let ins ← incr left
  let sub ← (if x = y then some diag else incr diag : Option Int)
  let m := if del < ins then del else ins
  return if m < sub then m else sub

/-- The cells of a row behind its first one, from that of the row before at the same place on. -/
def cells (x : α) : List α → List Int → Int → Option (List Int)
  | y :: ys, p :: q :: prev, left => (cell x y p q left).bind fun here => (cells x ys (q :: prev) here).map (here :: ·)
  | _, _, _ => some []

/-- The rows from number `i` on. -/
def rows (ys : List α) : Nat → List α → List Int → Option (List Int)
  | _, [], prev => some prev
  | i, x :: xs, prev => (cells x ys prev (asInt i)).bind fun cur => rows ys (i + 1) xs (asInt i :: cur)

def levenshtein (cx cy : List α) : Option Int :=
  if cx = [] then some (asInt cy.length)
  else if cy = [] then some (asInt cx.length)
  else (rows cy 1 cx ((List.range (cy.length + 1)).map asInt)).map fun prev => prev.getLastD 0

end

def qeLevenshtein (x y : Bytes) : Option Int := levenshtein (qeUtf8Decode x) (qeUtf8Decode y)

def apiLevenshtein (x y : Bytes) : Option Int := levenshtein x y

/-- The SQL function `levenshtein`. -/
def evalLevenshtein {F : Type} [Doubles F] (a0 a1 : Val F) : Option (Val F) :=
  if a0.isNull ∨ a1.isNull then some vnull else (apiLevenshtein (valStr a0) (valStr a1)).map fun v => vnum (Doubles.ofInt v)

/-! ### Rows and distances -/

theorem asIntSmall {n : Nat} (small : n < 2 ^ 31) : asInt n = n := by
  unfold asInt
  rw [Int.bmod_eq_of_le] <;> omega

section
variable {α : Type} [DecidableEq α]

/-- The distances to all prefixes of `ys` behind `p`. -/
def line (xs p : List α) : List α → List Int
  | [] => [(distance xs p : Int)]
  | y :: ys => (distance xs p : Int) :: line xs (p ++ [y]) ys

theorem lineHead (xs p ys : List α) : ∃ rest, line xs p ys = (distance xs p : Int) :: rest := by
  cases ys <;> exact ⟨_,rfl⟩

theorem lineLast (xs p ys : List α) : (line xs p ys).getLastD 0 = distance xs (p ++ ys) := by
  induction ys generalizing p with
  | nil => rw [line,List.append_nil]; rfl
  | cons y ys ih =>
    obtain ⟨rest,is⟩ := lineHead xs (p ++ [y]) ys
    have tail := ih (p ++ [y])
    rw [is] at tail
    rw [line,is,List.getLastD_cons,List.getLastD_cons]
    rw [List.getLastD_cons] at tail
    rw [tail,List.append_assoc,List.singleton_append]

theorem cellDistance (x y : α) (xs p : List α) (fits : xs.length + 1 < 2 ^ 31 - 1 ∧ p.length + 1 < 2 ^ 31 - 1) :
    cell x y (distance xs p) (distance xs (p ++ [y])) (distance (xs ++ [x]) p) = some ((distance (xs ++ [x]) (p ++ [y]) : Nat) : Int) := by
  have above := distanceLong xs (p ++ [y])
  have left := distanceLong (xs ++ [x]) p
  have corner := distanceLong xs p
  rw [List.length_append,List.length_singleton] at above left
  have step := distanceConcat x y xs p
  have del : incr (distance xs (p ++ [y]) : Int) = some ((distance xs (p ++ [y]) + 1 : Nat) : Int) := if_pos (by omega)
  have ins : incr (distance (xs ++ [x]) p : Int) = some ((distance (xs ++ [x]) p + 1 : Nat) : Int) := if_pos (by omega)
  have sub : (if x = y then some (distance xs p : Int) else incr (distance xs p : Int)) =
      some ((distance xs p + if x = y then 0 else 1 : Nat) : Int) := by
    split
    · rfl
    · exact if_pos (by omega)
  rw [cell,del,ins,sub,step]
  refine congrArg some ?_
  split <;> split <;> omega

/-- One row from the row before, as long as no cell comes near the end of `int`. -/
theorem cellsLine (x : α) (xs p : List α) (ys : List α) (fits : xs.length + 1 < 2 ^ 31 - 1 ∧ p.length + ys.length < 2 ^ 31 - 1) :
    (cells x ys (line xs p ys) (distance (xs ++ [x]) p)).map ((distance (xs ++ [x]) p : Int) :: ·) = some (line (xs ++ [x]) p ys) := by
  induction ys generalizing p with
  | nil => rfl
  | cons y ys ih =>
    rw [List.length_cons] at fits
    have next := ih (p ++ [y]) (by rw [List.length_append,List.length_singleton]; omega)
    obtain ⟨rest,is⟩ := lineHead xs (p ++ [y]) ys
    rw [line,is,cells,cellDistance x y xs p (by omega),Option.bind_some,← is,next,Option.map_some,line]

theorem rowsLine (ys xs done : List α) (fits : done.length + xs.length < 2 ^ 31 - 1 ∧ ys.length < 2 ^ 31 - 1) :
    rows ys (done.length + 1) xs (line done [] ys) = some (line (done ++ xs) [] ys) := by
  induction xs generalizing done with
  | nil => rw [rows,List.append_nil]
  | cons x xs ih =>
    rw [List.length_cons] at fits
    have first : asInt (done.length + 1) = (distance (done ++ [x]) [] : Int) := by
      rw [asIntSmall (by omega),distanceNil,List.length_append,List.length_singleton]
    have row := cellsLine x done [] ys ⟨by omega,by rw [List.length_nil]; omega⟩
    have rest := ih (done ++ [x]) (by rw [List.length_append,List.length_singleton]; omega)
    rw [List.length_append,List.length_singleton,List.append_assoc,List.singleton_append] at rest
    rw [rows,first]
    cases run : cells x ys (line done [] ys) (distance (done ++ [x]) [] : Int) with
    | none => rw [run] at row; cases row
    | some cur =>
      rw [run,Option.map_some,Option.some.injEq] at row
      rw [Option.bind_some,row,rest]

theorem lineStart (p ys : List α) (fits : p.length + ys.length < 2 ^ 31) :
    line [] p ys = (List.range' p.length (ys.length + 1)).map asInt := by
  induction ys generalizing p with
  | nil => rw [line,distance,List.length_nil]; exact congrArg (List.cons · []) (asIntSmall (by simpa using fits)).symm
  | cons y ys ih =>
    rw [List.length_cons] at fits
    have rest := ih (p ++ [y]) (by rw [List.length_append,List.length_singleton]; omega)
    rw [List.length_append,List.length_singleton] at rest
    rw [line,distance,rest,List.length_cons,List.range'_succ (s := p.length),List.map_cons,asIntSmall (by omega)]

theorem levenshteinFits {cx cy : List α} (x_ : cx ≠ []) (y_ : cy ≠ []) (fits : cx.length < 2 ^ 31 - 1 ∧ cy.length < 2 ^ 31 - 1) :
    levenshtein cx cy = some (distance cx cy : Int) := by
  have start : (List.range (cy.length + 1)).map asInt = line [] [] cy := by
    rw [lineStart [] cy (by rw [List.length_nil]; omega),List.range_eq_range']
    rfl
  have run := rowsLine cy cx [] (by rw [List.length_nil]; omega)
  rw [List.length_nil,Nat.zero_add,List.nil_append] at run
  rw [levenshtein,if_neg x_,if_neg y_,start,run,Option.map_some,lineLast,List.nil_append]

/-! ### Texts beyond `int` -/

theorem cellsAbove (x : α) {ys : List α} {prev : List Int} {j : Nat} (inside : j < ys.length) (full : prev[j + 1]? = some (2 ^ 31 - 1))
    (left : Int) : cells x ys prev left = none := by
  induction ys generalizing prev j left with
  | nil => cases inside
  | cons y ys ih =>
    rcases prev with _ | ⟨p,_ | ⟨q,prev⟩⟩
    · cases full
    · cases j <;> cases full
    rw [cells]
    cases j with
    | zero =>
      have top : q = 2 ^ 31 - 1 := Option.some.inj full
      have over_ : incr q = none := if_neg (by omega)
      rw [cell,over_]
      rfl
    | succ j =>
      cases cell x y p q left with
      | none => rfl
      | some here => rw [Option.bind_some,ih (Nat.lt_of_succ_lt_succ inside) full here]; rfl

theorem cellsLeft (x y : α) (ys : List α) (p q : Int) (prev : List Int) : cells x (y :: ys) (p :: q :: prev) (2 ^ 31 - 1) = none := by
  have over_ : incr (2 ^ 31 - 1) = none := if_neg (by omega)
  rw [cells,cell,over_]
  cases incr q <;> rfl

theorem cellsLength (x : α) {ys : List α} {prev cur : List Int} {left : Int} (length : prev.length = ys.length + 1)
    (run : cells x ys prev left = some cur) : cur.length = ys.length := by
  induction ys generalizing prev left cur with
  | nil => rw [cells.eq_2 x [] prev left nofun] at run; cases run; rfl
  | cons y ys ih =>
    rcases prev with _ | ⟨p,_ | ⟨q,prev⟩⟩
    · cases length
    · cases length
    rw [cells,Option.bind_eq_some_iff] at run
    obtain ⟨here,_,run⟩ := run
    obtain ⟨rest,more,rfl⟩ := Option.map_eq_some_iff.mp run
    rw [List.length_cons,List.length_cons,ih (Nat.succ.inj length) more]

theorem rowsFull {ys xs : List α} {prev : List Int} {i k : Nat} (some_ : ys ≠ []) (length : prev.length = ys.length + 1)
    (inside : k < xs.length) (full : i + k = 2 ^ 31 - 1) : rows ys i xs prev = none := by
  induction xs generalizing prev i k with
  | nil => cases inside
  | cons x xs ih =>
    rw [rows]
    cases k with
    | zero =>
      rcases ys with _ | ⟨y,ys⟩
      · exact absurd rfl some_
      rcases prev with _ | ⟨p,_ | ⟨q,prev⟩⟩
      · cases length
      · cases length
      have top : asInt i = 2 ^ 31 - 1 := by rw [asIntSmall (by omega)]; omega
      rw [top,cellsLeft]
      rfl
    | succ k =>
      cases run : cells x ys prev (asInt i) with
      | none => rfl
      | some cur =>
        rw [Option.bind_some]
        exact ih (by rw [List.length_cons,cellsLength x length run]) (Nat.lt_of_succ_lt_succ inside) (by omega)

theorem levenshteinFull {cx cy : List α} (x_ : cx ≠ []) (y_ : cy ≠ []) (full : ¬ (cx.length < 2 ^ 31 - 1 ∧ cy.length < 2 ^ 31 - 1)) :
    levenshtein cx cy = none := by
  have run : rows cy 1 cx ((List.range (cy.length + 1)).map asInt) = none := by
    by_cases long : cy.length < 2 ^ 31 - 1
    · exact rowsFull (k := 2 ^ 31 - 2) y_ (by rw [List.length_map,List.length_range]) (by omega) (by omega)
    · rcases cx with _ | ⟨x,xs⟩
      · exact absurd rfl x_
      have top : ((List.range (cy.length + 1)).map asInt)[2 ^ 31 - 2 + 1]? = some (2 ^ 31 - 1) := by
        rw [List.getElem?_map,List.getElem?_range (by omega),Option.map_some,asIntSmall (by omega)]
        rfl
      rw [rows,cellsAbove x (by omega) top]
      rfl
  rw [levenshtein,if_neg x_,if_neg y_,run,Option.map_none]

end

/-! ### Bytes and code points -/

theorem decodeNil : qeUtf8Decode [] = [] := by rw [qeUtf8Decode]

theorem decodeSome {s : Bytes} (some_ : s ≠ []) : qeUtf8Decode s ≠ [] := by
  cases s with
  | nil => exact absurd rfl some_
  | cons c s => rw [qeUtf8Decode]; split <;> exact List.cons_ne_nil _ _

theorem decodeShorter (s : Bytes) : (qeUtf8Decode s).length ≤ s.length := by
  fun_induction qeUtf8Decode s with
  | case1 => exact Nat.le_refl _
  | case2 c s u _ ih =>
    rw [List.length_drop] at ih
    rw [List.length_cons,List.length_cons]
    omega
  | case3 c s _ ih => exact Nat.succ_le_succ ih

theorem asIntIff (n : Nat) : asInt n = n ↔ n < 2 ^ 31 := by
  refine ⟨fun is => ?_,asIntSmall⟩
  have below : Int.bmod n (2 ^ 32) < ((2 ^ 32 : Nat) + 1) / 2 := Int.bmod_lt (by decide)
  unfold asInt at is
  omega

/-- Both functions give the distance of the code points exactly when the distance of the bytes, as an `int`, is the same number and
no row overflows. -/
theorem levenshteinIff {F : Type} [Doubles F] (a b : Bytes) :
    (qeLevenshtein a b = some (distance (qeUtf8Decode a) (qeUtf8Decode b) : Int) ∧
      apiLevenshtein a b = some (distance (qeUtf8Decode a) (qeUtf8Decode b) : Int) ∧
      evalLevenshtein (vstrS a : Val F) (vstrS b) = some (vnum (Doubles.ofInt (distance (qeUtf8Decode a) (qeUtf8Decode b))))) ↔
    (a ≠ [] → b ≠ [] → a.length < 2 ^ 31 - 1 ∧ b.length < 2 ^ 31 - 1) ∧ distance (qeUtf8Decode a) (qeUtf8Decode b) < 2 ^ 31 ∧
      asInt (distance a b) = distance (qeUtf8Decode a) (qeUtf8Decode b) := by
  -- the SQL function follows the second
  have sql : evalLevenshtein (vstrS a : Val F) (vstrS b) = (apiLevenshtein a b).map fun v => vnum (Doubles.ofInt v) := rfl
  have both : (qeLevenshtein a b = some (distance (qeUtf8Decode a) (qeUtf8Decode b) : Int) ∧
      apiLevenshtein a b = some (distance (qeUtf8Decode a) (qeUtf8Decode b) : Int)) ↔
      (a ≠ [] → b ≠ [] → a.length < 2 ^ 31 - 1 ∧ b.length < 2 ^ 31 - 1) ∧ distance (qeUtf8Decode a) (qeUtf8Decode b) < 2 ^ 31 ∧
        asInt (distance a b) = distance (qeUtf8Decode a) (qeUtf8Decode b) := by
    by_cases a_ : a = []
    · subst a_
      rw [qeLevenshtein,apiLevenshtein,decodeNil,levenshtein,levenshtein,if_pos rfl,if_pos rfl,distance,distance,Option.some.injEq,
        Option.some.injEq,asIntIff]
      exact ⟨fun h => ⟨fun e => absurd rfl e,h.1,h.2⟩,fun h => h.2⟩
    by_cases b_ : b = []
    · subst b_
      rw [qeLevenshtein,apiLevenshtein,decodeNil,levenshtein,levenshtein,if_neg (decodeSome a_),if_pos rfl,if_neg a_,if_pos rfl,distanceNil,
        distanceNil,Option.some.injEq,Option.some.injEq,asIntIff]
      exact ⟨fun h => ⟨fun _ e => absurd rfl e,h.1,h.2⟩,fun h => h.2⟩
    have shorter := decodeShorter a
    have shorter' := decodeShorter b
    by_cases fits : a.length < 2 ^ 31 - 1 ∧ b.length < 2 ^ 31 - 1
    · have long := distanceLong (qeUtf8Decode a) (qeUtf8Decode b)
      have long' := distanceLong a b
      rw [qeLevenshtein,apiLevenshtein,levenshteinFits (decodeSome a_) (decodeSome b_) (by omega),levenshteinFits a_ b_ fits,
        asIntSmall (by omega),Option.some.injEq]
      exact ⟨fun h => ⟨fun _ _ => fits,by omega,Option.some.inj h.2⟩,fun h => ⟨rfl,congrArg some h.2.2⟩⟩
    · rw [apiLevenshtein,levenshteinFull a_ b_ fits]
      exact ⟨fun h => (by cases h.2),fun h => absurd (h.1 a_ b_) fits⟩
  rw [← both,sql]
  exact ⟨fun h => ⟨h.1,h.2.1⟩,fun h => ⟨h.1,h.2,by rw [h.2]; rfl⟩⟩

/-- The letter `а` against nothing: one code point, two bytes. -/
theorem bytesCounted : ¬ ∀ a b, qeLevenshtein a b = some (distance (qeUtf8Decode a) (qeUtf8Decode b) : Int) ∧
    apiLevenshtein a b = some (distance (qeUtf8Decode a) (qeUtf8Decode b) : Int) := by
  intro all
  have read : qeUtf8Decode [0xD0,0xB0] = [0x430] := by
    rw [qeUtf8Decode]
    exact congrArg (List.cons 0x430) decodeNil
  have api := (all [] [0xD0,0xB0]).2
  rw [read,decodeNil,distance] at api
  cases api

end Napastak.Levenshtein
