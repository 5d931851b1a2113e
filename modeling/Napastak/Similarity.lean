import Napastak.Levenshtein
import Napastak.Lib.FirstFit
import Napastak.NamedParams

/-! The similarities of `qengine.c` over code points. -/
namespace Napastak.Similarity
open Query Sql Levenshtein EditDistance FirstFit

/-- The arithmetic on doubles that the similarities use, the literals that are no whole numbers, and `%.6f`. -/
class MatchDoubles (F : Type) extends JsonDoubles F where
  add : F → F → F
  sub : F → F → F
  mul : F → F → F
  div : F → F → F
  tenth : F
  eightTenths : F
  fixed6 : F → Bytes
  addComm : ∀ a b, add a b = add b a

/-! ### Jaro-Winkler -/

/-- Half of the longer text, less one, and not below zero. -/
def window (l1 l2 : Nat) : Nat := max l1 l2 / 2 - 1

/-- The places of the second text that the place `i` of the first looks at. -/
def near (win l2 i : Nat) : List Nat := List.range' (i - win) (min (i + win + 1) l2 - (i - win))

def suits (c1 c2 : List Nat) (i j : Nat) : Bool := c1[i]? = c2[j]?

def matched (c1 c2 : List Nat) : Flags :=
  fit (near (window c1.length c2.length) c2.length) (suits c1 c2) c1.length c2.length

/-- Two flagged code points at a time; `while (!m2[k]) k++` is the search in the second list. -/
def transpositions : List (Bool × Nat) → List (Bool × Nat) → Nat
  | [], _ => 0
  | (false,_) :: xs, ys => transpositions xs ys
  | (true,x) :: xs, ys =>
    match ys.dropWhile (!·.1) with
    | [] => transpositions xs []
    | (_,y) :: ys => (if x = y then 0 else 1) + transpositions xs ys

def commonPrefix (c1 c2 : List Nat) : Nat := (((c1.zip c2).take 4).takeWhile fun p => p.1 = p.2).length

section
variable {F : Type} [MatchDoubles F]
open MatchDoubles

def one : F := Doubles.ofInt 1

def jaroWinkler (c1 c2 : List Nat) : F :=
  if c1 = [] ∨ c2 = [] then if c1.length = c2.length then one else Doubles.zero
  else
    let m := matched c1 c2
    if m.count = 0 then Doubles.zero
    else
      let mm : F := Doubles.ofInt m.count
      let tt := div (Doubles.ofInt (transpositions (m.left.zip c1) (m.right.zip c2))) (Doubles.ofInt 2)
      let jaro := div (add (add (div mm (Doubles.ofInt c1.length)) (div mm (Doubles.ofInt c2.length))) (div (sub mm tt) mm)) (Doubles.ofInt 3)
      add jaro (mul (mul (Doubles.ofInt (commonPrefix c1 c2)) tenth) (sub one jaro))

def qeJaroWinkler (s1 s2 : Bytes) : F := jaroWinkler (qeUtf8Decode s1) (qeUtf8Decode s2)

/-! ### Trigrams -/

def trigrams : List Nat → List (Nat × Nat × Nat)
  | a :: b :: c :: s => (a,b,c) :: trigrams (b :: c :: s)
  | _ => []

def qeWordSimilarity (query doc : Bytes) : F :=
  let q := qeUtf8Decode query
  let d := qeUtf8Decode doc
  if q.length < 3 ∧ d.length < 3 then if strcasecmp query doc = 0 then one else Doubles.zero
  else if q.length < 3 then Doubles.zero
  else div (Doubles.ofInt ((trigrams q).countP (· ∈ trigrams d))) (Doubles.ofInt (q.length - 2 : Nat))

end

def qeNormalizeInn (s : Bytes) : Bytes := s.filter isdigit

/-! ### Both orders -/

theorem memNear {win l2 i j : Nat} : j ∈ near win l2 i ↔ i ≤ j + win ∧ j ≤ i + win ∧ j < l2 := by
  rw [near,List.mem_range'_1]
  omega

theorem nearLooks (win l2 : Nat) : Looks (near win l2) l2 where
  sorted i := List.pairwise_lt_range' ..
  inside _ _ mem := (memNear.mp mem).2.2

theorem matchedFlip (c1 c2 : List Nat) : matched c2 c1 = ⟨(matched c1 c2).right,(matched c1 c2).left,(matched c1 c2).count⟩ := by
  have win : window c2.length c1.length = window c1.length c2.length := by rw [window,window,Nat.max_comm]
  rw [matched,matched,win]
  refine fitFlip (nearLooks ..) (nearLooks ..) fun i i_ j j_ => ?_
  rw [memNear,memNear,suits,suits,decide_eq_true_eq,decide_eq_true_eq]
  exact ⟨fun ⟨⟨a,b,_⟩,same⟩ => ⟨⟨b,a,i_⟩,same.symm⟩,fun ⟨⟨b,a,_⟩,same⟩ => ⟨⟨a,b,j_⟩,same.symm⟩⟩

def flagged (xs : List (Bool × Nat)) : List Nat := (xs.filter (·.1)).map (·.2)

theorem flaggedSkip (ys : List (Bool × Nat)) : flagged (ys.dropWhile (!·.1)) = flagged ys := by
  induction ys with
  | nil => rfl
  | cons y ys ih =>
    obtain ⟨set,c⟩ := y
    cases set with
    | false => exact ih
    | true => rfl

theorem transpositionsCount (xs ys : List (Bool × Nat)) :
    transpositions xs ys = ((flagged xs).zip (flagged ys)).countP fun p => p.1 ≠ p.2 := by
  induction xs generalizing ys with
  | nil => rfl
  | cons x xs ih =>
    obtain ⟨set,c⟩ := x
    cases set with
    | false => exact ih ys
    | true =>
      rw [transpositions,← flaggedSkip ys]
      cases rest : ys.dropWhile (!·.1) with
      | nil => exact (ih []).trans (by rw [show flagged [] = [] from rfl,List.zip_nil_right,List.zip_nil_right])
      | cons y ys' =>
        obtain ⟨set,d⟩ := y
        have head := List.head?_dropWhile_not (fun y : Bool × Nat => !y.1) ys
        rw [rest] at head
        obtain rfl : set = true := by simpa using head
        rw [show flagged ((true,c) :: xs) = c :: flagged xs from rfl,show flagged ((true,d) :: ys') = d :: flagged ys' from rfl,
          List.zip_cons_cons,List.countP_cons,← ih ys']
        by_cases same : c = d
        · simp [same]
        · simp [same,Nat.add_comm]

theorem transpositionsFlip (xs ys : List (Bool × Nat)) : transpositions ys xs = transpositions xs ys := by
  rw [transpositionsCount,transpositionsCount,← List.zip_swap,List.countP_map]
  refine List.countP_congr fun p _ => ?_
  rw [Function.comp_apply,decide_eq_true_eq,decide_eq_true_eq]
  exact ne_comm

theorem commonPrefixFlip (c1 c2 : List Nat) : commonPrefix c2 c1 = commonPrefix c1 c2 := by
  have turned : (fun p : Nat × Nat => decide (p.1 = p.2)) ∘ Prod.swap = fun p => decide (p.1 = p.2) := by
    funext p
    exact decide_eq_decide.mpr eq_comm
  rw [commonPrefix,commonPrefix,← List.zip_swap,← List.map_take,List.takeWhile_map,List.length_map,turned]

section
variable {F : Type} [MatchDoubles F]

theorem jaroWinklerFlip (c1 c2 : List Nat) : (jaroWinkler c2 c1 : F) = jaroWinkler c1 c2 := by
  by_cases empty : c1 = [] ∨ c2 = []
  · rw [jaroWinkler,jaroWinkler,if_pos empty,if_pos empty.symm]
    by_cases same : c1.length = c2.length
    · rw [if_pos same,if_pos same.symm]
    · rw [if_neg same,if_neg (Ne.symm same)]
  · rw [jaroWinkler,jaroWinkler,if_neg empty,if_neg fun h => empty h.symm,matchedFlip c1 c2]
    dsimp only
    rw [transpositionsFlip,commonPrefixFlip c1 c2,MatchDoubles.addComm (MatchDoubles.div _ (Doubles.ofInt c2.length))]

theorem qeJaroWinklerFlip (s1 s2 : Bytes) : (qeJaroWinkler s2 s1 : F) = qeJaroWinkler s1 s2 := jaroWinklerFlip ..

end

theorem levenshteinShort {s1 s2 : Bytes} (short1 : s1.length < 2 ^ 31 - 1) (short2 : s2.length < 2 ^ 31 - 1) :
    qeLevenshtein s1 s2 = some (distance (qeUtf8Decode s1) (qeUtf8Decode s2) : Int) := by
  have shorter1 := decodeShorter s1
  have shorter2 := decodeShorter s2
  by_cases s1_ : s1 = []
  · subst s1_
    rw [qeLevenshtein,decodeNil,levenshtein,if_pos rfl,distance,asIntSmall (by omega)]
  by_cases s2_ : s2 = []
  · subst s2_
    rw [qeLevenshtein,decodeNil,levenshtein,if_neg (decodeSome s1_),if_pos rfl,distanceNil,asIntSmall (by omega)]
  exact levenshteinFits (decodeSome s1_) (decodeSome s2_) ⟨by omega,by omega⟩

end Napastak.Similarity
