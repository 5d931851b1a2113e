import Mathlib.Data.List.Basic
import Mathlib.Algebra.Order.Ring.Nat

/-! Texts written as literals and copies of what was already written, where a copy may reach into itself. -/
namespace Napastak.Lz
variable {α : Type}

inductive Element (α : Type) where
  | literal (xs : List α)
  | copy (off len : Nat)
  deriving DecidableEq

def Element.size : Element α → Nat
  | .literal xs => xs.length
  | .copy _ len => len

def total (es : List (Element α)) : Nat := (es.map Element.size).sum

/-- Every copy begins in what is written before it, of which there are `n` elements at first. -/
def Placed : Nat → List (Element α) → Prop
  | _, [] => True
  | n, .literal xs :: es => Placed (n + xs.length) es
  | n, .copy off len :: es => (1 ≤ off ∧ off ≤ n) ∧ Placed (n + len) es

/-- The last `off` elements over and over, `len` of them. -/
def repeated (out : List α) (off len : Nat) : List α := (List.range len).filterMap fun i => out[out.length - off + i % off]?

/-- A copy made element by element. -/
def copyEach (off : Nat) : Nat → List α → List α
  | 0, out => out
  | n + 1, out => copyEach off n (out ++ (out[out.length - off]?).toList)

def expand : List α → List (Element α) → Option (List α)
  | out, [] => some out
  | out, .literal xs :: es => expand (out ++ xs) es
  | out, .copy off len :: es => if 1 ≤ off ∧ off ≤ out.length then expand (out ++ repeated out off len) es else none

theorem repeatedGet {out : List α} {off len : Nat} (some_ : 1 ≤ off) (inside : off ≤ out.length) :
    repeated out off len = (List.range len).map fun i =>
      out.get ⟨out.length - off + i % off,by have := Nat.mod_lt i some_; omega⟩ := by
  rw [repeated,← List.filterMap_eq_map]
  refine List.filterMap_congr fun i _ => ?_
  have less : out.length - off + i % off < out.length := by
    have := Nat.mod_lt i some_
    omega
  exact List.getElem?_eq_getElem less

theorem repeatedLength {out : List α} {off len : Nat} (some_ : 1 ≤ off) (inside : off ≤ out.length) :
    (repeated out off len).length = len := by
  rw [repeatedGet some_ inside,List.length_map,List.length_range]

/-- The next element of a copy is the one `off` before it, whether that was there at first or is part of the copy. -/
theorem repeatedNext {out : List α} {off len : Nat} (some_ : 1 ≤ off) (inside : off ≤ out.length) :
    repeated out off (len + 1) = repeated out off len ++ ((out ++ repeated out off len)[out.length + len - off]?).toList := by
  have less := Nat.mod_lt len some_
  have last : (out ++ repeated out off len)[out.length + len - off]? = out[out.length - off + len % off]? := by
    by_cases first : len < off
    · rw [List.getElem?_append_left (by omega),Nat.mod_eq_of_lt first]
      congr 1
      omega
    · have back : (len - off) % off = len % off := (Nat.mod_eq_sub_mod (Nat.not_lt.mp first)).symm
      rw [List.getElem?_append_right (by omega),repeatedGet some_ inside,List.getElem?_map,List.getElem?_range (by omega),
        List.getElem?_eq_getElem (by omega)]
      simp only [Option.map_some,List.get_eq_getElem,show out.length + len - off - out.length = len - off by omega,back]
  have taken : (List.range (len + 1)).filterMap (fun i => out[out.length - off + i % off]?) =
      repeated out off len ++ (out[out.length - off + len % off]?).toList := by
    rw [List.range_succ,List.filterMap_append,repeated]
    refine congrArg (_ ++ ·) ?_
    cases is : out[out.length - off + len % off]? with
    | none => exact List.filterMap_cons_none is
    | some x => exact List.filterMap_cons_some is
  rw [last,← taken]
  rfl

theorem copyEachIs {out : List α} {off : Nat} (some_ : 1 ≤ off) (inside : off ≤ out.length) (n : Nat) :
    copyEach off n out = out ++ repeated out off n := by
  have from_ (k : Nat) : copyEach off n (out ++ repeated out off k) = out ++ repeated out off (k + n) := by
    induction n generalizing k with
    | zero => rfl
    | succ n ih =>
      have next : repeated out off (k + 1) = repeated out off k ++ ((out ++ repeated out off k)[out.length + k - off]?).toList :=
        repeatedNext some_ inside
      rw [copyEach,List.length_append,repeatedLength some_ inside,List.append_assoc,← next,ih (k + 1),Nat.add_right_comm]
      rfl
  have := from_ 0
  rwa [show repeated out off 0 = [] from rfl,List.append_nil,Nat.zero_add] at this

theorem expandSize {out out' : List α} {es : List (Element α)} (ok : expand out es = some out') :
    out'.length = out.length + total es := by
  induction es generalizing out with
  | nil =>
    cases ok
    rfl
  | cons e es ih =>
    cases e with
    | literal xs =>
      rw [ih ok,List.length_append,Nat.add_assoc]
      rfl
    | copy off len =>
      rw [expand] at ok
      split at ok
      · rename_i inside
        rw [ih ok,List.length_append,repeatedLength inside.1 inside.2,Nat.add_assoc]
        rfl
      · cases ok

theorem expandPlaced {out : List α} {es : List (Element α)} : (∃ out', expand out es = some out') ↔ Placed out.length es := by
  induction es generalizing out with
  | nil => exact ⟨fun _ => trivial,fun _ => ⟨out,rfl⟩⟩
  | cons e es ih =>
    cases e with
    | literal xs =>
      rw [Placed,← List.length_append]
      exact ih
    | copy off len =>
      rw [Placed]
      by_cases inside : 1 ≤ off ∧ off ≤ out.length
      · have next := @ih (out ++ repeated out off len)
        rw [List.length_append,repeatedLength inside.1 inside.2] at next
        rw [← next,expand,if_pos inside]
        exact ⟨fun h => ⟨inside,h⟩,And.right⟩
      · rw [expand,if_neg inside]
        refine ⟨fun ⟨_,none_⟩ => ?_,fun both => absurd both.1 inside⟩
        cases none_

end Napastak.Lz
