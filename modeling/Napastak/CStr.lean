import Mathlib.Data.List.Basic
import Mathlib.Algebra.Order.Ring.Nat

/-! C strings as the bytes before their terminator, and the few library functions
the sources call on them. -/
namespace Napastak

abbrev Bytes := List UInt8

instance : LawfulBEq Bytes := inferInstance

/-- The bytes of a literal of the source. -/
def ascii (s : String) : Bytes := s.toList.map fun c => c.toNat.toUInt8

/-- `DFO_NULL_SENTINEL`, the cell text that stands for SQL NULL. -/
def nullSentinel : Bytes := 1 :: 2 :: ascii "__DFO_NULL__"

/-- The sign `strcmp` gives: bytes compared unsigned, the shorter of two equal runs first. -/
def strcmp : Bytes → Bytes → Int
  | [], [] => 0
  | [], _ :: _ => -1
  | _ :: _, [] => 1
  | a :: s, b :: t => if a < b then -1 else if b < a then 1 else strcmp s t

def tolower (c : UInt8) : UInt8 := if 65 ≤ c ∧ c ≤ 90 then c + 32 else c

def toupper (c : UInt8) : UInt8 := if 97 ≤ c ∧ c ≤ 122 then c - 32 else c

def strcasecmp (a b : Bytes) : Int := strcmp (a.map tolower) (b.map tolower)

def isdigit (c : UInt8) : Bool := 48 ≤ c ∧ c ≤ 57

def isalpha (c : UInt8) : Bool := (65 ≤ c ∧ c ≤ 90) ∨ (97 ≤ c ∧ c ≤ 122)

/-- `isspace` of the C locale. -/
def isspace (c : UInt8) : Bool := c = 32 ∨ (9 ≤ c ∧ c ≤ 13)

theorem strcmpSelf (s : Bytes) : strcmp s s = 0 := by
  induction s with
  | nil => rfl
  | cons a s ih => simp [strcmp,ih]

theorem strcmpZero {s t : Bytes} (h : strcmp s t = 0) : s = t := by
  induction s generalizing t with
  | nil => cases t with
    | nil => rfl
    | cons b t => simp [strcmp] at h
  | cons a s ih => cases t with
    | nil => simp [strcmp] at h
    | cons b t =>
      simp only [strcmp] at h
      split at h
      · contradiction
      · split at h
        · contradiction
        · rename_i ab ba
          rw [UInt8.le_antisymm (UInt8.not_lt.mp ba) (UInt8.not_lt.mp ab),ih h]

theorem strcmpFlip (s t : Bytes) : strcmp t s = -strcmp s t := by
  induction s generalizing t with
  | nil => cases t <;> rfl
  | cons a s ih => cases t with
    | nil => rfl
    | cons b t =>
      simp only [strcmp,ih t]
      by_cases ab : a < b
      · rw [if_pos ab,if_pos ab,if_neg (UInt8.lt_asymm ab)]
        rfl
      · rw [if_neg ab,if_neg ab]
        split <;> rfl

theorem strcmpTrans {s t u : Bytes} (h : strcmp s t < 0) (h' : strcmp t u < 0) : strcmp s u < 0 := by
  induction s generalizing t u with
  | nil => cases u with
    | nil => cases t <;> simp [strcmp] at h h'
    | cons c u => simp [strcmp]
  | cons a s ih =>
    cases t with
    | nil => simp [strcmp] at h
    | cons b t => cases u with
      | nil => simp [strcmp] at h'
      | cons c u =>
        simp only [strcmp,UInt8.lt_iff_toNat_lt] at h h' ⊢
        split at h
        · split at h' <;> try split at h'
          · rw [if_pos (by omega)]; omega
          · omega
          · rw [if_pos (by omega)]; omega
        · split at h
          · omega
          · split at h' <;> try split at h'
            · rw [if_pos (by omega)]; omega
            · omega
            · rw [if_neg (by omega),if_neg (by omega)]
              exact ih h h'

end Napastak
