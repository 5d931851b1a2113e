import Mathlib.Data.List.FinRange
import Mathlib.Logic.Function.Basic

/-! A fixed number of slots, each free or holding a named value: found by name from the first slot on,
a new name put into the first free one. -/
namespace Napastak

variable {n : Nat} {ν α : Type}

abbrev Slots (n : Nat) (ν α : Type) := Fin n → Option (ν × α)

namespace Slots

def put (t : Slots n ν α) (i : Fin n) (x : ν) (a : α) : Slots n ν α := Function.update t i (some (x,a))

def release (t : Slots n ν α) (i : Fin n) : Slots n ν α := Function.update t i none

/-- No name in two slots. -/
def Distinct (t : Slots n ν α) : Prop := ∀ i j x a b, t i = some (x,a) → t j = some (x,b) → i = j

variable {t : Slots n ν α} {i j : Fin n} {x y : ν} {a b : α}

theorem putSame : t.put i x a i = some (x,a) := Function.update_self i _ t

theorem putOther (h : j ≠ i) : t.put i x a j = t j := Function.update_of_ne h _ t

theorem releaseSame : t.release i i = none := Function.update_self i _ t

theorem releaseOther (h : j ≠ i) : t.release i j = t j := Function.update_of_ne h _ t

theorem Distinct.release (distinct : t.Distinct) (i : Fin n) : (t.release i).Distinct := by
  intro j k y b c hj hk
  by_cases ji : j = i
  · rw [ji,releaseSame] at hj
    cases hj
  · by_cases ki : k = i
    · rw [ki,releaseSame] at hk
      cases hk
    · rw [releaseOther ji] at hj
      rw [releaseOther ki] at hk
      exact distinct j k y b c hj hk

variable [DecidableEq ν]

/-- The slot of a name. -/
def find (t : Slots n ν α) (x : ν) : Option (Fin n) := (List.finRange n).find? fun i => (t i).any fun e => e.1 = x

def firstFree (t : Slots n ν α) : Option (Fin n) := (List.finRange n).find? fun i => (t i).isNone

/-- The slot of a name, else a free one. -/
def findOrAlloc (t : Slots n ν α) (x : ν) : Option (Fin n) := (t.find x).or t.firstFree

def lookup (t : Slots n ν α) (x : ν) : Option α := (t.find x).bind fun i => (t i).map (·.2)

theorem findAt (h : t.find x = some i) : ∃ a, t i = some (x,a) := by
  have holds := List.find?_some h
  cases is : t i with
  | none =>
    rw [is] at holds
    contradiction
  | some e =>
    rw [is] at holds
    exact ⟨e.2,by rw [← of_decide_eq_true holds]⟩

theorem findMissing (h : t.find x = none) (i : Fin n) (a : α) : t i ≠ some (x,a) := fun is => by
  have fails := List.find?_eq_none.mp h i (List.mem_finRange i)
  rw [is] at fails
  exact fails (decide_eq_true rfl)

theorem findIs (distinct : t.Distinct) (h : t i = some (x,a)) : t.find x = some i := by
  cases found : t.find x with
  | none => exact absurd h (findMissing found i a)
  | some j =>
    obtain ⟨b,at_⟩ := findAt found
    rw [distinct i j x a b h at_]

theorem lookupIs (distinct : t.Distinct) (h : t i = some (x,a)) : t.lookup x = some a := by
  rw [lookup,findIs distinct h,Option.bind_some,h,Option.map_some]

theorem lookupAt (h : t.lookup x = some a) : ∃ i, t.find x = some i ∧ t i = some (x,a) := by
  obtain ⟨i,found,is⟩ := Option.bind_eq_some_iff.mp h
  obtain ⟨b,at_⟩ := findAt found
  rw [at_,Option.map_some] at is
  exact ⟨i,found,by rw [at_,← Option.some.inj is]⟩

theorem lookupMissing (h : t.find x = none) : t.lookup x = none := by rw [lookup,h,Option.bind_none]

/-- The slot to write to holds the name already, or nothing while no slot has the name. -/
theorem allocCases (h : t.findOrAlloc x = some i) : (∃ a, t i = some (x,a)) ∨ t i = none ∧ ∀ j a, t j ≠ some (x,a) := by
  rw [findOrAlloc] at h
  cases found : t.find x with
  | some j =>
    rw [found,Option.some_or] at h
    cases h
    exact .inl (findAt found)
  | none =>
    rw [found,Option.none_or] at h
    exact .inr ⟨Option.isNone_iff_eq_none.mp (@List.find?_some _ (fun i => (t i).isNone) _ _ h),findMissing found⟩

theorem Distinct.put (distinct : t.Distinct) (alloc : t.findOrAlloc x = some i) (a : α) : (t.put i x a).Distinct := by
  have alone : ∀ j b, t j = some (x,b) → j = i := fun j b is => by
    rcases allocCases alloc with ⟨c,at_⟩ | ⟨_,none_⟩
    · exact distinct j i x b c is at_
    · exact absurd is (none_ j b)
  intro j k y b c hj hk
  by_cases ji : j = i <;> by_cases ki : k = i
  · rw [ji,ki]
  · rw [ji,putSame] at hj
    rw [putOther ki] at hk
    cases hj
    exact absurd (alone k c hk) ki
  · rw [ki,putSame] at hk
    rw [putOther ji] at hj
    cases hk
    exact absurd (alone j b hj) ji
  · rw [putOther ji] at hj
    rw [putOther ki] at hk
    exact distinct j k y b c hj hk

/-- What the table says of a name and what the slots hold are one. -/
theorem lookupIff (distinct : t.Distinct) : t.lookup x = some a ↔ ∃ i, t i = some (x,a) :=
  ⟨fun h => (lookupAt h).imp fun _ is => is.2,fun ⟨_,is⟩ => lookupIs distinct is⟩

theorem lookupPut (distinct : t.Distinct) (alloc : t.findOrAlloc x = some i) (a : α) (y : ν) :
    (t.put i x a).lookup y = if y = x then some a else t.lookup y := by
  have after := distinct.put alloc a
  split
  · rename_i same
    rw [same]
    exact lookupIs after putSame
  · rename_i other
    have slot : ∀ j b, t.put i x a j = some (y,b) ↔ t j = some (y,b) := fun j b => by
      by_cases ji : j = i
      · rw [ji,putSame]
        refine iff_of_false (fun is => other (by cases is; rfl)) fun is => ?_
        rcases allocCases alloc with ⟨c,at_⟩ | ⟨free,_⟩
        · rw [at_] at is
          cases is
          exact other rfl
        · rw [free] at is
          cases is
      · rw [putOther ji]
    refine Option.ext fun b => ?_
    rw [lookupIff after,lookupIff distinct]
    exact exists_congr fun j => slot j b

theorem lookupRelease (distinct : t.Distinct) (found : t.find x = some i) (y : ν) :
    (t.release i).lookup y = if y = x then none else t.lookup y := by
  have after := distinct.release i
  obtain ⟨a,at_⟩ := findAt found
  refine Option.ext fun b => ?_
  rw [lookupIff after]
  split
  · rename_i same
    refine iff_of_false (fun ⟨j,is⟩ => ?_) nofun
    by_cases ji : j = i
    · rw [ji,releaseSame] at is
      cases is
    · rw [releaseOther ji,same] at is
      exact ji (distinct j i x b a is at_)
  · rename_i other
    rw [lookupIff distinct]
    refine exists_congr fun j => ?_
    by_cases ji : j = i
    · rw [ji,releaseSame,at_]
      exact iff_of_false nofun fun is => other (by cases is; rfl)
    · rw [releaseOther ji]

end Slots
end Napastak
