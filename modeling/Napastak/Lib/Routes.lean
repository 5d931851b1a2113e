import Mathlib.Data.List.Basic

/-! Route tables: a pattern is a list of segments, each one fixed or open to any value, and a table gives the first
entry that a path fits. -/
namespace Napastak.Routes

variable {σ : Type} [DecidableEq σ]

inductive Seg (σ : Type)
  | lit (s : σ)
  | param (name : σ)
  deriving DecidableEq, Repr

/-- What the open segments take, by name. -/
def fits : List (Seg σ) → List σ → Option (List (σ × σ))
  | [],[] => some []
  | .lit s :: p,v :: vs => if s = v then fits p vs else none
  | .param n :: p,v :: vs => (fits p vs).map ((n,v) :: ·)
  | _,_ => none

/-- Whether one path may fit both. -/
def overlap : List (Seg σ) → List (Seg σ) → Bool
  | [],[] => true
  | .lit s :: p,.lit t :: q => decide (s = t) && overlap p q
  | _ :: p,_ :: q => overlap p q
  | _,_ => false

theorem overlaps {p q : List (Seg σ)} {vs : List σ} (left : (fits p vs).isSome) (right : (fits q vs).isSome) :
    overlap p q = true := by
  induction vs generalizing p q with
  | nil =>
    cases p with
    | cons a p => cases a <;> cases left
    | nil => cases q with
      | cons b q => cases b <;> cases right
      | nil => rfl
  | cons v vs ih =>
    cases p with
    | nil => cases left
    | cons a p => cases q with
      | nil => cases right
      | cons b q =>
        have rest (a : Seg σ) (p : List (Seg σ)) (here : (fits (a :: p) (v :: vs)).isSome) : (fits p vs).isSome := by
          cases a with
          | lit s =>
            rw [fits] at here
            split at here
            · exact here
            · cases here
          | param n => rwa [fits,Option.isSome_map] at here
        have later := ih (rest a p left) (rest b q right)
        cases a with
        | param n => cases b <;> exact later
        | lit s => cases b with
          | param n => exact later
          | lit t =>
            have first (s : σ) (p : List (Seg σ)) (here : (fits (.lit s :: p) (v :: vs)).isSome) : s = v := by
              rw [fits] at here
              split at here
              · assumption
              · cases here
            rw [overlap,later,first s p left,first t q right,decide_eq_true rfl,Bool.and_self]

/-- The first of what never stands twice is all there is. -/
theorem findApart {ρ β : Type} {f : ρ → Option β} {table : List ρ}
    (apart : table.Pairwise fun r s => (f r).isSome → (f s).isSome → False) (b : β) :
    table.findSome? f = some b ↔ ∃ r ∈ table, f r = some b := by
  induction apart with
  | nil => simp
  | @cons r table alone apart ih =>
    rw [List.findSome?_cons]
    cases here : f r with
    | none => simp [ih,here]
    | some c =>
      constructor
      · intro is
        exact ⟨r,List.mem_cons_self,here.trans is⟩
      · rintro ⟨s,mem,is⟩
        rcases List.mem_cons.mp mem with rfl | mem
        · exact here.symm.trans is
        · exact (alone s mem (here ▸ rfl) (is ▸ rfl)).elim

end Napastak.Routes
