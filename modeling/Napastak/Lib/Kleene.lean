import Mathlib.Data.List.Basic

/-! Strong Kleene logic over `Option Bool`, `none` for UNKNOWN, and its two-valued
completions: an evaluator that answers with a plain Boolean and agrees with the
logic wherever the logic knows the answer. -/
namespace Napastak.Kleene

abbrev Truth := Option Bool

def not3 : Truth → Truth
  | some b => some (!b)
  | none => none

def and3 : Truth → Truth → Truth
  | some false, _ => some false
  | _, some false => some false
  | some true, some true => some true
  | _, _ => none

def or3 : Truth → Truth → Truth
  | some true, _ => some true
  | _, some true => some true
  | some false, some false => some false
  | _, _ => none

def any3 : List Truth → Truth := List.foldr or3 (some false)

/-- `k` completes `t`: it is `t` where `t` is known. -/
def Completes (k : Bool) (t : Truth) : Prop := ∀ b, t = some b → k = b

theorem completesSome (b : Bool) : Completes b (some b) := fun _ h => Option.some.inj h

theorem completesNone (k : Bool) : Completes k none := fun _ h => by contradiction

theorem completesNot {k : Bool} {t : Truth} (h : Completes k t) : Completes (!k) (not3 t) := by
  cases t with
  | none => exact completesNone _
  | some b => rw [h b rfl]; exact completesSome _

theorem completesAnd {k l : Bool} {t u : Truth} (h : Completes k t) (g : Completes l u) :
    Completes (k && l) (and3 t u) := by
  rcases t with _ | _ | _ <;> rcases u with _ | _ | _ <;> intro b hb <;> simp_all [and3,Completes]

theorem completesOr {k l : Bool} {t u : Truth} (h : Completes k t) (g : Completes l u) :
    Completes (k || l) (or3 t u) := by
  rcases t with _ | _ | _ <;> rcases u with _ | _ | _ <;> intro b hb <;> simp_all [or3,Completes]

/-- A completion takes something UNKNOWN for true. -/
def Slip (k : Bool) (t : Truth) : Prop := t = none ∧ k = true

/-- A completion is true exactly on TRUE, unless it slips. -/
theorem completesExact {k : Bool} {t : Truth} (h : Completes k t) : (k = true ↔ t = some true) ↔ ¬ Slip k t := by
  rcases t with _ | b
  · simp [Slip]
  · simp [Slip,h b rfl]

theorem slipNot {k : Bool} {t : Truth} : Slip (!k) (not3 t) ↔ t = none ∧ ¬ Slip k t := by
  cases t <;> cases k <;> simp [Slip,not3]

theorem slipAnd {k l : Bool} {t u : Truth} (h : Completes k t) (g : Completes l u) :
    Slip (k && l) (and3 t u) ↔
      (Slip k t ∨ Slip l u) ∧ (Slip k t ∨ t = some true) ∧ (Slip l u ∨ u = some true) := by
  rcases t with _ | _ | _ <;> rcases u with _ | _ | _ <;> cases k <;> cases l <;>
    simp_all [Slip,and3,Completes]

theorem slipOr {k l : Bool} {t u : Truth} (h : Completes k t) (g : Completes l u) :
    Slip (k || l) (or3 t u) ↔ or3 t u = none ∧ (Slip k t ∨ Slip l u) := by
  rcases t with _ | _ | _ <;> rcases u with _ | _ | _ <;> cases k <;> cases l <;>
    simp_all [Slip,or3,Completes]

theorem anyTrue (ts : List Truth) : any3 ts = some true ↔ some true ∈ ts := by
  induction ts with
  | nil => simp [any3]
  | cons t ts ih =>
    have step : any3 (t :: ts) = or3 t (any3 ts) := rfl
    rw [step,List.mem_cons,← ih]
    rcases t with _ | _ | _ <;> rcases any3 ts with _ | _ | _ <;> simp [or3]

theorem anyNone (ts : List Truth) : any3 ts = none ↔ some true ∉ ts ∧ none ∈ ts := by
  induction ts with
  | nil => simp [any3]
  | cons t ts ih =>
    have step : any3 (t :: ts) = or3 t (any3 ts) := rfl
    have top := anyTrue ts
    rw [step]
    simp only [List.mem_cons,not_or]
    rcases t with _ | _ | _ <;> rcases h : any3 ts with _ | _ | _ <;> simp_all [or3]

end Napastak.Kleene
