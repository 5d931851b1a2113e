import Mathlib.Order.Lattice

/-! Functions that take fuel: what they come to from some amount of it on, and two of them that agree but where one of them stops for a
reason of its own. -/
namespace Napastak.Fuel

variable {ε α β : Type}

/-- The result with enough fuel. -/
def Runs (f : Nat → α) (r : α) : Prop := ∃ n, ∀ m, n ≤ m → f m = r

theorem runsConst (r : α) : Runs (fun _ => r) r := ⟨0,fun _ _ => rfl⟩

theorem runsUnique {f : Nat → α} {r s : α} (first : Runs f r) (second : Runs f s) : r = s := by
  obtain ⟨n,is⟩ := first
  obtain ⟨m,is'⟩ := second
  exact (is _ (le_max_left n m)).symm.trans (is' _ (le_max_right n m))

theorem runsSucc {f : Nat → α} {r : α} (later : Runs (fun n => f (n + 1)) r) : Runs f r := by
  obtain ⟨n,is⟩ := later
  refine ⟨n + 1,fun m least => ?_⟩
  obtain ⟨m,rfl⟩ := Nat.exists_eq_add_of_le' (Nat.le_of_add_left_le least)
  exact is m (Nat.le_of_add_le_add_right least)

theorem runsBind {f : Nat → Except ε α} {g : Nat → α → Except ε β} {a : α} {r : Except ε β} (first : Runs f (.ok a))
    (next : Runs (fun n => g n a) r) : Runs (fun n => f n >>= g n) r := by
  obtain ⟨n,is⟩ := first
  obtain ⟨m,is'⟩ := next
  refine ⟨max n m,fun k least => ?_⟩
  dsimp only
  rw [is k (le_trans (le_max_left ..) least)]
  exact is' k (le_trans (le_max_right ..) least)

theorem runsStop {f : Nat → Except ε α} {e : ε} (first : Runs f (.error e)) (g : Nat → α → Except ε β) :
    Runs (fun n => f n >>= g n) (.error e) := by
  obtain ⟨n,is⟩ := first
  refine ⟨n,fun k least => ?_⟩
  dsimp only
  rw [is k least]
  rfl

/-- A run that does not stop for want of fuel, and what holds of its value. -/
def Ends (out : ε) (P : α → Prop) (f : Nat → Except ε α) : Prop := ∃ r, Runs f r ∧ r ≠ .error out ∧ ∀ a, r = .ok a → P a

section
variable {out : ε} {P : α → Prop} {Q : β → Prop}

theorem endsOk {a : α} (holds : P a) : Ends out P (fun _ => .ok a) :=
  ⟨.ok a,runsConst _,by simp,fun b same => Except.ok.inj same ▸ holds⟩

theorem endsError {e : ε} (other : e ≠ out) : Ends out P (fun _ => .error e) :=
  ⟨.error e,runsConst _,fun same => other (Except.error.inj same),fun a same => by cases same⟩

theorem endsSucc {f : Nat → Except ε α} (later : Ends out P (fun n => f (n + 1))) : Ends out P f := by
  obtain ⟨r,runs,rest⟩ := later
  exact ⟨r,runsSucc runs,rest⟩

theorem endsMono {R : α → Prop} {f : Nat → Except ε α} (ends : Ends out P f) (weaker : ∀ a, P a → R a) : Ends out R f := by
  obtain ⟨r,runs,other,holds⟩ := ends
  exact ⟨r,runs,other,fun a same => weaker a (holds a same)⟩

theorem endsBind {f : Nat → Except ε α} {g : Nat → α → Except ε β} (first : Ends out P f) (next : ∀ a, P a → Ends out Q (fun n => g n a)) :
    Ends out Q (fun n => f n >>= g n) := by
  obtain ⟨r,runs,other,holds⟩ := first
  cases r with
  | error e => exact ⟨.error e,runsStop runs g,fun same => other (congrArg _ (Except.error.inj same)),fun a same => by cases same⟩
  | ok a =>
    obtain ⟨s,runs',rest⟩ := next a (holds a rfl)
    exact ⟨s,runsBind runs runs',rest⟩

end

/-- The second is the first where that does not stop for this reason. -/
def Agrees (stop : ε) (x y : Except ε α) : Prop := x ≠ .error stop → y = x

section
variable {stop : ε}

theorem agreesSelf (x : Except ε α) : Agrees stop x x := fun _ => rfl

theorem agreesBind {x y : Except ε α} {f g : α → Except ε β} (first : Agrees stop x y) (next : ∀ a, Agrees stop (f a) (g a)) :
    Agrees stop (x >>= f) (y >>= g) := by
  intro other
  cases x with
  | error e =>
    rw [first fun same => other (by rw [same]; rfl)]
    rfl
  | ok a =>
    rw [first (by simp)]
    exact next a other

theorem runsAgree {f g : Nat → Except ε α} (agree : ∀ n, Agrees stop (f n) (g n)) {r : Except ε α} (runs : Runs f r) (other : r ≠ .error stop) :
    Runs g r := by
  obtain ⟨n,is⟩ := runs
  refine ⟨n,fun m least => ?_⟩
  rw [agree m (by rw [is m least]; exact other),is m least]

end

end Napastak.Fuel
