import Mathlib.Data.List.Basic
import Mathlib.Logic.Function.Basic

/-! Runs of a partial step function under a condition on the steps, and histories of
facts about many independent objects: a history replays when the facts of every object,
taken by themselves, are a run of one automaton. -/
namespace Napastak.Replay

section
variable {S E : Type} (step : S → E → Option S)

def run (s : S) : List E → Option S
  | [] => some s
  | e :: es => (step s e).bind fun s' => run s' es

/-- Every step of the run is taken where the condition holds. -/
def along (ok : S → E → Prop) (s : S) : List E → Prop
  | [] => True
  | e :: es => ok s e ∧ match step s e with
    | none => True
    | some s' => along ok s' es

theorem runAppend (s : S) (es fs : List E) : run step s (es ++ fs) = (run step s es).bind fun s' => run step s' fs := by
  induction es generalizing s with
  | nil => rfl
  | cons e es ih =>
    rw [List.cons_append,run,run,Option.bind_assoc]
    exact congrArg _ (funext fun s' => ih s')

theorem alongAlways {step : S → E → Option S} (s : S) (es : List E) : along step (fun _ _ => True) s es := by
  induction es generalizing s with
  | nil => trivial
  | cons e es ih =>
    refine ⟨trivial,?_⟩
    split
    · trivial
    · exact ih _

instance decAlong (ok : S → E → Prop) [∀ s e, Decidable (ok s e)] : ∀ (s : S) (es : List E), Decidable (along step ok s es)
  | _, [] => isTrue trivial
  | s, e :: es =>
    match h : step s e with
    | none => decidable_of_iff (ok s e) (by simp [along,h])
    | some s' =>
      let _ := decAlong ok s' es
      decidable_of_iff (ok s e ∧ along step ok s' es) (by simp [along,h])

theorem runInvariant {step : S → E → Option S} {ok : S → E → Prop} {inv : S → Prop}
    (keep : ∀ s e s', inv s → ok s e → step s e = some s' → inv s') {s s' : S} {es : List E}
    (start : inv s) (clean : along step ok s es) (reach : run step s es = some s') : inv s' := by
  induction es generalizing s with
  | nil => cases Option.some.inj reach; exact start
  | cons e es ih =>
    obtain ⟨mid,first,rest⟩ := Option.bind_eq_some_iff.mp reach
    obtain ⟨here,later⟩ := clean
    rw [first] at later
    exact ih (keep s e mid start here first) later rest

end

section
variable {K R L : Type} [DecidableEq K] (next : R → L → Option R) (start : R)

/-- The facts of one object, in order. -/
def facts (k : K) (h : List (K × L)) : List L := (h.filter fun f => decide (f.1 = k)).map Prod.snd

def replay (k : K) (h : List (K × L)) : Option R := run next start (facts k h)

theorem factsOwn (k : K) (h : List (K × L)) (l : L) : facts k (h ++ [(k,l)]) = facts k h ++ [l] := by
  simp [facts]

theorem factsOther {j k : K} (h : List (K × L)) (l : L) (ne : j ≠ k) : facts k (h ++ [(j,l)]) = facts k h := by
  simp [facts,ne]

theorem factsMem {k : K} {h : List (K × L)} {l : L} : l ∈ facts k h ↔ (k,l) ∈ h := by
  simp [facts]

theorem runSnoc {S E : Type} (step : S → E → Option S) (s : S) (es : List E) (e : E) :
    run step s (es ++ [e]) = (run step s es).bind fun s' => step s' e := by
  induction es generalizing s with
  | nil => simp [run]
  | cons x es ih => cases h : step s x <;> simp [run,h,ih]

/-- `states` is where each object stands after the history. -/
def Replays (h : List (K × L)) (states : K → R) : Prop := ∀ k, replay next start k h = some (states k)

theorem replaysNil : Replays next start [] fun _ : K => start := fun _ => rfl

/-- One more fact moves its own object and no other. -/
theorem replaysSnoc {h : List (K × L)} {states : K → R} {k : K} {l : L} {r : R}
    (rep : Replays next start h states) (move : next (states k) l = some r) :
    Replays next start (h ++ [(k,l)]) (Function.update states k r) := by
  intro j
  by_cases same : j = k
  · subst same
    have before := rep j
    unfold replay at before ⊢
    rw [factsOwn,runSnoc,before,Function.update_self]
    exact move
  · unfold replay
    rw [factsOther h l (Ne.symm same),Function.update_of_ne same]
    exact rep j

end

end Napastak.Replay
