import Mathlib.Data.List.Basic

/-! Longest runs: what a scanner takes from a text, and that one element after the run decides it. -/
namespace Napastak.Munch
variable {σ α : Type}

section
variable (δ : σ → α → Option σ)

/-- Takes elements while the state allows. -/
def munch : σ → List α → List α × List α × σ
  | s, [] => ([],[],s)
  | s, c :: cs => match δ s c with
    | none => ([],c :: cs,s)
    | some t => let (x,r,u) := munch t cs; (c :: x,r,u)

/-- The state after a text all of which is taken. -/
def path : σ → List α → Option σ
  | s, [] => some s
  | s, c :: cs => (δ s c).bind fun t => path t cs

end

variable {δ : σ → α → Option σ}

theorem munchSound {s t : σ} {cs x r : List α} (h : munch δ s cs = (x,r,t)) :
    cs = x ++ r ∧ path δ s x = some t ∧ ∀ y, r.head? = some y → δ t y = none := by
  induction cs generalizing s x with
  | nil =>
    cases h
    exact ⟨rfl,rfl,fun y hy => nomatch hy⟩
  | cons c cs ih =>
    rw [munch] at h
    cases step : δ s c with
    | none =>
      rw [step] at h
      cases h
      exact ⟨rfl,rfl,fun y hy => by cases hy; exact step⟩
    | some u =>
      rw [step] at h
      cases h
      obtain ⟨split,taken,stop⟩ := ih (s := u) rfl
      exact ⟨congrArg (c :: ·) split,by rw [path,step]; exact taken,stop⟩

theorem munchComplete {s t : σ} {x r : List α} (taken : path δ s x = some t)
    (stop : ∀ y, r.head? = some y → δ t y = none) : munch δ s (x ++ r) = (x,r,t) := by
  induction x generalizing s with
  | nil =>
    cases taken
    cases r with
    | nil => rfl
    | cons y r => rw [List.nil_append,munch,stop y rfl]
  | cons c x ih =>
    rw [path] at taken
    cases step : δ s c with
    | none => rw [step] at taken; cases taken
    | some u =>
      rw [step] at taken
      rw [List.cons_append,munch,step]
      simp only [ih taken]

theorem pathAppend (s : σ) (x y : List α) : path δ s (x ++ y) = (path δ s x).bind fun t => path δ t y := by
  induction x generalizing s with
  | nil => rfl
  | cons c x ih =>
    rw [List.cons_append,path,path]
    cases δ s c with
    | none => rfl
    | some t => exact ih t

theorem pathStays {s : σ} {x : List α} (stays : ∀ c ∈ x, δ s c = some s) : path δ s x = some s := by
  induction x with
  | nil => rfl
  | cons c x ih =>
    rw [path,stays c List.mem_cons_self]
    exact ih fun d mem => stays d (List.mem_cons_of_mem _ mem)

/-- A run of one class of elements, and the element it stops at. -/
theorem takeStop {p : α → Bool} {x r : List α} (inside : ∀ c ∈ x, p c = true)
    (stop : ∀ y, r.head? = some y → p y = false) : (x ++ r).takeWhile p = x ∧ (x ++ r).dropWhile p = r := by
  induction x with
  | nil =>
    cases r with
    | nil => exact ⟨rfl,rfl⟩
    | cons y r => simp [stop y rfl]
  | cons c x ih =>
    have here := inside c (List.mem_cons_self ..)
    obtain ⟨taken,left⟩ := ih fun d hd => inside d (List.mem_cons_of_mem _ hd)
    exact ⟨by rw [List.cons_append,List.takeWhile_cons,here,if_pos rfl,taken],
      by rw [List.cons_append,List.dropWhile_cons,here,if_pos rfl,left]⟩

theorem dropStop {p : α → Bool} {s : List α} {y : α} (h : (s.dropWhile p).head? = some y) : p y = false := by
  induction s with
  | nil => cases h
  | cons c s ih =>
    rw [List.dropWhile_cons] at h
    split at h
    · exact ih h
    · rename_i stop
      cases h
      exact Bool.eq_false_iff.mpr stop

/-! ### Scanning round by round -/

section
variable {α β : Type} (step : List α → β × List α)

def rounds : Nat → List α → List β
  | 0, _ => []
  | _ + 1, [] => []
  | n + 1, c :: s => (step (c :: s)).1 :: rounds n (step (c :: s)).2

/-- What the rounds over a text give, one after another. -/
def scan (s : List α) : List β := rounds step s.length s

variable {step} (shorter : ∀ c s, (step (c :: s)).2.length < (c :: s).length)
include shorter

theorem roundsEnough {n : Nat} {s : List α} (enough : s.length ≤ n) : rounds step n s = scan step s := by
  suffices all : ∀ m n (s : List α), s.length ≤ m → s.length ≤ n → rounds step n s = rounds step m s from
    all s.length n s (Nat.le_refl _) enough
  intro m
  induction m with
  | zero =>
    intro n s short _
    rw [List.eq_nil_of_length_eq_zero (Nat.le_zero.mp short)]
    cases n <;> rfl
  | succ m ih =>
    intro n s short enough
    cases s with
    | nil => cases n <;> rfl
    | cons c s =>
      have less := shorter c s
      cases n with
      | zero => cases enough
      | succ n => rw [rounds,rounds,ih n _ (by omega) (by omega)]

theorem scanStep (c : α) (s : List α) : scan step (c :: s) = (step (c :: s)).1 :: scan step (step (c :: s)).2 := by
  have less := shorter c s
  rw [List.length_cons] at less
  rw [scan,List.length_cons,rounds,roundsEnough shorter (by omega)]

omit shorter in
/-- Rounds that give a part of the text, and what is behind it, go through the whole text. -/
theorem sourceShorter {source : β → List α}
    (sourced : ∀ c s, source (step (c :: s)).1 ++ (step (c :: s)).2 = c :: s ∧ source (step (c :: s)).1 ≠ []) (c : α) (s : List α) :
    (step (c :: s)).2.length < (c :: s).length := by
  obtain ⟨is,some_⟩ := sourced c s
  have := congrArg List.length is
  have := List.length_pos_iff.mpr some_
  rw [List.length_append] at *
  omega

omit shorter in
theorem scanSource {source : β → List α}
    (sourced : ∀ c s, source (step (c :: s)).1 ++ (step (c :: s)).2 = c :: s ∧ source (step (c :: s)).1 ≠ []) (s : List α) :
    (scan step s).flatMap source = s := by
  induction h : s.length using Nat.strongRecOn generalizing s with
  | _ n ih =>
    cases s with
    | nil => rfl
    | cons c s =>
      rw [scanStep (sourceShorter sourced),List.flatMap_cons,ih _ (by rw [← h]; exact sourceShorter sourced c s) _ rfl]
      exact (sourced c s).1

end

end Napastak.Munch
