import Mathlib.Data.List.TakeDrop

/-! Rows fed one after the other to something that may have had enough, and lists cut into pages. -/
namespace Napastak.Feed

variable {σ α : Type}

/-- Feeding stops where `done` says so. -/
def feed (done : σ → Bool) (collect : σ → α → σ) (s : σ) (xs : List α) : σ :=
  xs.foldl (fun s x => if done s then s else collect s x) s

theorem feedDone {done : σ → Bool} {collect : σ → α → σ} {s : σ} (h : done s) (xs : List α) :
    feed done collect s xs = s := by
  induction xs with
  | nil => rfl
  | cons x xs ih => rw [feed,List.foldl_cons,if_pos h]; exact ih

theorem feedAppend (done : σ → Bool) (collect : σ → α → σ) (s : σ) (xs ys : List α) :
    feed done collect s (xs ++ ys) = feed done collect (feed done collect s xs) ys := List.foldl_append

/-- A step that can fail, taken until `done`, on items that never fail. -/
theorem feedFold {ρ : Type} {done : σ → Bool} {collect : σ → α → σ} {f : σ → ρ → Option σ} {g : ρ → List α} {rs : List ρ}
    (each : ∀ r ∈ rs, ∀ s, done s = false → f s r = some (feed done collect s (g r))) (s : σ) :
    rs.foldlM (fun s r => if done s then some s else f s r) s = some (feed done collect s (rs.flatMap g)) := by
  induction rs generalizing s with
  | nil => rfl
  | cons r rs ih =>
    have ih := ih fun q hq => each q (List.mem_cons_of_mem _ hq)
    rw [List.foldlM_cons,List.flatMap_cons,feedAppend]
    cases hd : done s with
    | true =>
      rw [if_pos rfl,feedDone hd]
      exact ih s
    | false =>
      rw [if_neg (by simp),each r List.mem_cons_self s hd]
      exact ih _

/-- Page `k` of `n` items. -/
def page (n k : Nat) (xs : List α) : List α := (xs.drop (k * n)).take n

/-- The first pages put together are the first items. -/
theorem pagesTake (n m : Nat) (xs : List α) : (List.range m).flatMap (page n · xs) = xs.take (m * n) := by
  induction m with
  | zero => simp
  | succ m ih =>
    rw [List.range_succ,List.flatMap_append,ih,List.flatMap_singleton,page,Nat.succ_mul,List.take_add]

end Napastak.Feed
