import Mathlib.Data.Fintype.Card
import Mathlib.Data.Fintype.EquivFin
import Mathlib.Order.WellFounded
import Mathlib.Logic.Relation
import Mathlib.Order.Bounds.Basic
import Mathlib.Data.Finset.Basic

/-! Orders that take the least item whose dependencies were taken before, and what it means that none is left to take. -/
namespace Napastak.Kahn
open Relation

variable {α : Type} [LinearOrder α]

/-- The items that can follow those taken so far. -/
def Ready (all : Finset α) (dep : α → α → Prop) (pre : List α) (i : α) : Prop := i ∈ all ∧ i ∉ pre ∧ ∀ j, dep i j → j ∈ pre

/-- Every item taken is the least one that was ready. -/
inductive Greedy (all : Finset α) (dep : α → α → Prop) : List α → Prop
  | nil : Greedy all dep []
  | snoc {pre : List α} {i : α} : Greedy all dep pre → IsLeast {i | Ready all dep pre i} i → Greedy all dep (pre ++ [i])

variable {all : Finset α} {dep : α → α → Prop} {order : List α}

theorem Greedy.inside (h : Greedy all dep order) : ∀ i ∈ order, i ∈ all := by
  induction h with
  | nil => exact nofun
  | @snoc pre i _ least ih =>
    intro j mem
    rcases List.mem_append.mp mem with mem | mem
    · exact ih j mem
    · rw [List.mem_singleton.mp mem]
      exact least.1.1

theorem Greedy.nodup (h : Greedy all dep order) : order.Nodup := by
  induction h with
  | nil => exact List.nodup_nil
  | snoc _ least ih => exact List.nodup_append'.mpr ⟨ih,List.nodup_singleton _,fun _ mem one => least.1.2.1 (List.mem_singleton.mp one ▸ mem)⟩

/-- At every place stands the least item ready there. -/
theorem Greedy.least (h : Greedy all dep order) : ∀ pre i post, order = pre ++ i :: post → IsLeast {i | Ready all dep pre i} i := by
  induction h with
  | nil => intro pre i post is; cases pre <;> cases is
  | @snoc pre' i' _ least ih =>
    intro pre i post is
    rcases List.eq_nil_or_concat post with rfl | ⟨post,last,rfl⟩
    · obtain ⟨rfl,same⟩ := List.append_inj' is rfl
      cases same
      exact least
    · rw [List.concat_eq_append,← List.cons_append,← List.append_assoc] at is
      exact ih pre i post (List.append_inj' is rfl).1

/-- An item stands behind everything that it needs, however far. -/
theorem Greedy.behind (h : Greedy all dep order) {i j : α} (path : TransGen dep i j) :
    ∀ pre post, order = pre ++ i :: post → j ∈ pre := by
  induction path using TransGen.head_induction_on with
  | single step => exact fun pre post is => (h.least pre _ post is).1.2.2 _ step
  | head step _ ih =>
    intro pre post is
    obtain ⟨before,after,split⟩ := List.append_of_mem ((h.least pre _ post is).1.2.2 _ step)
    have mem := ih before (after ++ _ :: post) (by rw [is,split,List.append_assoc,List.cons_append])
    rw [split]
    exact List.mem_append_left _ mem

/-- Where everything could be taken nothing needs itself. -/
theorem Greedy.acyclic (h : Greedy all dep order) (full : ∀ i ∈ all, i ∈ order) (within : ∀ i j, dep i j → i ∈ all) (i : α) :
    ¬ TransGen dep i i := by
  intro loop
  have mem : i ∈ all := by
    obtain ⟨j,step,_⟩ := TransGen.head'_iff.mp loop
    exact within i j step
  obtain ⟨pre,post,split⟩ := List.append_of_mem (full i mem)
  have nodup := h.nodup
  rw [split,List.nodup_append'] at nodup
  exact nodup.2.2 (h.behind loop pre post split) List.mem_cons_self

/-- Where something is left and nothing is ready, something needs itself. -/
theorem stuck {pre : List α} (none_ : ∀ i, ¬ Ready all dep pre i) (left : ∃ i ∈ all, i ∉ pre) (within : ∀ i j, dep i j → j ∈ all) :
    ∃ i, TransGen dep i i := by
  by_contra loops
  let Rest := {i // i ∈ all ∧ i ∉ pre}
  let ahead (a b : Rest) : Prop := TransGen dep b.1 a.1
  have finite : Finite Rest := Finite.of_injective (fun r : Rest => (⟨r.1,r.2.1⟩ : all)) fun a b same =>
    Subtype.ext (congrArg (fun r : all => r.1) same)
  have trans : IsTrans Rest ahead := ⟨fun _ _ _ ab bc => bc.trans ab⟩
  have irrefl : Std.Irrefl ahead := ⟨fun a loop => loops ⟨a.1,loop⟩⟩
  obtain ⟨i,mem,apart⟩ := left
  obtain ⟨⟨m,inside,out⟩,_,least⟩ := (Finite.wellFounded_of_trans_of_irrefl ahead).has_min Set.univ ⟨⟨i,mem,apart⟩,trivial⟩
  refine none_ m ⟨inside,out,fun j step => ?_⟩
  by_contra missing
  exact least ⟨j,within m j step,missing⟩ trivial (TransGen.single step)

end Napastak.Kahn
