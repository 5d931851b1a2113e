import Mathlib.Data.List.Basic

/-! Readers that call for the next item until there is none, or until one that ends the loop. -/
namespace Napastak.Pull

variable {σ β : Type} (next : σ → Option (Option β × σ)) (ends : β → Bool)

/-- What is read where a call gives `item` and the later ones give `later`. -/
def before (item : Option β) (later : Option (List β)) : Option (List β) :=
  match item with
  | none => some []
  | some b => if ends b then some [] else later.map (b :: ·)

/-- What is read; `none` where the rounds run out or a call goes wrong. -/
def run : Nat → σ → Option (List β)
  | 0, _ => none
  | n + 1, s => (next s).bind fun r => before ends r.1 (run n r.2)

/-- In some number of rounds the items are read. -/
def Gives (s : σ) (bs : List β) : Prop := ∃ n, run next ends n s = some bs

variable {next ends} {Inv : σ → Prop} {rem : σ → Option (List β)}

/-- Where `rem` takes a step with each call, it is what is read; `none` is a reader that never comes to an end. -/
theorem givesIff (keeps : ∀ s item s', Inv s → next s = some (item,s') → Inv s')
    (steps : ∀ s, Inv s → rem s = (next s).bind fun r => before ends r.1 (rem r.2)) {s : σ} (holds : Inv s) (bs : List β) :
    Gives next ends s bs ↔ rem s = some bs := by
  constructor
  · rintro ⟨n,ran⟩
    induction n generalizing s bs with
    | zero => cases ran
    | succ n ih =>
      rw [steps s holds]
      rw [run] at ran
      obtain ⟨⟨item,s'⟩,call,ran⟩ := Option.bind_eq_some_iff.mp ran
      rw [call,Option.bind_some]
      cases item with
      | none => exact ran
      | some b =>
        rw [before] at ran ⊢
        split at ran
        · rename_i last
          rw [if_pos last]
          exact ran
        · rename_i more
          obtain ⟨rest,later,rfl⟩ := Option.map_eq_some_iff.mp ran
          rw [if_neg more,ih (keeps s _ s' holds call) rest later,Option.map_some]
  · intro is
    induction bs generalizing s with
    | nil =>
      refine ⟨1,?_⟩
      rw [steps s holds] at is
      obtain ⟨⟨item,s'⟩,call,is⟩ := Option.bind_eq_some_iff.mp is
      rw [run,call,Option.bind_some]
      cases item with
      | none => rfl
      | some b =>
        rw [before] at is ⊢
        split at is
        · rename_i last
          rw [if_pos last]
        · obtain ⟨_,_,no⟩ := Option.map_eq_some_iff.mp is
          cases no
    | cons b bs ih =>
      rw [steps s holds] at is
      obtain ⟨⟨item,s'⟩,call,is⟩ := Option.bind_eq_some_iff.mp is
      cases item with
      | none => cases is
      | some b' =>
        rw [before] at is
        split at is
        · cases is
        · rename_i more
          obtain ⟨rest,is,same⟩ := Option.map_eq_some_iff.mp is
          cases same
          obtain ⟨n,ran⟩ := ih (keeps s _ s' holds call) is
          refine ⟨n + 1,?_⟩
          rw [run,call,Option.bind_some,before,if_neg more,ran,Option.map_some]

end Napastak.Pull
