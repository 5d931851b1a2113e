import Napastak.ConnPool
import Napastak.Lib.Replay
import Mathlib.Data.Finset.Card

/-! Runs of the pool: who has a slot, what its session is, and how many sessions a connection has. -/
namespace Napastak.ConnPool
open Replay

/-- The slot a call works in, with the number of the session or opening. -/
def Call.owns : Call → Option (Fin maxSlots × Nat)
  | .loading k n _ | .naming k n _ _ | .verifying k n _ | .opened k n | .openFailed k n _ | .holding k n | .pinging _ k n => some (k,n)
  | _ => none

/-- The session stands in the slot. -/
def Call.hasSession : Call → Bool
  | .naming _ _ _ loaded => loaded
  | .verifying _ _ _ | .opened _ _ | .holding _ _ | .pinging _ _ _ => true
  | _ => false

def Call.isLoading : Call → Bool
  | .loading _ _ _ => true
  | _ => false

/-- The number belongs to the slot. -/
def World.At (w : World) (k : Fin maxSlots) (n : Nat) : Prop :=
  (w.slots k).inst = some n ∨ ∃ c, (w.calls c).owns = some (k,n)

/-- Leased slots are those of the calls at work, one each; every number has one slot. -/
structure Inv (w : World) : Prop where
  busy : ∀ c k n, (w.calls c).owns = some (k,n) → (w.slots k).used = true ∧ (w.slots k).leased = true ∧
    (w.slots k).inst = if (w.calls c).hasSession then some n else none
  alone : ∀ c c' k n n', (w.calls c).owns = some (k,n) → (w.calls c').owns = some (k,n') → c = c'
  owned : ∀ k, (w.slots k).leased = true → ∃ c n, (w.calls c).owns = some (k,n)
  unused : ∀ k, (w.slots k).used = false → (w.slots k).inst = none
  origin : ∀ k n, w.At k n → ∃ id, w.begun[n]? = some id ∧ (w.slots k).connId = id.take 63
  distinct : ∀ k k' n, w.At k n → w.At k' n → k = k'
  alive : ∀ n, n ∈ w.alive ↔ (∃ k, (w.slots k).inst = some n) ∨ ∃ c k, (w.calls c).owns = some (k,n) ∧ (w.calls c).isLoading = true

theorem createInv (maxPerConn idlePingSec : Int) : Inv (create maxPerConn idlePingSec) where
  busy := fun _ _ _ owns => (nomatch owns)
  alone := fun _ _ _ _ _ owns => (nomatch owns)
  owned := fun _ leased => (nomatch leased)
  unused := fun _ _ => rfl
  origin := fun _ _ at_ => by rcases at_ with inst | ⟨_,owns⟩ <;> contradiction
  distinct := fun _ _ _ at_ => by rcases at_ with inst | ⟨_,owns⟩ <;> contradiction
  alive := fun n => iff_of_false (Finset.notMem_empty n) (by rintro (⟨_,inst⟩ | ⟨_,_,owns,_⟩) <;> contradiction)

/-! ### One slot and one call at a time -/

/-- A call and a slot change. -/
def World.put (w : World) (k : Fin maxSlots) (s : PoolSlot) (c : Nat) (x : Call) (begun : List Bytes) (alive : Finset Nat) : World :=
  {w with slots := Function.update w.slots k s, calls := Function.update w.calls c x, begun := begun, alive := alive}

section
variable {w w' : World} {k k' : Fin maxSlots} {s : PoolSlot} {c c' : Nat} {x : Call} {b : List Bytes} {a : Finset Nat} {n m : Nat}

theorem setSlotHere : (w.setSlot k s).slots k = s := Function.update_self ..

theorem setSlotOther (other : k' ≠ k) : (w.setSlot k s).slots k' = w.slots k' := Function.update_of_ne other ..

theorem putSlot : (w.put k s c x b a).slots k = s := Function.update_self ..

theorem putSlotOther (other : k' ≠ k) : (w.put k s c x b a).slots k' = w.slots k' := Function.update_of_ne other ..

theorem putCall : (w.put k s c x b a).calls c = x := Function.update_self ..

theorem putCallOther (other : c' ≠ c) : (w.put k s c x b a).calls c' = w.calls c' := Function.update_of_ne other ..

/-- Nothing the invariant speaks of has changed. -/
theorem Inv.same (i : Inv w) (begun : w'.begun = w.begun) (alive : w'.alive = w.alive)
    (slots : ∀ k, (w'.slots k).used = (w.slots k).used ∧ (w'.slots k).leased = (w.slots k).leased ∧
      (w'.slots k).inst = (w.slots k).inst ∧ (w'.slots k).connId = (w.slots k).connId)
    (calls : ∀ c, (w'.calls c).owns = (w.calls c).owns ∧ (w'.calls c).hasSession = (w.calls c).hasSession ∧
      (w'.calls c).isLoading = (w.calls c).isLoading) : Inv w' := by
  have at_ : ∀ k n, w'.At k n ↔ w.At k n := fun k n => by simp only [World.At,(slots k).2.2.1,(calls _).1]
  refine ⟨fun c k n owns => ?_,fun c c' k n n' owns owns' => ?_,fun k leased => ?_,fun k unused => ?_,fun k n at' => ?_,
    fun k k' n at' at'' => ?_,fun n => ?_⟩
  · rw [(slots k).1,(slots k).2.1,(slots k).2.2.1,(calls c).2.1]
    exact i.busy c k n ((calls c).1 ▸ owns)
  · exact i.alone c c' k n n' ((calls c).1 ▸ owns) ((calls c').1 ▸ owns')
  · simp only [(calls _).1]
    exact i.owned k ((slots k).2.1 ▸ leased)
  · rw [(slots k).2.2.1]
    exact i.unused k ((slots k).1 ▸ unused)
  · rw [begun,(slots k).2.2.2]
    exact i.origin k n ((at_ k n).mp at')
  · exact i.distinct k k' n ((at_ k n).mp at') ((at_ k' n).mp at'')
  · rw [alive,i.alive n]
    simp only [(slots _).2.2.1,(calls _).1,(calls _).2.2]

theorem Inv.unowned (i : Inv w) (unleased : (w.slots k).leased = false) : (w.calls c).owns ≠ some (k,n) := fun owns => by
  have leased := (i.busy c k n owns).2.1
  rw [unleased] at leased
  cases leased

/-- The session of a slot that nobody has is unloaded. -/
theorem Inv.drop (i : Inv w) (unleased : (w.slots k).leased = false) (inst : s.inst = none) (still : s.leased = false) :
    Inv ((w.unload (w.slots k).inst).setSlot k s) := by
  have begun : ((w.unload (w.slots k).inst).setSlot k s).begun = w.begun := by cases (w.slots k).inst <;> rfl
  have calls : ((w.unload (w.slots k).inst).setSlot k s).calls = w.calls := by cases (w.slots k).inst <;> rfl
  have slot : ((w.unload (w.slots k).inst).setSlot k s).slots k = s := by cases (w.slots k).inst <;> exact Function.update_self ..
  have slotOther : ∀ k', k' ≠ k → ((w.unload (w.slots k).inst).setSlot k s).slots k' = w.slots k' := fun k' other => by
    cases (w.slots k).inst <;> exact Function.update_of_ne other ..
  have at_ : ∀ k' n, ((w.unload (w.slots k).inst).setSlot k s).At k' n → k' ≠ k ∧ w.At k' n := fun k' n at' => by
    by_cases same : k' = k
    · rcases at' with inst' | ⟨c,owns⟩
      · rw [same,slot,inst] at inst'
        cases inst'
      · rw [calls,same] at owns
        exact absurd owns (i.unowned unleased)
    · rw [World.At,slotOther k' same,calls] at at'
      exact ⟨same,at'⟩
  refine ⟨fun c k' n owns => ?_,fun c c' k' n n' owns owns' => ?_,fun k' leased => ?_,fun k' unused => ?_,fun k' n at' => ?_,
    fun k' k'' n at' at'' => ?_,fun n => ?_⟩
  · have other := (at_ k' n (.inr ⟨c,owns⟩)).1
    rw [slotOther k' other,calls]
    exact i.busy c k' n (calls ▸ owns)
  · exact i.alone c c' k' n n' (calls ▸ owns) (calls ▸ owns')
  · by_cases same : k' = k
    · rw [same,slot,still] at leased
      cases leased
    · rw [slotOther k' same] at leased
      rw [calls]
      exact i.owned k' leased
  · by_cases same : k' = k
    · rw [same,slot,inst]
    · rw [slotOther k' same] at unused ⊢
      exact i.unused k' unused
  · obtain ⟨other,old⟩ := at_ k' n at'
    rw [begun,slotOther k' other]
    exact i.origin k' n old
  · exact i.distinct k' k'' n (at_ k' n at').2 (at_ k'' n at'').2
  · have alive : n ∈ ((w.unload (w.slots k).inst).setSlot k s).alive ↔ (w.slots k).inst ≠ some n ∧ n ∈ w.alive := by
      cases is : (w.slots k).inst with
      | none => simp [World.unload,World.setSlot]
      | some m => simp [World.unload,World.setSlot,eq_comm]
    rw [alive,i.alive n,calls]
    constructor
    · rintro ⟨apart,⟨k',inst'⟩ | loading⟩
      · exact .inl ⟨k',by rw [slotOther k' fun e => apart (e ▸ inst'),inst']⟩
      · exact .inr loading
    · rintro (⟨k',inst'⟩ | ⟨c,k',owns,loading⟩)
      · obtain ⟨other,old⟩ := at_ k' n (.inl inst')
        rw [slotOther k' other] at inst'
        exact ⟨fun is => other (i.distinct k' k n old (.inl is)),.inl ⟨k',inst'⟩⟩
      · refine ⟨fun is => ?_,.inr ⟨c,k',owns,loading⟩⟩
        have same := i.distinct k' k n (.inr ⟨c,owns⟩) (.inl is)
        exact i.unowned unleased (same ▸ owns)

/-- The call gives its slot back. -/
theorem Inv.leave (i : Inv w) (owns : (w.calls c).owns = some (k,n)) (loaded : (w.calls c).isLoading = false)
    (gone : x.owns = none) (unleased : s.leased = false) (used : s.used = true) (inst : s.inst = (w.slots k).inst)
    (connId : s.connId = (w.slots k).connId) : Inv (w.put k s c x w.begun w.alive) := by
  have call : ∀ c' k' m, ((w.put k s c x w.begun w.alive).calls c').owns = some (k',m) →
      c' ≠ c ∧ k' ≠ k ∧ (w.calls c').owns = some (k',m) := fun c' k' m owns' => by
    by_cases same : c' = c
    · rw [same,putCall,gone] at owns'
      cases owns'
    · rw [putCallOther same] at owns'
      exact ⟨same,fun e => same (i.alone c' c k m n (e ▸ owns') owns),owns'⟩
  have insts : ∀ k', ((w.put k s c x w.begun w.alive).slots k').inst = (w.slots k').inst := fun k' => by
    by_cases same : k' = k
    · rw [same,putSlot,inst]
    · rw [putSlotOther same]
  have at_ : ∀ k' m, (w.put k s c x w.begun w.alive).At k' m → w.At k' m := fun k' m at' => by
    rcases at' with inst' | ⟨c',owns'⟩
    · exact .inl (insts k' ▸ inst')
    · exact .inr ⟨c',(call c' k' m owns').2.2⟩
  refine ⟨fun c' k' m owns' => ?_,fun c' c'' k' m m' owns' owns'' => ?_,fun k' leased => ?_,fun k' unused => ?_,fun k' m at' => ?_,
    fun k' k'' m at' at'' => i.distinct k' k'' m (at_ k' m at') (at_ k'' m at''),fun m => ?_⟩
  · obtain ⟨otherCall,otherSlot,old⟩ := call c' k' m owns'
    rw [putSlotOther otherSlot,putCallOther otherCall]
    exact i.busy c' k' m old
  · exact i.alone c' c'' k' m m' (call c' k' m owns').2.2 (call c'' k' m' owns'').2.2
  · by_cases same : k' = k
    · rw [same,putSlot,unleased] at leased
      cases leased
    · rw [putSlotOther same] at leased
      obtain ⟨c',m,owns'⟩ := i.owned k' leased
      have other : c' ≠ c := fun e => same (congrArg Prod.fst (Option.some.inj (owns'.symm.trans (e ▸ owns))))
      exact ⟨c',m,by rw [putCallOther other,owns']⟩
  · by_cases same : k' = k
    · rw [same,putSlot,used] at unused
      cases unused
    · rw [putSlotOther same] at unused ⊢
      exact i.unused k' unused
  · have ids : ((w.put k s c x w.begun w.alive).slots k').connId = (w.slots k').connId := by
      by_cases same : k' = k
      · rw [same,putSlot,connId]
      · rw [putSlotOther same]
    rw [ids]
    exact i.origin k' m (at_ k' m at')
  · show m ∈ w.alive ↔ _
    rw [i.alive m]
    simp only [insts]
    refine or_congr_right ⟨fun ⟨c',k',owns',loading⟩ => ?_,fun ⟨c',k',owns',loading⟩ => ?_⟩
    · have other : c' ≠ c := fun e => by
        rw [e,loaded] at loading
        cases loading
      exact ⟨c',k',by rw [putCallOther other]; exact ⟨owns',loading⟩⟩
    · obtain ⟨other,_,old⟩ := call c' k' m owns'
      rw [putCallOther other] at loading
      exact ⟨c',k',old,loading⟩

/-- The call has the slot afterwards. -/
theorem Inv.own (i : Inv w) (owns : x.owns = some (k,n)) (used : s.used = true) (leased : s.leased = true)
    (inst : s.inst = if x.hasSession then some n else none) (ours : ∀ c' m, (w.calls c').owns = some (k,m) → c' = c)
    (before : ∀ k' m, (w.calls c).owns = some (k',m) → k' = k ∧ m = n) (wasInst : ∀ m, (w.slots k).inst = some m → m = n)
    (fresh : ∀ k', w.At k' n → k' = k) (kept : ∀ (m : Nat) (id : Bytes), w.begun[m]? = some id → b[m]? = some id)
    (origin : ∃ id, b[n]? = some id ∧ s.connId = id.take 63)
    (alive : ∀ m, m ∈ a ↔ m ≠ n ∧ m ∈ w.alive ∨ m = n ∧ (x.hasSession = true ∨ x.isLoading = true)) :
    Inv (w.put k s c x b a) := by
  have call : ∀ c' k' m, ((w.put k s c x b a).calls c').owns = some (k',m) →
      c' = c ∧ k' = k ∧ m = n ∨ c' ≠ c ∧ k' ≠ k ∧ (w.calls c').owns = some (k',m) := fun c' k' m owns' => by
    by_cases same : c' = c
    · rw [same,putCall,owns] at owns'
      cases owns'
      exact .inl ⟨same,rfl,rfl⟩
    · rw [putCallOther same] at owns'
      exact .inr ⟨same,fun e => same (ours c' m (e ▸ owns')),owns'⟩
  have at_ : ∀ k' m, (w.put k s c x b a).At k' m → k' = k ∧ m = n ∨ k' ≠ k ∧ w.At k' m := fun k' m at' => by
    rcases at' with inst' | ⟨c',owns'⟩
    · by_cases same : k' = k
      · rw [same,putSlot,inst] at inst'
        split at inst'
        · exact .inl ⟨same,(Option.some.inj inst').symm⟩
        · cases inst'
      · rw [putSlotOther same] at inst'
        exact .inr ⟨same,.inl inst'⟩
    · rcases call c' k' m owns' with ⟨_,same⟩ | ⟨_,other,old⟩
      · exact .inl same
      · exact .inr ⟨other,.inr ⟨c',old⟩⟩
  refine ⟨fun c' k' m owns' => ?_,fun c' c'' k' m m' owns' owns'' => ?_,fun k' leased' => ?_,fun k' unused => ?_,
    fun k' m at' => ?_,fun k' k'' m at' at'' => ?_,fun m => ?_⟩
  · rcases call c' k' m owns' with ⟨rfl,rfl,rfl⟩ | ⟨otherCall,otherSlot,old⟩
    · rw [putSlot,putCall]
      exact ⟨used,leased,inst⟩
    · rw [putSlotOther otherSlot,putCallOther otherCall]
      exact i.busy c' k' m old
  · rcases call c' k' m owns' with ⟨rfl,rfl,rfl⟩ | ⟨_,slot,old⟩
    · rcases call c'' k' m' owns'' with ⟨rfl,_⟩ | ⟨_,slot,_⟩
      · rfl
      · exact absurd rfl slot
    · rcases call c'' k' m' owns'' with ⟨_,rfl,_⟩ | ⟨_,_,old'⟩
      · exact absurd rfl slot
      · exact i.alone c' c'' k' m m' old old'
  · by_cases same : k' = k
    · exact ⟨c,n,by rw [putCall,owns,same]⟩
    · rw [putSlotOther same] at leased'
      obtain ⟨c',m,old⟩ := i.owned k' leased'
      have other : c' ≠ c := fun e => same (before k' m (e ▸ old)).1
      exact ⟨c',m,by rw [putCallOther other,old]⟩
  · by_cases same : k' = k
    · rw [same,putSlot,used] at unused
      cases unused
    · rw [putSlotOther same] at unused ⊢
      exact i.unused k' unused
  · rcases at_ k' m at' with ⟨rfl,rfl⟩ | ⟨other,old⟩
    · rw [putSlot]
      exact origin
    · rw [putSlotOther other]
      exact (i.origin k' m old).imp fun id is => ⟨kept m id is.1,is.2⟩
  · rcases at_ k' m at' with ⟨rfl,rfl⟩ | ⟨_,old⟩
    · rcases at_ k'' m at'' with ⟨rfl,_⟩ | ⟨_,old'⟩
      · rfl
      · exact (fresh k'' old').symm
    · rcases at_ k'' m at'' with ⟨rfl,rfl⟩ | ⟨_,old'⟩
      · exact fresh k' old
      · exact i.distinct k' k'' m old old'
  · show m ∈ a ↔ _
    rw [alive m]
    constructor
    · rintro (⟨apart,living⟩ | ⟨rfl,session | loading⟩)
      · rcases (i.alive m).mp living with ⟨k',inst'⟩ | ⟨c',k',owns',loading⟩
        · have other : k' ≠ k := fun e => apart (wasInst m (e ▸ inst'))
          exact .inl ⟨k',by rw [putSlotOther other,inst']⟩
        · have other : c' ≠ c := fun e => apart (before k' m (e ▸ owns')).2
          exact .inr ⟨c',k',by rw [putCallOther other]; exact ⟨owns',loading⟩⟩
      · exact .inl ⟨k,by rw [putSlot,inst,if_pos session]⟩
      · exact .inr ⟨c,k,by rw [putCall]; exact ⟨owns,loading⟩⟩
    · rintro (⟨k',inst'⟩ | ⟨c',k',owns',loading⟩)
      · rcases at_ k' m (.inl inst') with ⟨rfl,rfl⟩ | ⟨other,old⟩
        · rw [putSlot,inst] at inst'
          split at inst'
          · exact .inr ⟨rfl,.inl ‹_›⟩
          · cases inst'
        · refine .inl ⟨fun e => other (fresh k' (e ▸ old)),(i.alive m).mpr (.inl ⟨k',?_⟩)⟩
          rw [← inst',putSlotOther other]
      · rcases call c' k' m owns' with ⟨rfl,rfl,rfl⟩ | ⟨otherCall,otherSlot,old⟩
        · rw [putCall] at loading
          exact .inr ⟨rfl,.inr loading⟩
        · rw [putCallOther otherCall] at loading
          refine .inl ⟨fun e => otherSlot (fresh k' (e ▸ .inr ⟨c',old⟩)),(i.alive m).mpr (.inr ⟨c',k',old,loading⟩)⟩

/-! ### What a step does -/

/-- Sessions of slots that nobody has are unloaded, and slots are marked. -/
inductive Clears : World → World → Prop
  | refl {w : World} : Clears w w
  | mark {w w' : World} {k : Fin maxSlots} : Clears (w.setSlot k {w.slots k with fp := []}) w' → Clears w w'
  | drop {w w' : World} {k : Fin maxSlots} {s : PoolSlot} : (w.slots k).leased = false → s.inst = none → s.leased = false →
      (s.used = true → (w.slots k).used = true ∧ s.connId = (w.slots k).connId) →
      Clears ((w.unload (w.slots k).inst).setSlot k s) w' → Clears w w'

theorem Clears.free (unleased : (w.slots k).leased = false) (later : Clears (w.slotFree k) w') : Clears w w' :=
  .drop unleased rfl rfl (fun used => by cases used) later

theorem Clears.trans {w₁ w₂ w₃ : World} (first : Clears w₁ w₂) (later : Clears w₂ w₃) : Clears w₁ w₃ := by
  induction first with
  | refl => exact later
  | mark _ ih => exact .mark (ih later)
  | drop unleased inst still used _ ih => exact .drop unleased inst still used (ih later)

/-- Of a slot that somebody has, at most the fingerprint goes. -/
structure Keeps (w w' : World) : Prop where
  calls : w'.calls = w.calls
  begun : w'.begun = w.begun
  maxPerConn : w'.maxPerConn = w.maxPerConn
  alive : w'.alive ⊆ w.alive
  used : ∀ k, (w'.slots k).used = true → (w.slots k).used = true ∧ (w'.slots k).connId = (w.slots k).connId
  leased : ∀ k, (w.slots k).leased = true → w'.slots k = w.slots k ∨ w'.slots k = {w.slots k with fp := []}

theorem Keeps.refl (w : World) : Keeps w w := ⟨rfl,rfl,rfl,Finset.Subset.refl _,fun _ used => ⟨used,rfl⟩,fun _ _ => .inl rfl⟩

theorem Keeps.trans {w₁ w₂ w₃ : World} (first : Keeps w₁ w₂) (later : Keeps w₂ w₃) : Keeps w₁ w₃ where
  calls := later.calls.trans first.calls
  begun := later.begun.trans first.begun
  maxPerConn := later.maxPerConn.trans first.maxPerConn
  alive := later.alive.trans first.alive
  used := fun k used =>
    have mid := later.used k used
    have old := first.used k mid.1
    ⟨old.1,mid.2.trans old.2⟩
  leased := fun k leased => by
    rcases first.leased k leased with same | marked
    · rcases later.leased k (by rw [same,leased]) with same' | marked'
      · exact .inl (same'.trans same)
      · exact .inr (by rw [marked',same])
    · rcases later.leased k (by rw [marked]; exact leased) with same' | marked'
      · exact .inr (same'.trans marked)
      · exact .inr (by rw [marked',marked])

theorem keepsMark : Keeps w (w.setSlot k {w.slots k with fp := []}) where
  calls := rfl
  begun := rfl
  maxPerConn := rfl
  alive := Finset.Subset.refl _
  used := fun k' used => by
    by_cases same : k' = k
    · cases same
      rw [setSlotHere] at used ⊢
      exact ⟨used,rfl⟩
    · rw [setSlotOther same] at used ⊢
      exact ⟨used,rfl⟩
  leased := fun k' leased => by
    by_cases same : k' = k
    · cases same
      exact .inr setSlotHere
    · exact .inl (setSlotOther same)

theorem keepsDrop (unleased : (w.slots k).leased = false)
    (used : s.used = true → (w.slots k).used = true ∧ s.connId = (w.slots k).connId) :
    Keeps w ((w.unload (w.slots k).inst).setSlot k s) := by
  have unloaded : ∀ o, (w.unload o).calls = w.calls ∧ (w.unload o).begun = w.begun ∧ (w.unload o).maxPerConn = w.maxPerConn ∧
      (w.unload o).slots = w.slots ∧ (w.unload o).alive ⊆ w.alive := fun o => by
    cases o with
    | none => exact ⟨rfl,rfl,rfl,rfl,Finset.Subset.refl _⟩
    | some n => exact ⟨rfl,rfl,rfl,rfl,Finset.erase_subset n w.alive⟩
  obtain ⟨calls,begun,maxPerConn,slots,alive⟩ := unloaded (w.slots k).inst
  refine ⟨calls,begun,maxPerConn,alive,fun k' used' => ?_,fun k' leased => ?_⟩
  · by_cases same : k' = k
    · cases same
      rw [setSlotHere] at used' ⊢
      exact used used'
    · rw [setSlotOther same,slots] at used' ⊢
      exact ⟨used',rfl⟩
  · by_cases same : k' = k
    · rw [same,unleased] at leased
      cases leased
    · rw [setSlotOther same,slots]
      exact .inl rfl

theorem Clears.keeps (clears : Clears w w') : Keeps w w' := by
  induction clears with
  | refl => exact Keeps.refl _
  | mark _ ih => exact keepsMark.trans ih
  | drop unleased _ _ used _ ih => exact (keepsDrop unleased used).trans ih

theorem Inv.clear (i : Inv w) (clears : Clears w w') : Inv w' := by
  induction clears with
  | refl => exact i
  | @mark w w' k _ ih =>
    refine ih (i.same rfl rfl (fun k' => ?_) fun _ => ⟨rfl,rfl,rfl⟩)
    by_cases same : k' = k
    · cases same
      rw [setSlotHere]
      exact ⟨rfl,rfl,rfl,rfl⟩
    · rw [setSlotOther same]
      exact ⟨rfl,rfl,rfl,rfl⟩
  | drop unleased inst still _ _ ih => exact ih (i.drop unleased inst still)

/-- The request of an opening under way. -/
def Call.request : Call → Option Request
  | .loading _ _ r | .naming _ _ r _ | .verifying _ _ r => some r
  | _ => none

/-- The call that takes the step. -/
def Act.call : Act → Option Nat
  | .acquire c _ | .enter c _ | .load c _ | .name c _ | .verified c _ _ | .relock c | .release c _ _ | .tick c _ | .look c
  | .pinged c _ _ _ => some c
  | .invalidate _ => none

/-- What a step of the call can do. -/
inductive Effect (w : World) (by_ : Option Nat) : World → Prop
  | clear {w' : World} : Clears w w' → Effect w by_ w'
  | call {w₁ : World} {c : Nat} {x : Call} : by_ = some c → Clears w w₁ → (w.calls c).owns = none → x.owns = none →
      Effect w by_ (w₁.setCall c x)
  | take {w₁ : World} {c : Nat} {x : Call} {k : Fin maxSlots} {n : Nat} {s : PoolSlot} : by_ = some c → Clears w w₁ →
      (w.calls c).owns = none → (w₁.slots k).leased = false → (w₁.slots k).inst = some n → x.owns = some (k,n) →
      x.hasSession = true → x.request = none → s.used = (w₁.slots k).used → s.leased = true → s.inst = some n →
      s.connId = (w₁.slots k).connId → Effect w by_ (w₁.put k s c x w₁.begun w₁.alive)
  | reserve {w₁ : World} {c : Nat} {k : Fin maxSlots} {r : Request} : by_ = some c → Clears w w₁ → w.calls c = .acquiring r →
      (w₁.slots k).leased = false → (w₁.slots k).inst = none → Effect w by_ (w₁.reserve c k r)
  | proceed {c : Nat} {x : Call} {k : Fin maxSlots} {n : Nat} {s : PoolSlot} {alive : Finset Nat} : by_ = some c →
      (w.calls c).owns = some (k,n) → x.owns = some (k,n) → s.used = true → s.leased = true →
      s.inst = (if x.hasSession then some n else none) →
      (s.connId = (w.slots k).connId ∨ ∃ r, (w.calls c).request = some r ∧ s.connId = r.connId.take 63) →
      (x.request = none ∨ x.request = (w.calls c).request) →
      (x.hasSession = true → (w.calls c).hasSession = true ∨ (w.calls c).isLoading = true) →
      x.isLoading = false → alive = (if x.hasSession then w.alive else w.alive.erase n) → Effect w by_ (w.put k s c x w.begun alive)
  | leave {w' : World} {c : Nat} {x : Call} {k : Fin maxSlots} {n : Nat} {s : PoolSlot} : by_ = some c →
      (w.calls c).owns = some (k,n) → (w.calls c).isLoading = false → x.owns = none → s.leased = false → s.used = (w.slots k).used →
      s.inst = (w.slots k).inst → s.connId = (w.slots k).connId → Clears (w.put k s c x w.begun w.alive) w' → Effect w by_ w'

/-- Nobody has the slot, and it has no session. -/
def World.Vacant (w : World) (k : Fin maxSlots) : Prop := (w.slots k).leased = false ∧ (w.slots k).inst = none

theorem freeHere : (w.slotFree k).slots k = (w.slots k).free := setSlotHere

theorem freeOther (other : k' ≠ k) : (w.slotFree k).slots k' = w.slots k' := by
  rw [World.slotFree,setSlotOther other]
  cases (w.slots k).inst <;> rfl

theorem freeVacant : (w.slotFree k).Vacant k := by
  rw [World.Vacant,freeHere]
  exact ⟨rfl,rfl⟩

theorem World.Vacant.free (vacant : w.Vacant k') (k : Fin maxSlots) : (w.slotFree k).Vacant k' := by
  by_cases same : k' = k
  · rw [same]
    exact freeVacant
  · rw [World.Vacant,freeOther same]
    exact vacant

/-- A scan that has freed what it frees takes a session, or changes no more. -/
def Found.After (now : Int) (w₁ w' : World) : Found → Prop
  | .session k n => (w₁.slots k).leased = false ∧ (w₁.slots k).inst = some n ∧
    w' = w₁.setSlot k {w₁.slots k with leased := true, lastUsed := now}
  | .missing _ d => w' = w₁ ∧ ∀ k ∈ d, w'.Vacant k

theorem scanClears {connId fp : Bytes} {now : Int} {ks : List (Fin maxSlots)} {mine : Nat} {dead : Option (Fin maxSlots)}
    {f : Found} (idle : ∀ k ∈ dead, w.Vacant k) (scanned : scan connId fp now ks w mine dead = (w',f)) :
    ∃ w₁, Clears w w₁ ∧ f.After now w₁ w' := by
  induction ks generalizing w mine dead with
  | nil =>
    cases scanned
    exact ⟨_,.refl,rfl,idle⟩
  | cons k ks ih =>
    rw [scan] at scanned
    split at scanned
    · exact ih idle scanned
    split at scanned
    · split at scanned
      · exact ih idle scanned
      · rename_i unleased
        obtain ⟨w₁,clears,rest⟩ := ih (fun k' mem => (idle k' mem).free k) scanned
        exact ⟨w₁,.free (Bool.eq_false_iff.mpr unleased) clears,rest⟩
    split at scanned
    · exact ih idle scanned
    rename_i unleased
    split at scanned
    · rename_i n inst
      cases scanned
      exact ⟨w,.refl,Bool.eq_false_iff.mpr unleased,inst,rfl⟩
    · rename_i inst
      refine ih (fun k' mem => ?_) scanned
      cases dead with
      | some d => exact idle k' mem
      | none =>
        cases mem
        exact ⟨Bool.eq_false_iff.mpr unleased,inst⟩

theorem firstFreeIs {slots : Fin maxSlots → PoolSlot} (found : firstFree slots = some k) : (slots k).used = false :=
  of_decide_eq_true (@List.find?_some _ (fun k => decide ((slots k).used = false)) _ _ found)

theorem victimIdle {slots : Fin maxSlots → PoolSlot} (found : victim slots = some k) :
    (slots k).used = true ∧ (slots k).leased = false := by
  have all : ∀ (ks : List (Fin maxSlots)) (best : Option (Fin maxSlots)),
      (∀ b ∈ best, (slots b).used = true ∧ (slots b).leased = false) →
      ∀ b ∈ ks.foldl (fun best k => if (slots k).used ∧ (slots k).leased = false ∧
        ∀ b ∈ best, (slots k).lastUsed < (slots b).lastUsed then some k else best) best, (slots b).used = true ∧ (slots b).leased = false := by
    intro ks
    induction ks with
    | nil => exact fun _ idle => idle
    | cons k ks ih =>
      refine fun best idle => ih _ fun b mem => ?_
      dsimp only at mem
      split at mem
      · rename_i older
        cases mem
        exact ⟨older.1,older.2.1⟩
      · exact idle b mem
  exact all _ none (fun _ mem => absurd mem (Option.not_mem_none _)) k found

theorem Inv.unusedIdle (i : Inv w) (unused : (w.slots k).used = false) : (w.slots k).leased = false := by
  refine Bool.eq_false_iff.mpr fun leased => ?_
  obtain ⟨c,n,owns⟩ := i.owned k leased
  have used := (i.busy c k n owns).1
  rw [unused] at used
  cases used

theorem enterEffect {r : Request} {now : Int} (i : Inv w) (call : w.calls c = .acquiring r) :
    Effect w (some c) (w.enter c r now) := by
  have unowned : (w.calls c).owns = none := by rw [call]; rfl
  unfold World.enter
  split
  · rename_i w' k n scanned
    obtain ⟨w₁,clears,unleased,inst,rfl⟩ := scanClears (fun _ mem => absurd mem (Option.not_mem_none _)) scanned
    exact .take rfl clears unowned unleased inst rfl rfl rfl rfl rfl inst rfl
  · rename_i w' _ k scanned
    obtain ⟨w₁,clears,rfl,vacant⟩ := scanClears (fun _ mem => absurd mem (Option.not_mem_none _)) scanned
    split
    · exact .call rfl clears unowned rfl
    · exact .reserve rfl clears call (vacant k rfl).1 (vacant k rfl).2
  · rename_i w' mine scanned
    obtain ⟨w₁,clears,rfl,_⟩ := scanClears (fun _ mem => absurd mem (Option.not_mem_none _)) scanned
    have i₁ := i.clear clears
    split
    · split
      · rename_i k found
        have unused := firstFreeIs found
        exact .reserve rfl clears call (i₁.unusedIdle unused) (i₁.unused k unused)
      · split
        · rename_i k found
          exact .reserve rfl (clears.trans (.free (victimIdle found).2 .refl)) call freeVacant.1 freeVacant.2
        · exact .clear clears
    · exact .clear clears

theorem loadEffect {r : Request} {outcome : LoadOutcome} (i : Inv w) (call : w.calls c = .loading k n r) :
    Effect w (some c) (w.load c k n r outcome) := by
  have owns : (w.calls c).owns = some (k,n) := by rw [call]; rfl
  obtain ⟨used,leased,inst⟩ := i.busy c k n owns
  rw [call] at inst
  cases outcome with
  | noMemory =>
    have same : w.load c k n r .noMemory = w.put k (w.slots k) c (.openFailed k n
        ((utf8 "нет памяти под сессию подключения").take (r.errsz - 1))) w.begun (w.alive.erase n) := by
      rw [World.load,World.put,Function.update_eq_self]
      rfl
    rw [same]
    exact .proceed rfl owns rfl used leased inst (.inl rfl) (.inl rfl) (fun _ => .inr (by rw [call]; rfl)) rfl rfl
  | failed =>
    exact .proceed (s := {w.slots k with cfg := some r.cfgJson, inst := none}) (x := .naming k n r false) rfl owns rfl used leased rfl
      (.inl rfl) (.inr (by rw [call]; rfl)) (fun _ => .inr (by rw [call]; rfl)) rfl rfl
  | loaded =>
    exact .proceed (s := {w.slots k with cfg := some r.cfgJson, inst := some n}) (x := .naming k n r true) rfl owns rfl used leased rfl
      (.inl rfl) (.inr (by rw [call]; rfl)) (fun _ => .inr (by rw [call]; rfl)) rfl rfl

theorem Inv.dead (i : Inv w) (owns : (w.calls c).owns = some (k,n)) (session : (w.calls c).hasSession = false)
    (loading : (w.calls c).isLoading = false) : n ∉ w.alive := fun living => by
  have inst := (i.busy c k n owns).2.2
  rw [session] at inst
  rcases (i.alive n).mp living with ⟨k',inst'⟩ | ⟨c',k',owns',loading'⟩
  · rw [i.distinct k' k n (.inl inst') (.inr ⟨c,owns⟩),inst] at inst'
    cases inst'
  · have slot := i.distinct k' k n (.inr ⟨c',owns'⟩) (.inr ⟨c,owns⟩)
    rw [i.alone c' c k n n (slot ▸ owns') owns,loading] at loading'
    cases loading'

theorem nameEffect {r : Request} {loaded : Bool} {now : Int} (i : Inv w) (call : w.calls c = .naming k n r loaded) :
    Effect w (some c) (w.name c k n r loaded now) := by
  have owns : (w.calls c).owns = some (k,n) := by rw [call]; rfl
  obtain ⟨used,leased,inst⟩ := i.busy c k n owns
  rw [call] at inst
  have request : (w.calls c).request = some r := by rw [call]; rfl
  cases loaded with
  | false =>
    let err := (utf8 "не удалось поднять коннектор (" ++ r.soPath ++ utf8 ")").take (r.errsz - 1)
    have gone : w.alive.erase n = w.alive := Finset.erase_eq_of_notMem (i.dead owns (by rw [call]; rfl) (by rw [call]; rfl))
    exact .proceed (s := {(w.slots k).named r now with cfg := none, lastError := err.take 255}) (x := .openFailed k n err) rfl
      owns rfl rfl leased inst (.inr ⟨r,request,rfl⟩) (.inl rfl) (fun session => (nomatch session)) rfl gone.symm
  | true =>
    rw [World.name,if_pos rfl]
    split
    · exact .proceed (s := (w.slots k).named r now) (x := .verifying k n r) rfl owns rfl rfl leased inst (.inr ⟨r,request,rfl⟩)
        (.inr request.symm) (fun _ => .inl (by rw [call]; rfl)) rfl rfl
    · exact .proceed (s := {(w.slots k).named r now with lastOk := now, lastError := []}) (x := .opened k n) rfl owns rfl rfl leased
        inst (.inr ⟨r,request,rfl⟩) (.inl rfl) (fun _ => .inl (by rw [call]; rfl)) rfl rfl

theorem verifiedEffect {r : Request} {ok : Bool} {why : Option Bytes} (i : Inv w) (call : w.calls c = .verifying k n r) :
    Effect w (some c) (w.verified c k n r ok why) := by
  have owns : (w.calls c).owns = some (k,n) := by rw [call]; rfl
  obtain ⟨used,leased,inst⟩ := i.busy c k n owns
  rw [call] at inst
  cases ok with
  | true =>
    exact .proceed (s := {w.slots k with lastOk := (w.slots k).lastUsed, lastError := []}) (x := .opened k n) rfl owns rfl used
      leased inst (.inl rfl) (.inl rfl) (fun _ => .inl (by rw [call]; rfl)) rfl rfl
  | false =>
    let msg := pingError why (utf8 "система не отвечает")
    have same : w.verified c k n r false why = w.put k {(w.slots k).close with lastError := msg} c
        (.openFailed k n (msg.take (r.errsz - 1))) w.begun (w.alive.erase n) := by
      rw [World.verified,inst]
      rfl
    rw [same]
    exact .proceed rfl owns rfl used leased rfl (.inl rfl) (.inl rfl) (fun session => (nomatch session)) rfl rfl

theorem relockEffect (i : Inv w) (moved : step w (.relock c) = some w') : Effect w (some c) w' := by
  rw [step] at moved
  split at moved
  · rename_i k n call
    cases moved
    have owns : (w.calls c).owns = some (k,n) := by rw [call]; rfl
    obtain ⟨used,leased,inst⟩ := i.busy c k n owns
    rw [call] at inst
    exact .proceed (s := {w.slots k with opening := false}) (x := .holding k n) rfl owns rfl used leased inst (.inl rfl) (.inl rfl)
      (fun _ => .inl (by rw [call]; rfl)) rfl rfl
  · rename_i k n err call
    cases moved
    have owns : (w.calls c).owns = some (k,n) := by rw [call]; rfl
    exact .leave (s := {w.slots k with opening := false, leased := false}) (x := .failed err) rfl owns (by rw [call]; rfl) rfl rfl rfl
      rfl rfl .refl
  · cases moved

theorem setTwice {s s' : PoolSlot} : (w.setSlot k s).setSlot k s' = w.setSlot k s' := by
  rw [World.setSlot,World.setSlot,World.setSlot,Function.update_idem]

theorem releaseEffect {healthy : Bool} {now : Int} (call : w.calls c = .holding k n) :
    Effect w (some c) (w.release c k healthy now) := by
  have owns : (w.calls c).owns = some (k,n) := by rw [call]; rfl
  have loading : (w.calls c).isLoading = false := by rw [call]; rfl
  have freed : Effect w (some c) (((w.setSlot k {w.slots k with leased := false, lastUsed := now}).setCall c .ended).slotFree k) :=
    .leave (s := {w.slots k with leased := false, lastUsed := now}) (x := .ended) rfl owns loading rfl rfl rfl rfl rfl
      (.free (congrArg PoolSlot.leased putSlot) .refl)
  rw [World.release]
  split
  · exact freed
  split
  · have slot : ((w.setSlot k {w.slots k with leased := false, lastUsed := now}).setCall c .ended).slots k =
        {w.slots k with leased := false, lastUsed := now} := setSlotHere
    refine .leave (s := {w.slots k with leased := false, lastUsed := now, lastOk := now, lastError := []}) (x := .ended) rfl owns
      loading rfl rfl rfl rfl rfl ?_
    rw [slot]
    have same : ((w.setSlot k {w.slots k with leased := false, lastUsed := now}).setCall c .ended).setSlot k
        {w.slots k with leased := false, lastUsed := now, lastOk := now, lastError := []} =
        w.put k {w.slots k with leased := false, lastUsed := now, lastOk := now, lastError := []} c .ended w.begun w.alive := by
      simp only [World.setSlot,World.setCall,World.put,Function.update_idem]
    rw [← same]
    exact .refl
  · exact freed

theorem invalidateSlotClears (connId : Bytes) (w : World) (k : Fin maxSlots) : Clears w (World.invalidateSlot connId w k) := by
  rw [World.invalidateSlot]
  split
  · exact .refl
  split
  · exact .mark .refl
  · rename_i unleased
    exact .free (Bool.eq_false_iff.mpr unleased) .refl

theorem foldClears {f : World → Fin maxSlots → World} (each : ∀ w k, Clears w (f w k)) (ks : List (Fin maxSlots)) (w : World) :
    Clears w (ks.foldl f w) := by
  induction ks generalizing w with
  | nil => exact .refl
  | cons k ks ih => exact (each w k).trans (ih (f w k))

theorem invalidateClears (w : World) (connId : Bytes) : Clears w (w.invalidate connId) := by
  rw [World.invalidate]
  split
  · exact .refl
  · exact foldClears (invalidateSlotClears connId) _ w

theorem lookEffect {t : Int} {j : Nat} (call : w.calls c = .ticking t j) : Effect w (some c) (w.look c t j) := by
  have unowned : (w.calls c).owns = none := by rw [call]; rfl
  rw [World.look]
  split
  · rename_i h
    dsimp only
    split
    · exact .call rfl .refl unowned rfl
    · rename_i n inst
      split
      · exact .call rfl .refl unowned rfl
      · rename_i ready
        have unleased : (w.slots ⟨j,h⟩).leased = false := Bool.eq_false_iff.mpr fun leased => ready (.inr (.inl leased))
        exact .take (s := {w.slots ⟨j,h⟩ with leased := true}) (x := .pinging t ⟨j,h⟩ n) rfl .refl unowned unleased inst rfl rfl rfl
          rfl rfl inst rfl
  · exact .call rfl .refl unowned rfl

theorem pingedEffect {t : Int} {ok : Bool} {why : Option Bytes} {now : Int} (call : w.calls c = .pinging t k n) :
    Effect w (some c) (w.pinged c t k ok why now) := by
  have owns : (w.calls c).owns = some (k,n) := by rw [call]; rfl
  have loading : (w.calls c).isLoading = false := by rw [call]; rfl
  have slot : ((w.setSlot k {w.slots k with leased := false}).setCall c (.ticking t (k + 1))).slots k =
      {w.slots k with leased := false} := setSlotHere
  cases ok with
  | true =>
    refine .leave (s := {w.slots k with leased := false, lastOk := now, lastUsed := now, lastError := []})
      (x := .ticking t (k + 1)) rfl owns loading rfl rfl rfl rfl rfl ?_
    rw [World.pinged,slot]
    have same : ((w.setSlot k {w.slots k with leased := false}).setCall c (.ticking t (k + 1))).setSlot k
        {w.slots k with leased := false, lastOk := now, lastUsed := now, lastError := []} =
        w.put k {w.slots k with leased := false, lastOk := now, lastUsed := now, lastError := []} c (.ticking t (k + 1)) w.begun
          w.alive := by
      simp only [World.setSlot,World.setCall,World.put,Function.update_idem]
    rw [← same]
    exact .refl
  | false =>
    refine .leave (s := {w.slots k with leased := false}) (x := .ticking t (k + 1)) rfl owns loading rfl rfl rfl rfl rfl ?_
    let msg := pingError why (utf8 "сессия не отвечает")
    refine .drop (s := {(w.slots k).close with leased := false, lastError := msg, lastUsed := now}) (congrArg PoolSlot.leased putSlot)
      rfl rfl (fun used => ⟨by rw [putSlot]; exact used,by rw [putSlot]; rfl⟩) ?_
    have same : w.pinged c t k false why now =
        ((w.put k {w.slots k with leased := false} c (.ticking t (k + 1)) w.begun w.alive).unload (((w.put k {w.slots k with leased := false} c (.ticking t (k + 1)) w.begun w.alive).slots k).inst)).setSlot k
          {(w.slots k).close with leased := false, lastError := msg, lastUsed := now} := by
      rw [World.pinged]
      simp only [Bool.false_eq_true,if_false]
      rw [World.slotClose,setTwice,setSlotHere,slot,putSlot]
      rfl
    rw [← same]
    exact .refl

theorem stepEffect {a : Act} (i : Inv w) (moved : step w a = some w') : Effect w a.call w' := by
  cases a with
  | acquire c r =>
    rw [step] at moved
    split at moved
    · rename_i call
      have unowned : (w.calls c).owns = none := by rw [call]; rfl
      split at moved
      all_goals
        cases moved
        exact .call rfl .refl unowned rfl
    · cases moved
  | enter c now =>
    rw [step] at moved
    split at moved
    · rename_i call
      cases moved
      exact enterEffect i call
    · cases moved
  | load c outcome =>
    rw [step] at moved
    split at moved
    · rename_i call
      cases moved
      exact loadEffect i call
    · cases moved
  | name c now =>
    rw [step] at moved
    split at moved
    · rename_i call
      cases moved
      exact nameEffect i call
    · cases moved
  | verified c ok why =>
    rw [step] at moved
    split at moved
    · rename_i call
      cases moved
      exact verifiedEffect i call
    · cases moved
  | relock c => exact relockEffect i moved
  | release c healthy now =>
    rw [step] at moved
    split at moved
    · rename_i call
      cases moved
      exact releaseEffect call
    · cases moved
  | invalidate connId =>
    cases moved
    exact .clear (invalidateClears w connId)
  | tick c t =>
    rw [step] at moved
    split at moved
    · rename_i call
      cases moved
      exact .call rfl .refl (by rw [call]; rfl) rfl
    · cases moved
  | look c =>
    rw [step] at moved
    split at moved
    · rename_i call
      cases moved
      exact lookEffect call
    · cases moved
  | pinged c ok why now =>
    rw [step] at moved
    split at moved
    · rename_i call
      cases moved
      exact pingedEffect call
    · cases moved

/-! ### Every run -/

/-- An opening under way is the one that was begun for its request. -/
def Asked (w : World) : Prop := ∀ c k n r, (w.calls c).owns = some (k,n) → (w.calls c).request = some r → w.begun[n]? = some r.connId

theorem idleCall {x : Call} (owns : x.owns = none) : x.hasSession = false ∧ x.isLoading = false := by
  cases x <;> first | exact ⟨rfl,rfl⟩ | cases owns

theorem Asked.keep (asked : Asked w) (keeps : Keeps w w') : Asked w' := by
  rw [Asked,keeps.calls,keeps.begun]
  exact asked

theorem Asked.put (asked : Asked w) (kept : ∀ (m : Nat) (id : Bytes), w.begun[m]? = some id → b[m]? = some id)
    (new : ∀ k' n r, x.owns = some (k',n) → x.request = some r → b[n]? = some r.connId) : Asked (w.put k s c x b a) := by
  intro c' k' n r owns request
  by_cases same : c' = c
  · rw [same,putCall] at owns request
    exact new k' n r owns request
  · rw [putCallOther same] at owns request
    exact kept n r.connId (asked c' k' n r owns request)

theorem Inv.atUnleased (i : Inv w) (unleased : (w.slots k).leased = false) (at_ : w.At k n) : (w.slots k).inst = some n := by
  rcases at_ with inst | ⟨c,owns⟩
  · exact inst
  · exact absurd owns (i.unowned unleased)

theorem Inv.take (i : Inv w) (unowned : (w.calls c).owns = none) (unleased : (w.slots k).leased = false)
    (inst : (w.slots k).inst = some n) (owns : x.owns = some (k,n)) (session : x.hasSession = true) (used : s.used = (w.slots k).used)
    (leased : s.leased = true) (inst' : s.inst = some n) (connId : s.connId = (w.slots k).connId) :
    Inv (w.put k s c x w.begun w.alive) := by
  have isUsed : (w.slots k).used = true := by
    refine (Bool.eq_false_or_eq_true _).resolve_right fun unused => ?_
    rw [i.unused k unused] at inst
    cases inst
  refine i.own owns (used.trans isUsed) leased (by rw [inst',if_pos session]) (fun _ _ owns' => absurd owns' (i.unowned unleased))
    (fun _ _ owns' => by rw [unowned] at owns'; cases owns') (fun m inst'' => Option.some.inj (inst''.symm.trans inst))
    (fun k' at_ => i.distinct k' k n at_ (.inl inst)) (fun _ _ => id) (connId ▸ i.origin k n (.inl inst)) fun m => ?_
  have living := (i.alive n).mpr (.inl ⟨k,inst⟩)
  by_cases same : m = n
  · simp [same,living,session]
  · simp [same]

theorem Inv.fresh (i : Inv w) (at_ : w.At k n) : n ≠ w.begun.length := fun same => by
  obtain ⟨id,is,_⟩ := i.origin k n at_
  rw [same,List.getElem?_eq_none (Nat.le_refl _)] at is
  cases is

theorem Inv.reserve {r : Request} (i : Inv w) (unowned : (w.calls c).owns = none) (unleased : (w.slots k).leased = false)
    (inst : (w.slots k).inst = none) : Inv (w.reserve c k r) := by
  refine i.own (n := w.begun.length) (x := .loading k w.begun.length r) rfl rfl rfl inst
    (fun _ _ owns => absurd owns (i.unowned unleased)) (fun _ _ owns => by rw [unowned] at owns; cases owns)
    (fun m inst' => by rw [inst] at inst'; cases inst') (fun k' at_ => absurd rfl (i.fresh at_))
    (fun m id is => ?_) ⟨r.connId,?_,rfl⟩ fun m => ?_
  · have short := (List.getElem?_eq_some_iff.mp is).1
    rw [List.getElem?_append_left short,is]
  · rw [List.getElem?_append_right (Nat.le_refl _),Nat.sub_self]
    rfl
  · have new : w.begun.length ∉ w.alive := fun living => by
      rcases (i.alive _).mp living with ⟨k',inst'⟩ | ⟨c',k',owns,_⟩
      · exact i.fresh (.inl inst') rfl
      · exact i.fresh (.inr ⟨c',owns⟩) rfl
    rw [Finset.mem_insert]
    by_cases same : m = w.begun.length
    · simp [same,Call.isLoading]
    · simp [same]

theorem Inv.proceed {alive : Finset Nat} (i : Inv w) (asked : Asked w) (owns : (w.calls c).owns = some (k,n)) (owns' : x.owns = some (k,n))
    (used : s.used = true) (leased : s.leased = true) (inst : s.inst = if x.hasSession then some n else none)
    (connId : s.connId = (w.slots k).connId ∨ ∃ r, (w.calls c).request = some r ∧ s.connId = r.connId.take 63)
    (session : x.hasSession = true → (w.calls c).hasSession = true ∨ (w.calls c).isLoading = true) (loaded : x.isLoading = false)
    (alive_ : alive = if x.hasSession then w.alive else w.alive.erase n) : Inv (w.put k s c x w.begun alive) := by
  refine i.own owns' used leased inst (fun c' m owns'' => i.alone c' c k m n owns'' owns)
    (fun k' m owns'' => Prod.mk.inj (Option.some.inj (owns''.symm.trans owns))) (fun m inst' => ?_)
    (fun k' at_ => i.distinct k' k n at_ (.inr ⟨c,owns⟩)) (fun _ _ => id) ?_ fun m => ?_
  · rw [(i.busy c k n owns).2.2] at inst'
    split at inst'
    · exact (Option.some.inj inst').symm
    · cases inst'
  · rcases connId with same | ⟨r,request,is⟩
    · rw [same]
      exact i.origin k n (.inr ⟨c,owns⟩)
    · exact ⟨r.connId,asked c k n r owns request,is⟩
  · rw [alive_,loaded]
    split
    · rename_i has
      have living : n ∈ w.alive := (i.alive n).mpr <| by
        rcases session has with session | loading
        · exact .inl ⟨k,by rw [(i.busy c k n owns).2.2,if_pos session]⟩
        · exact .inr ⟨c,k,owns,loading⟩
      by_cases same : m = n
      · simp [same,living,has]
      · simp [same]
    · rename_i has
      simp [has]

theorem Effect.inv {by_ : Option Nat} (i : Inv w) (asked : Asked w) (effect : Effect w by_ w') : Inv w' ∧ Asked w' := by
  cases effect with
  | clear clears => exact ⟨i.clear clears,asked.keep clears.keeps⟩
  | @call w₁ c x _ clears unowned idle =>
    have callIs : ∀ c', (w₁.setCall c x).calls c' = if c' = c then x else w₁.calls c' := fun c' => Function.update_apply ..
    rw [← clears.keeps.calls] at unowned
    refine ⟨(i.clear clears).same rfl rfl (fun _ => ⟨rfl,rfl,rfl,rfl⟩) fun c' => ?_,fun c' k n r owns request => ?_⟩
    · rw [callIs]
      split
      · rename_i same
        rw [same,idle,unowned,(idleCall idle).1,(idleCall idle).2,(idleCall unowned).1,(idleCall unowned).2]
        exact ⟨rfl,rfl,rfl⟩
      · exact ⟨rfl,rfl,rfl⟩
    · rw [callIs] at owns request
      split at owns
      · rw [idle] at owns
        cases owns
      · rename_i other
        rw [if_neg other] at request
        exact asked.keep clears.keeps c' k n r owns request
  | take _ clears unowned unleased inst owns session request used leased inst' connId =>
    rw [← clears.keeps.calls] at unowned
    exact ⟨(i.clear clears).take unowned unleased inst owns session used leased inst' connId,
      (asked.keep clears.keeps).put (fun _ _ => id) fun _ _ _ _ request' => by rw [request] at request'; cases request'⟩
  | @reserve w₁ c k r _ clears call unleased inst =>
    rw [← clears.keeps.calls] at call
    refine ⟨(i.clear clears).reserve (by rw [call]; rfl) unleased inst,(asked.keep clears.keeps).put (fun m id is => ?_)
      fun k' n r' owns request => ?_⟩
    · rw [List.getElem?_append_left (List.getElem?_eq_some_iff.mp is).1,is]
    · cases owns
      cases request
      rw [List.getElem?_append_right (Nat.le_refl _),Nat.sub_self]
      rfl
  | @proceed c x k n s alive _ owns owns' used leased inst connId request session loaded alive_ =>
    refine ⟨i.proceed asked owns owns' used leased inst connId session loaded alive_,asked.put (fun _ _ => id) fun k' m r at_ request' => ?_⟩
    rw [owns'] at at_
    cases at_
    rcases request with none_ | same
    · rw [none_] at request'
      cases request'
    · exact asked c k n r owns (same ▸ request')
  | leave _ owns loaded gone unleased used inst connId clears =>
    have i' := i.leave owns loaded gone unleased (used.trans (i.busy _ _ _ owns).1) inst connId
    refine ⟨i'.clear clears,Asked.keep (asked.put (fun _ _ => id) fun _ _ _ at_ => ?_) clears.keeps⟩
    rw [gone] at at_
    cases at_

/-- What every state of a run has. -/
structure Sound (w : World) : Prop where
  inv : Inv w
  asked : Asked w

theorem createSound (maxPerConn idlePingSec : Int) : Sound (create maxPerConn idlePingSec) :=
  ⟨createInv maxPerConn idlePingSec,fun _ _ _ _ owns => (nomatch owns)⟩

theorem Sound.step {act : Act} (sound : Sound w) (moved : step w act = some w') : Sound w' :=
  have both := (stepEffect sound.inv moved).inv sound.inv sound.asked
  ⟨both.1,both.2⟩

end
end Napastak.ConnPool
