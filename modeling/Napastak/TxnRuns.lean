import Mathlib.Data.List.Induction
import Napastak.Txn

/-! Every run of the transaction manager, over any order of its critical sections and
callbacks: each transaction, taken alone, goes through one life. -/
namespace Napastak.Txns
open Replay

variable {B : Type}

/-- The life of one transaction. A commit applies the buffered entries from the front. -/
inductive Phase (B : Type) where
  | unborn
  | live (buf : List (TxnEntry B))
  | dropped
  | committing (buf : List (TxnEntry B)) (done : Nat)
  | returned (buf : List (TxnEntry B)) (done : Nat) (rc : Int)

open Classical in
noncomputable def Phase.next : Phase B → Mark B → Option (Phase B)
  | .unborn, .began => some (.live [])
  | .live b, .buffered e => some (.live (b ++ [e]))
  | .live _, .rolledBack => some .dropped
  | .live _, .timedOut => some .dropped
  | .live b, .marked => some (.committing b 0)
  | .committing b k, .applied e => if b[k]? = some e then some (.committing b (k + 1)) else none
  | .committing b k, .returned rc => if rc = 0 → k = b.length then some (.returned b k rc) else none
  | _, _ => none

/-- The slot holds these entries and nothing after them. -/
def Holds (t : Txn B) (b : List (TxnEntry B)) : Prop :=
  t.nentries = b.length ∧ ∀ k, t.entries k = b.getD k zeroEntry

def Fits (t : Txn B) (p : Phase B) : Prop :=
  (t.status = .active ∧ ∃ b, p = .live b ∧ Holds t b) ∨ (t.status = .committed ∧ ∃ b k, p = .committing b k ∧ Holds t b)

/-- Slots and transactions that have one belong to each other. -/
structure Slots (txns : Nat → Txn B) (states : Nat → Phase B) : Prop where
  fits : ∀ i < maxActive, (txns i).id ≠ 0 → Fits (txns i) (states (txns i).id)
  one : ∀ i < maxActive, ∀ j < maxActive, (txns i).id ≠ 0 → (txns j).id = (txns i).id → j = i
  homes : ∀ id b, states id = .live b → ∃ i < maxActive, (txns i).id = id

def Runs (c : Commit) (p : Phase B) : Prop :=
  ∃ b, p = .committing b c.i ∧ c.nentries = b.length ∧ c.i ≤ b.length

/-- The commits in progress own their slots. -/
structure Calls (txns : Nat → Txn B) (calls : Nat → Option Commit) (states : Nat → Phase B) : Prop where
  owns : ∀ t c, calls t = some c → c.slot < maxActive ∧ (txns c.slot).id = c.id ∧ c.id ≠ 0 ∧ Runs c (states c.id)
  one : ∀ t c u d, calls t = some c → calls u = some d → d.id = c.id → u = t

structure Inv (w : World B) (states : Nat → Phase B) : Prop where
  rep : Replays Phase.next .unborn w.hist states
  bound : w.tm.nextId < 2 ^ 64
  fresh : ∀ id, (if w.tm.nextId = 0 then 2 ^ 64 else w.tm.nextId) ≤ id → states id = .unborn
  zero : states 0 = .unborn
  slots : Slots w.tm.txns states
  calls : Calls w.tm.txns w.calls states

theorem fitsNotUnborn {t : Txn B} {p : Phase B} (h : Fits t p) : p ≠ .unborn := by
  rintro rfl
  rcases h with ⟨-,b,h,-⟩ | ⟨-,b,k,h,-⟩ <;> contradiction

/-- One slot and the transaction it belongs to, or is given to, move together. -/
theorem Slots.move {txns : Nat → Txn B} {states : Nat → Phase B} (h : Slots txns states) (zero : states 0 = .unborn)
    {i n : Nat} {t : Txn B} {p : Phase B} (hi : i < maxActive) (hn : n ≠ 0)
    (owner : (txns i).id = n ∨ ((txns i).id = 0 ∧ states n = .unborn))
    (fits : (t.id = 0 ∧ ∀ b, p ≠ .live b) ∨ (t.id = n ∧ Fits t p)) :
    Slots (Function.update txns i t) (Function.update states n p) := by
  have other : ∀ j < maxActive, j ≠ i → (txns j).id ≠ 0 → (txns j).id ≠ n := by
    intro j hj ne nz same
    rcases owner with own | ⟨-,new⟩
    · exact ne (h.one i hi j hj (own ▸ hn) (same.trans own.symm))
    · exact fitsNotUnborn (h.fits j hj nz) (same ▸ new)
  refine ⟨fun j hj nz => ?_,fun j hj k hk nz same => ?_,fun id b live => ?_⟩
  · by_cases at_ : j = i
    · subst at_
      rw [Function.update_self] at nz ⊢
      rcases fits with ⟨z,-⟩ | ⟨own,f⟩
      · exact absurd z nz
      · rw [own,Function.update_self]; exact f
    · rw [Function.update_of_ne at_] at nz ⊢
      rw [Function.update_of_ne (other j hj at_ nz)]
      exact h.fits j hj nz
  · by_cases jAt : j = i <;> by_cases kAt : k = i
    · exact kAt.trans jAt.symm
    · subst jAt
      rw [Function.update_self] at nz same
      rw [Function.update_of_ne kAt] at same
      rcases fits with ⟨z,-⟩ | ⟨own,-⟩
      · exact absurd z nz
      · exact absurd (same.trans own) (other k hk kAt (by rw [same]; exact nz))
    · subst kAt
      rw [Function.update_of_ne jAt] at nz same
      rw [Function.update_self] at same
      rcases fits with ⟨z,-⟩ | ⟨own,-⟩
      · exact absurd (same.symm.trans z) nz
      · exact absurd (same.symm.trans own) (other j hj jAt nz)
    · rw [Function.update_of_ne jAt] at nz same
      rw [Function.update_of_ne kAt] at same
      exact h.one j hj k hk nz same
  · by_cases same : id = n
    · subst same
      rw [Function.update_self] at live
      rcases fits with ⟨-,dead⟩ | ⟨own,-⟩
      · exact absurd live (dead b)
      · exact ⟨i,hi,by rw [Function.update_self]; exact own⟩
    · rw [Function.update_of_ne same] at live
      obtain ⟨j,hj,own⟩ := h.homes id b live
      have nz : id ≠ 0 := fun z => by rw [z,zero] at live; contradiction
      have ne : j ≠ i := by
        rintro rfl
        rcases owner with o | ⟨z,-⟩
        · exact same (own.symm.trans o)
        · exact nz (own.symm.trans z)
      exact ⟨j,hj,by rw [Function.update_of_ne ne]; exact own⟩

/-- A commit in progress does not notice what happens to other transactions. -/
theorem Calls.keep {txns : Nat → Txn B} {calls : Nat → Option Commit} {states : Nat → Phase B}
    (h : Calls txns calls states) {i n : Nat} {t : Txn B} {p : Phase B}
    (owner : (txns i).id = n ∨ (txns i).id = 0) (idle : ∀ b k, states n ≠ .committing b k) :
    Calls (Function.update txns i t) calls (Function.update states n p) := by
  refine ⟨fun u c hc => ?_,h.one⟩
  obtain ⟨slot,own,nz,runs⟩ := h.owns u c hc
  have ne : c.id ≠ n := by
    rintro same
    obtain ⟨b,at_,-⟩ := runs
    exact idle b c.i (same ▸ at_)
  have away : c.slot ≠ i := by
    rintro rfl
    rcases owner with o | z
    · exact ne (own.symm.trans o)
    · exact nz (own.symm.trans z)
  rw [Function.update_of_ne away,Function.update_of_ne ne]
  exact ⟨slot,own,nz,runs⟩

/-- One thread starts, continues or ends the commit of `n`, on the slot of `n`. -/
theorem Calls.move {txns : Nat → Txn B} {calls : Nat → Option Commit} {states : Nat → Phase B}
    (h : Calls txns calls states) {i n u : Nat} {t : Txn B} {p : Phase B} {oc : Option Commit} (hi : i < maxActive)
    (hn : n ≠ 0) (owner : (txns i).id = n) (sole : ∀ v c, calls v = some c → c.id = n → v = u)
    (fits : ∀ c, oc = some c → c.slot = i ∧ c.id = n ∧ t.id = n ∧ Runs c p) :
    Calls (Function.update txns i t) (Function.update calls u oc) (Function.update states n p) := by
  have rest : ∀ v c, v ≠ u → calls v = some c → c.id ≠ n ∧ c.slot ≠ i := by
    intro v c ne hc
    have idNe : c.id ≠ n := fun same => ne (sole v c hc same)
    refine ⟨idNe,?_⟩
    rintro rfl
    exact idNe ((h.owns v c hc).2.1.symm.trans owner)
  refine ⟨fun v c hc => ?_,fun v c x d hc hd same => ?_⟩
  · by_cases at_ : v = u
    · subst at_
      rw [Function.update_self] at hc
      obtain ⟨slot,id,own,runs⟩ := fits c hc
      rw [slot,id,Function.update_self,Function.update_self]
      exact ⟨hi,own,hn,runs⟩
    · rw [Function.update_of_ne at_] at hc
      obtain ⟨idNe,slotNe⟩ := rest v c at_ hc
      rw [Function.update_of_ne slotNe,Function.update_of_ne idNe]
      exact h.owns v c hc
  · by_cases vAt : v = u <;> by_cases xAt : x = u
    · exact xAt.trans vAt.symm
    · subst vAt
      rw [Function.update_self] at hc
      rw [Function.update_of_ne xAt] at hd
      exact absurd (same.trans (fits c hc).2.1) (rest x d xAt hd).1
    · subst xAt
      rw [Function.update_of_ne vAt] at hc
      rw [Function.update_self] at hd
      exact absurd (same.symm.trans (fits d hd).2.1) (rest v c vAt hc).1
    · rw [Function.update_of_ne vAt] at hc
      rw [Function.update_of_ne xAt] at hd
      exact h.one v c x d hc hd same

theorem holdsSnoc {t : Txn B} {b : List (TxnEntry B)} (h : Holds t b) (wr : Write B) :
    Holds {t with
      entries := Function.update t.entries t.nentries (wr.fill (t.entries t.nentries))
      nentries := t.nentries + 1} (b ++ [wr.entry]) := by
  obtain ⟨count,held⟩ := h
  have blank : t.entries t.nentries = zeroEntry := by rw [held,count]; simp
  refine ⟨by simp [count],fun k => ?_⟩
  rw [blank,count]
  show Function.update t.entries b.length (wr.fill zeroEntry) k = _
  by_cases last : k = b.length
  · subst last
    simp [Write.entry]
  · rw [Function.update_of_ne last,held]
    by_cases low : k < b.length
    · simp [List.getD,List.getElem?_append_left low]
    · simp [List.getD,List.getElem?_append_right (Nat.le_of_not_lt low),
        List.getElem?_eq_none (Nat.le_of_not_lt low),show ¬ k - b.length < 1 by omega]

theorem findSlotSome {tm : TxnManager B} {id i : Nat} (h : findSlot tm id = some i) :
    i < maxActive ∧ (tm.txns i).id = id ∧ (tm.txns i).status = .active := by
  have found := List.find?_some h
  exact ⟨List.mem_range.mp (List.mem_of_find?_eq_some h),by simpa using found⟩

theorem findFreeSlotSome {tm : TxnManager B} {i : Nat} (h : findFreeSlot tm = some i) : i < maxActive :=
  List.mem_range.mp (List.mem_of_find?_eq_some h)

theorem Inv.live {w : World B} {states : Nat → Phase B} (h : Inv w states) {id i : Nat} (nz : id ≠ 0)
    (found : findSlot w.tm id = some i) :
    i < maxActive ∧ (w.tm.txns i).id = id ∧ ∃ b, states id = .live b ∧ Holds (w.tm.txns i) b := by
  obtain ⟨hi,own,active⟩ := findSlotSome found
  refine ⟨hi,own,?_⟩
  rcases own ▸ h.slots.fits i hi (by rw [own]; exact nz) with ⟨-,b,at_,holds⟩ | ⟨committed,-⟩
  · exact ⟨b,at_,holds⟩
  · rw [active] at committed; contradiction

theorem Inv.find {w : World B} {states : Nat → Phase B} (h : Inv w states) {id : Nat} {b : List (TxnEntry B)}
    (live : states id = .live b) : ∃ i, findSlot w.tm id = some i ∧ Holds (w.tm.txns i) b := by
  obtain ⟨i,hi,own⟩ := h.slots.homes id b live
  have nz : id ≠ 0 := fun z => by rw [z,h.zero] at live; contradiction
  rcases own ▸ h.slots.fits i hi (by rw [own]; exact nz) with ⟨active,-⟩ | ⟨-,b',k,committing,-⟩
  · cases found : findSlot w.tm id with
    | none =>
      have := List.find?_eq_none.mp found i (List.mem_range.mpr hi)
      simp [own,active] at this
    | some j =>
      obtain ⟨-,-,b',live',holds⟩ := h.live nz found
      rw [live] at live'
      cases live'
      exact ⟨j,rfl,holds⟩
  · rw [live] at committing; contradiction

theorem Inv.bornIds {w : World B} {states : Nat → Phase B} (h : Inv w states) {id : Nat}
    (born : states id ≠ .unborn) : id ≠ 0 ∧ ¬ (if w.tm.nextId = 0 then 2 ^ 64 else w.tm.nextId) ≤ id :=
  ⟨fun z => born (z ▸ h.zero),fun le => born (h.fresh id le)⟩

/-- The part of the invariant that no step but `txn_begin` touches, after `id` moved to `p`. -/
theorem Inv.idle {w : World B} {states : Nat → Phase B} (h : Inv w states) {id : Nat} (born : states id ≠ .unborn)
    (p : Phase B) : (∀ j, (if w.tm.nextId = 0 then 2 ^ 64 else w.tm.nextId) ≤ j → Function.update states id p j = .unborn) ∧
      Function.update states id p 0 = .unborn := by
  obtain ⟨nz,low⟩ := h.bornIds born
  refine ⟨fun j le => ?_,?_⟩
  · have ne : j ≠ id := fun same => low (by rw [← same]; exact le)
    rw [Function.update_of_ne ne]
    exact h.fresh j le
  · rw [Function.update_of_ne (Ne.symm nz)]
    exact h.zero

theorem stepBegin {w : World B} {states : Nat → Phase B} (h : Inv w states) {now : Int}
    (ok : spares w (.begin now)) {w' : World B} (run : step w (.begin now) = some w') : ∃ states', Inv w' states' := by
  obtain ⟨nz,free⟩ := ok
  cases found : findFreeSlot w.tm with
  | none =>
    simp only [step,txnBegin,found,if_true,Option.some.injEq] at run
    exact ⟨states,run ▸ h⟩
  | some i =>
    have hi := findFreeSlotSome found
    have unowned : (w.tm.txns i).id = idNone := by simpa [found] using free
    simp only [step,txnBegin,found,if_neg (show w.tm.nextId ≠ idNone from nz),Option.some.injEq] at run
    subst run
    have new : states w.tm.nextId = .unborn := h.fresh _ (Nat.le_of_eq (if_neg nz))
    have others : ∀ id, id ≠ w.tm.nextId → Function.update states w.tm.nextId (.live []) id = states id :=
      fun id ne => Function.update_of_ne ne _ _
    refine ⟨Function.update states w.tm.nextId (.live []),⟨?_,?_,?_,?_,?_,?_⟩⟩
    · exact replaysSnoc _ _ h.rep (by rw [new]; rfl)
    · exact Nat.mod_lt _ (by decide)
    · intro id le
      have bound := h.bound
      have above : w.tm.nextId < id := by
        simp only at le
        split at le <;> omega
      rw [others id (by omega)]
      exact h.fresh id (by rw [if_neg nz]; omega)
    · rw [others 0 (Ne.symm nz)]; exact h.zero
    · exact h.slots.move h.zero hi nz (.inr ⟨unowned,new⟩) (.inr ⟨rfl,.inl ⟨rfl,[],rfl,rfl,fun k => by simp⟩⟩)
    · exact h.calls.keep (.inr unowned) fun b k committing => by rw [new] at committing; contradiction

theorem stepBuffer {w : World B} {states : Nat → Phase B} (h : Inv w states) {id : Nat} {wr : Write B}
    {w' : World B} (run : step w (.buffer id wr) = some w') : ∃ states', Inv w' states' := by
  simp only [step,txnBuffer] at run
  by_cases nz : id = idNone
  · simp only [if_pos nz] at run
    exact ⟨states,Option.some.inj run ▸ h⟩
  · rw [if_neg nz] at run
    cases found : findSlot w.tm id with
    | none =>
      simp only [found] at run
      exact ⟨states,Option.some.inj run ▸ h⟩
    | some i =>
      simp only [found] at run
      by_cases room : (w.tm.txns i).nentries ≥ maxEntries
      · simp only [if_pos room] at run
        exact ⟨states,Option.some.inj run ▸ h⟩
      · simp only [if_neg room,if_true,Option.some.injEq] at run
        subst run
        obtain ⟨hi,own,b,live,holds⟩ := h.live nz found
        have born : states id ≠ .unborn := by rw [live]; rintro ⟨⟩
        obtain ⟨fresh,zero⟩ := h.idle born (.live (b ++ [wr.entry]))
        refine ⟨Function.update states id (.live (b ++ [wr.entry])),⟨?_,h.bound,fresh,zero,?_,?_⟩⟩
        · exact replaysSnoc _ _ h.rep (by rw [live]; rfl)
        · exact h.slots.move h.zero hi nz (.inl own) (.inr ⟨own,.inl ⟨(findSlotSome found).2.2,_,rfl,holdsSnoc holds wr⟩⟩)
        · exact h.calls.keep (.inl own) fun b' k committing => by rw [live] at committing; contradiction

/-- Dropping a live transaction, by its owner or by the sweep. -/
theorem dropLive {w : World B} {states : Nat → Phase B} (h : Inv w states) {id i : Nat} (nz : id ≠ 0)
    (hi : i < maxActive) (own : (w.tm.txns i).id = id) {b : List (TxnEntry B)} (live : states id = .live b)
    {m : Mark B} (drops : Phase.next (.live b) m = some .dropped) :
    Inv {w with tm := w.tm.set i (w.tm.txns i).drop, hist := w.hist ++ [(id,m)]} (Function.update states id .dropped) := by
  have born : states id ≠ .unborn := by rw [live]; rintro ⟨⟩
  obtain ⟨fresh,zero⟩ := h.idle born .dropped
  refine ⟨replaysSnoc _ _ h.rep (by rw [live]; exact drops),h.bound,fresh,zero,?_,?_⟩
  · exact h.slots.move h.zero hi nz (.inl own) (.inl ⟨rfl,nofun⟩)
  · exact h.calls.keep (.inl own) fun b' k committing => by rw [live] at committing; contradiction

theorem stepRollback {w : World B} {states : Nat → Phase B} (h : Inv w states) {id : Nat}
    {w' : World B} (run : step w (.rollback id) = some w') : ∃ states', Inv w' states' := by
  by_cases nz : id = idNone
  · simp only [step,txnRollback,if_pos nz] at run
    exact ⟨states,Option.some.inj run ▸ h⟩
  · cases found : findSlot w.tm id with
    | none =>
      simp only [step,txnRollback,if_neg nz,found] at run
      exact ⟨states,Option.some.inj run ▸ h⟩
    | some i =>
      simp only [step,txnRollback,if_neg nz,found,if_true,Option.some.injEq] at run
      subst run
      obtain ⟨hi,own,b,live,-⟩ := h.live nz found
      exact ⟨_,dropLive h nz hi own live rfl⟩

theorem sweepSlotInv {w : World B} {states : Nat → Phase B} (h : Inv w states) (now timeout : Int) {i : Nat}
    (hi : i < maxActive) : ∃ states', Inv (sweepSlot now timeout w i) states' := by
  unfold sweepSlot timeoutSlot
  by_cases skip : (w.tm.txns i).status ≠ .active ∨ (w.tm.txns i).id = idNone
  · simp only [if_pos skip]
    exact ⟨states,h⟩
  · simp only [if_neg skip]
    by_cases late : now - (w.tm.txns i).beginTs > timeout
    · simp only [if_pos late]
      simp only [not_or,Decidable.not_not] at skip
      rcases h.slots.fits i hi skip.2 with ⟨-,b,live,-⟩ | ⟨committed,-⟩
      · exact ⟨_,dropLive h skip.2 hi rfl live rfl⟩
      · rw [skip.1] at committed; contradiction
    · simp only [if_neg late]
      exact ⟨states,h⟩

theorem stepSweep {w : World B} {states : Nat → Phase B} (h : Inv w states) {now timeout : Int}
    {w' : World B} (run : step w (.sweep now timeout) = some w') : ∃ states', Inv w' states' := by
  have turns : ∀ (is : List Nat), (∀ i ∈ is, i < maxActive) → ∀ (w : World B) (states : Nat → Phase B),
      Inv w states → ∃ states', Inv (is.foldl (sweepSlot now timeout) w) states' := by
    intro is
    induction is with
    | nil => exact fun _ w states h => ⟨states,h⟩
    | cons i is ih =>
      intro below w states h
      obtain ⟨states1,h1⟩ := sweepSlotInv h now timeout (below i (by simp))
      exact ih (fun j hj => below j (by simp [hj])) _ states1 h1
  simp only [step,Option.some.injEq] at run
  subst run
  split
  · exact ⟨states,h⟩
  · exact turns _ (fun i hi => List.mem_range.mp hi) w states h

theorem stepCommit {w : World B} {states : Nat → Phase B} (h : Inv w states) {u id : Nat}
    {w' : World B} (run : step w (.commit u id) = some w') : ∃ states', Inv w' states' := by
  cases idle : w.calls u with
  | some c => simp [step,idle] at run
  | none =>
    simp only [step,idle,commitMark] at run
    by_cases nz : id = idNone
    · simp only [if_pos nz] at run
      exact ⟨states,Option.some.inj run ▸ h⟩
    · rw [if_neg nz] at run
      cases found : findSlot w.tm id with
      | none =>
        simp only [found] at run
        exact ⟨states,Option.some.inj run ▸ h⟩
      | some i =>
        simp only [found,Option.some.injEq] at run
        subst run
        obtain ⟨hi,own,b,live,count,held⟩ := h.live nz found
        have born : states id ≠ .unborn := by rw [live]; rintro ⟨⟩
        obtain ⟨fresh,zero⟩ := h.idle born (.committing b 0)
        refine ⟨Function.update states id (.committing b 0),⟨?_,h.bound,fresh,zero,?_,?_⟩⟩
        · exact replaysSnoc _ _ h.rep (by rw [live]; rfl)
        · exact h.slots.move h.zero hi nz (.inl own) (.inr ⟨own,.inr ⟨rfl,b,0,rfl,count,held⟩⟩)
        · refine h.calls.move hi nz own (fun v c hc same => ?_) (fun c hc => ?_)
          · obtain ⟨-,-,-,b',committing,-⟩ := h.calls.owns v c hc
            rw [same,live] at committing
            contradiction
          · cases Option.some.inj hc
            exact ⟨rfl,rfl,own,b,rfl,count,Nat.zero_le _⟩

theorem stepApply {w : World B} {states : Nat → Phase B} (h : Inv w states) {u : Nat} {rc : Int}
    {w' : World B} (run : step w (.apply u rc) = some w') : ∃ states', Inv w' states' := by
  cases call : w.calls u with
  | none => simp [step,call] at run
  | some c =>
    simp only [step,call] at run
    split at run <;> try contradiction
    rename_i more
    cases Option.some.inj run
    obtain ⟨hi,own,nz,b,committing,count,done⟩ := h.calls.owns u c call
    simp only [Commit.more,decide_eq_true_eq] at more
    rcases h.slots.fits c.slot hi (own ▸ nz) with ⟨-,b',live,-⟩ | ⟨status,b',k,at_,holds,held⟩
    · rw [own,committing] at live; contradiction
    · rw [own,committing] at at_
      cases at_
      have born : states c.id ≠ .unborn := by rw [committing]; rintro ⟨⟩
      obtain ⟨fresh,zero⟩ := h.idle born (.committing b (c.i + 1))
      have read : b[c.i]? = some (commitEntry w.tm c) := by
        have low : c.i < b.length := by omega
        rw [commitEntry,held]
        simp [low]
      have stay : w.tm.txns = Function.update w.tm.txns c.slot (w.tm.txns c.slot) := by simp
      refine ⟨Function.update states c.id (.committing b (c.i + 1)),⟨?_,h.bound,fresh,zero,?_,?_⟩⟩
      · refine replaysSnoc _ _ h.rep ?_
        simp only [committing,Phase.next,read,if_true]
      · show Slots w.tm.txns _
        rw [stay]
        exact h.slots.move h.zero hi nz (.inl own) (.inr ⟨own,.inr ⟨status,b,c.i + 1,rfl,holds,held⟩⟩)
      · show Calls w.tm.txns _ _
        rw [stay]
        refine h.calls.move hi nz own (fun v d hd same => h.calls.one u c v d call hd same) (fun d hd => ?_)
        cases Option.some.inj hd
        exact ⟨rfl,rfl,own,b,rfl,count,by show c.i + 1 ≤ b.length; omega⟩

theorem stepFinish {w : World B} {states : Nat → Phase B} (h : Inv w states) {u : Nat}
    {w' : World B} (run : step w (.finish u) = some w') : ∃ states', Inv w' states' := by
  cases call : w.calls u with
  | none => simp [step,call] at run
  | some c =>
    simp only [step,call] at run
    split at run <;> try contradiction
    rename_i stop
    cases Option.some.inj run
    obtain ⟨hi,own,nz,b,committing,count,done⟩ := h.calls.owns u c call
    simp only [Commit.more,decide_eq_true_eq,not_and] at stop
    have born : states c.id ≠ .unborn := by rw [committing]; rintro ⟨⟩
    obtain ⟨fresh,zero⟩ := h.idle born (.returned b c.i c.rc)
    refine ⟨Function.update states c.id (.returned b c.i c.rc),⟨?_,h.bound,fresh,zero,?_,?_⟩⟩
    · refine replaysSnoc _ _ h.rep ?_
      have all : c.rc = 0 → c.i = b.length := fun zero => by
        by_cases low : c.i < c.nentries
        · exact absurd zero (stop low)
        · omega
      simp only [committing,Phase.next]
      rw [if_pos all]
    · exact h.slots.move h.zero hi nz (.inl own) (.inl ⟨rfl,nofun⟩)
    · exact h.calls.move hi nz own (fun v d hd same => h.calls.one u c v d call hd same) nofun

theorem stepInv (w : World B) (e : Event B) (w' : World B) (h : ∃ states, Inv w states) (ok : spares w e)
    (run : step w e = some w') : ∃ states, Inv w' states := by
  obtain ⟨states,h⟩ := h
  cases e with
  | begin now => exact stepBegin h ok run
  | buffer id wr => exact stepBuffer h run
  | rollback id => exact stepRollback h run
  | sweep now timeout => exact stepSweep h run
  | commit u id => exact stepCommit h run
  | apply u rc => exact stepApply h run
  | finish u => exact stepFinish h run

theorem startInv : Inv (start : World B) fun _ => .unborn where
  rep := replaysNil _ _
  bound := Nat.one_lt_two_pow (by decide)
  fresh := fun _ _ => rfl
  zero := rfl
  slots := ⟨fun i _ nz => absurd rfl nz,fun i _ _ _ nz => absurd rfl nz,nofun⟩
  calls := ⟨nofun,nofun⟩

def Mark.bufferedEntry : Mark B → Option (TxnEntry B)
  | .buffered e => some e
  | _ => none

def Mark.appliedEntry : Mark B → Option (TxnEntry B)
  | .applied e => some e
  | _ => none

/-- The entries a transaction was given, and the entries its commit handed to the callback. -/
def bufferedIn (id : Nat) (h : List (Nat × Mark B)) : List (TxnEntry B) := (facts id h).filterMap Mark.bufferedEntry

def appliedIn (id : Nat) (h : List (Nat × Mark B)) : List (TxnEntry B) := (facts id h).filterMap Mark.appliedEntry

/-- What the marks of a transaction in a phase say. -/
def Told (l : List (Mark B)) : Phase B → Prop
  | .unborn => l = []
  | .live b => l.filterMap Mark.bufferedEntry = b ∧ l.filterMap Mark.appliedEntry = [] ∧
      .rolledBack ∉ l ∧ .timedOut ∉ l ∧ ∀ rc, .returned rc ∉ l
  | .dropped => l.filterMap Mark.appliedEntry = [] ∧ (.rolledBack ∈ l ∨ .timedOut ∈ l) ∧ ∀ rc, .returned rc ∉ l
  | .committing b k => l.filterMap Mark.bufferedEntry = b ∧ l.filterMap Mark.appliedEntry = b.take k ∧
      .rolledBack ∉ l ∧ .timedOut ∉ l ∧ .marked ∈ l ∧ ∀ rc, .returned rc ∉ l
  | .returned b k rc => l.filterMap Mark.bufferedEntry = b ∧ l.filterMap Mark.appliedEntry = b.take k ∧
      .rolledBack ∉ l ∧ .timedOut ∉ l ∧ .marked ∈ l ∧ (∀ rc', .returned rc' ∈ l → rc' = rc) ∧ (rc = 0 → k = b.length)

theorem toldNext {l : List (Mark B)} {p q : Phase B} {m : Mark B} (told : Told l p) (move : p.next m = some q) :
    Told (l ++ [m]) q := by
  unfold Phase.next at move
  split at move
  · cases move
    cases told
    simp [Told,Mark.bufferedEntry,Mark.appliedEntry]
  · cases move
    obtain ⟨buf,app,rb,late,ret⟩ := told
    simp [Told,Mark.bufferedEntry,Mark.appliedEntry,buf,app,rb,late,ret]
  · cases move
    obtain ⟨buf,app,rb,late,ret⟩ := told
    simp [Told,Mark.appliedEntry,app,ret]
  · cases move
    obtain ⟨buf,app,rb,late,ret⟩ := told
    simp [Told,Mark.appliedEntry,app,ret]
  · cases move
    obtain ⟨buf,app,rb,late,ret⟩ := told
    simp [Told,Mark.bufferedEntry,Mark.appliedEntry,buf,app,rb,late,ret]
  · rename_i b k e
    split at move <;> try contradiction
    rename_i read
    cases move
    obtain ⟨buf,app,rb,late,mk,ret⟩ := told
    have more : b.take (k + 1) = b.take k ++ [e] := by rw [List.take_add_one,read]; rfl
    simp [Told,Mark.bufferedEntry,Mark.appliedEntry,buf,app,rb,late,mk,ret,more]
  · rename_i b k rc
    split at move <;> try contradiction
    rename_i all
    cases move
    obtain ⟨buf,app,rb,late,mk,ret⟩ := told
    simp [Told,Mark.bufferedEntry,Mark.appliedEntry,buf,app,rb,late,mk,ret]
    exact all
  · contradiction

theorem replayTold {l : List (Mark B)} {p : Phase B} (rep : Replay.run Phase.next .unborn l = some p) : Told l p := by
  induction l using List.reverseRecOn generalizing p with
  | nil => cases Option.some.inj rep; rfl
  | append_singleton l m ih =>
    rw [runSnoc] at rep
    obtain ⟨q,before,move⟩ := Option.bind_eq_some_iff.mp rep
    exact toldNext (ih before) move

/-- A commit that succeeded applied its entries once each and in order, what was rolled back or timed
out applied nothing, a commit only ever applies a front part of its own entries, and a transaction
still there finds its slot and its entries, also while it commits. -/
structure Safe (w : World B) : Prop where
  once : ∀ id, (id,.returned 0) ∈ w.hist → appliedIn id w.hist = bufferedIn id w.hist
  dropped : ∀ id, (id,.rolledBack) ∈ w.hist ∨ (id,.timedOut) ∈ w.hist → appliedIn id w.hist = []
  own : ∀ id, appliedIn id w.hist <+: bufferedIn id w.hist
  alive : ∀ id, (id,.began) ∈ w.hist → (id,.rolledBack) ∉ w.hist → (id,.timedOut) ∉ w.hist → (id,.marked) ∉ w.hist →
    ∃ i, findSlot w.tm id = some i ∧ Holds (w.tm.txns i) (bufferedIn id w.hist)
  inProgress : ∀ u c, w.calls u = some c → (w.tm.txns c.slot).id = c.id ∧
    Holds (w.tm.txns c.slot) (bufferedIn c.id w.hist) ∧ appliedIn c.id w.hist = (bufferedIn c.id w.hist).take c.i

theorem commitsOnce {es : List (Event B)} {w : World B} (clean : along step spares start es)
    (reach : Replay.run step start es = some w) : Safe w := by
  obtain ⟨states,h⟩ := runInvariant stepInv ⟨_,startInv⟩ clean reach
  have told : ∀ id, Told (facts id w.hist) (states id) := fun id => replayTold (h.rep id)
  refine ⟨fun id ok => ?_,fun id gone => ?_,fun id => ?_,fun id began rb late mk => ?_,fun u c call => ?_⟩
  all_goals simp only [appliedIn,bufferedIn]
  · rw [← factsMem] at ok
    have := told id
    cases at_ : states id <;> rw [at_] at this
    case unborn => rw [this] at ok; contradiction
    case live => exact absurd ok (this.2.2.2.2 0)
    case dropped => exact absurd ok (this.2.2 0)
    case committing => exact absurd ok (this.2.2.2.2.2 0)
    case returned b k rc =>
      obtain ⟨buf,app,-,-,-,ret,all⟩ := this
      rw [buf,app,all (ret 0 ok).symm,List.take_length]
  · rw [← factsMem,← factsMem] at gone
    have := told id
    cases at_ : states id <;> rw [at_] at this
    case unborn => rw [this] at gone; simp at gone
    case live => exact absurd gone (by simp [this.2.2.1,this.2.2.2.1])
    case dropped => exact this.1
    case committing => exact absurd gone (by simp [this.2.2.1,this.2.2.2.1])
    case returned b k rc => exact absurd gone (by simp [this.2.2.1,this.2.2.2.1])
  · have := told id
    cases at_ : states id <;> rw [at_] at this
    case unborn => rw [this]; simp
    case live => rw [this.2.1]; simp
    case dropped => rw [this.1]; simp
    case committing b k => rw [this.1,this.2.1]; exact List.take_prefix k b
    case returned b k rc => rw [this.1,this.2.1]; exact List.take_prefix k b
  · rw [← factsMem] at began rb late mk
    have := told id
    cases at_ : states id <;> rw [at_] at this
    case unborn => rw [this] at began; simp at began
    case live b =>
      obtain ⟨i,found,holds⟩ := h.find at_
      exact ⟨i,found,this.1 ▸ holds⟩
    case dropped => exact absurd this.2.1 (by simp [rb,late])
    case committing => exact absurd this.2.2.2.2.1 mk
    case returned => exact absurd this.2.2.2.2.1 mk
  · obtain ⟨hi,own,nz,b,committing,count,done⟩ := h.calls.owns u c call
    have := told c.id
    rw [committing] at this
    rcases h.slots.fits c.slot hi (own ▸ nz) with ⟨-,b',live,-⟩ | ⟨-,b',k,at_,holds⟩
    · rw [own,committing] at live; contradiction
    · rw [own,committing] at at_
      cases at_
      exact ⟨own,this.1 ▸ holds,by rw [this.1,this.2.1]⟩

/-- Two transactions, one committed with both its entries and one timed out. -/
def twoTransactions : List (Event Unit) :=
  [.begin 0,.buffer 1 (.insert (ascii "t") ()),.begin 0,.buffer 2 (.delete (ascii "t") 0),.buffer 1 (.delete (ascii "t") 24),
    .commit 0 1,.apply 0 0,.sweep 100 30,.apply 0 0,.finish 0]

theorem commitsOnceTwo : ∃ w, Replay.run step start twoTransactions = some w ∧ Safe w := by
  have reached : (Replay.run step start twoTransactions).isSome = true := by decide +kernel
  obtain ⟨w,reach⟩ := Option.isSome_iff_exists.mp reached
  exact ⟨w,reach,commitsOnce (by decide +kernel) reach⟩

/-- The second transaction begins while the first is still applying, and gets its slot. -/
def reusedSlot : List (Event Unit) :=
  [.begin 0,.buffer 1 (.insert (ascii "t") ()),.commit 0 1,.begin 0,.buffer 2 (.delete (ascii "u") 7),.apply 0 0,.finish 0]

/-- The commit of the first succeeds after applying the entry of the second, which is gone. -/
theorem commitAppliesForeign : ∃ w, Replay.run step start reusedSlot = some w ∧ (1,.returned 0) ∈ w.hist ∧
    bufferedIn 1 w.hist = [Write.entry (.insert (ascii "t") ())] ∧
    appliedIn 1 w.hist = [Write.entry (.delete (ascii "u") 7)] ∧ findSlot w.tm 2 = none ∧ ¬ Safe w := by
  have seen : (Replay.run step start reusedSlot).map (fun w => (decide ((1,.returned 0) ∈ w.hist),
      bufferedIn 1 w.hist,appliedIn 1 w.hist,findSlot w.tm 2)) =
      some (true,[Write.entry (.insert (ascii "t") ())],[Write.entry (.delete (ascii "u") 7)],none) := by decide
  obtain ⟨w,reach,same⟩ := Option.map_eq_some_iff.mp seen
  simp only [Prod.mk.injEq,decide_eq_true_eq] at same
  obtain ⟨ok,buf,app,lost⟩ := same
  refine ⟨w,reach,ok,buf,app,lost,fun safe => ?_⟩
  have := safe.once 1 ok
  rw [buf,app] at this
  exact absurd this (by decide)

end Napastak.Txns
