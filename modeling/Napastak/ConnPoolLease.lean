import Napastak.ConnPoolRuns
import Mathlib.Combinatorics.Enumerative.DoubleCounting

/-! What a lease promises over every run, how many sessions a connection has, and what an invalidation ends. -/
namespace Napastak.ConnPool
open Replay

/-- A ping of the session is under way. -/
def Call.Pings (n : Nat) : Call → Prop
  | .verifying _ m _ | .pinging _ _ m => m = n
  | _ => False

/-- A session has one lease at most, is open and in its slot while it has one, and is not pinged. -/
structure Exclusive (w : World) : Prop where
  alone : ∀ c c' k k' n, w.calls c = .holding k n → w.calls c' = .holding k' n → c = c'
  kept : ∀ c k n, w.calls c = .holding k n → (w.slots k).inst = some n ∧ n ∈ w.alive
  unpinged : ∀ c c' k n, w.calls c = .holding k n → ¬ (w.calls c').Pings n

/-- The openings and sessions of a connection. -/
def World.sessions (w : World) (connId : Bytes) : Finset Nat := w.alive.filter fun n => w.begun[n]? = some connId

def Limited (w : World) : Prop := ∀ connId, (w.sessions connId).card ≤ w.maxPerConn

/-- An `acquire` that looks for a session finds no leased one of its connection with another fingerprint, and the
connection's id fits the slot. -/
def OneConfig (w : World) : Act → Prop
  | .enter c _ => match w.calls c with
    | .acquiring r => r.connId.length < 64 ∧ ∀ k, (w.slots k).used = true → (w.slots k).leased = true →
      (w.slots k).connId = r.connId → (w.slots k).fp = cfgFingerprint r.cfgJson
    | _ => True
  | _ => True

instance (w : World) (a : Act) : Decidable (OneConfig w a) := by
  cases a with
  | enter c now =>
    rw [OneConfig]
    split <;> infer_instance
  | _ => exact isTrue trivial

variable {w w' : World} {k : Fin maxSlots} {c : Nat} {n : Nat} {connId : Bytes}

theorem Sound.exclusive (sound : Sound w) : Exclusive w := by
  have owns : ∀ {c k n}, w.calls c = .holding k n → (w.calls c).owns = some (k,n) := fun call => by rw [call]; rfl
  have one : ∀ {c c' k k' n}, (w.calls c).owns = some (k,n) → (w.calls c').owns = some (k',n) → c = c' :=
    fun {c c' k k' n} first second => by
      have slot := sound.inv.distinct k k' n (.inr ⟨c,first⟩) (.inr ⟨c',second⟩)
      exact sound.inv.alone c c' k n n first (slot ▸ second)
  refine ⟨fun c c' k k' n call call' => one (owns call) (owns call'),fun c k n call => ?_,fun c c' k n call pings => ?_⟩
  · have inst := (sound.inv.busy c k n (owns call)).2.2
    rw [call] at inst
    exact ⟨inst,(sound.inv.alive n).mpr (.inl ⟨k,inst⟩)⟩
  · cases call' : w.calls c' with
    | verifying k' m r =>
      rw [call'] at pings
      have same := @one c c' k k' n (owns call) (by rw [call',← show m = n from pings]; rfl)
      rw [← same,call] at call'
      cases call'
    | pinging t k' m =>
      rw [call'] at pings
      have same := @one c c' k k' n (owns call) (by rw [call',← show m = n from pings]; rfl)
      rw [← same,call] at call'
      cases call'
    | _ =>
      rw [call'] at pings
      exact pings

/-! ### The limit -/

/-- The slots of the connection. -/
def World.slotsOf (w : World) (connId : Bytes) : Finset (Fin maxSlots) :=
  Finset.univ.filter fun k => (w.slots k).used = true ∧ (w.slots k).connId = connId

theorem memSlots : k ∈ w.slotsOf connId ↔ (w.slots k).used = true ∧ (w.slots k).connId = connId := by
  rw [World.slotsOf,Finset.mem_filter,and_iff_right (Finset.mem_univ k)]

/-- An opening or session that lives is at the slot. -/
def World.Lives (w : World) (k : Fin maxSlots) (n : Nat) : Prop :=
  (w.slots k).inst = some n ∨ ∃ c, (w.calls c).owns = some (k,n) ∧ (w.calls c).isLoading = true

theorem livesOne {n' : Nat} (sound : Sound w) (lives : w.Lives k n) (lives' : w.Lives k n') : n = n' := by
  have loads : ∀ {c m}, (w.calls c).owns = some (k,m) → (w.calls c).isLoading = true → (w.slots k).inst = none :=
    fun {c m} owns loading => by
      rw [(sound.inv.busy c k m owns).2.2]
      cases call : w.calls c <;> rw [call] at loading <;> first | rfl | cases loading
  rcases lives with inst | ⟨c,owns,loading⟩
  · rcases lives' with inst' | ⟨c',owns',loading'⟩
    · exact Option.some.inj (inst.symm.trans inst')
    · rw [loads owns' loading'] at inst
      cases inst
  · rcases lives' with inst' | ⟨c',owns',loading'⟩
    · rw [loads owns loading] at inst'
      cases inst'
    · have same := sound.inv.alone c c' k n n' owns owns'
      exact congrArg Prod.snd (Option.some.inj (owns.symm.trans (same ▸ owns')))

/-- Every opening and session has a slot of its own. -/
theorem sessionsLe (sound : Sound w) (connId : Bytes) : (w.sessions connId).card ≤ (w.slotsOf (connId.take 63)).card := by
  refine Finset.card_le_card_of_forall_subsingleton (fun n k => w.Lives k n) (fun n mem => ?_) fun k _ n mem n' mem' =>
    livesOne sound mem.2 mem'.2
  obtain ⟨living,begun⟩ := Finset.mem_filter.mp mem
  have place : ∃ k, w.At k n ∧ w.Lives k n ∧ (w.slots k).used = true := by
    rcases (sound.inv.alive n).mp living with ⟨k,inst⟩ | ⟨c,k,owns,loading⟩
    · refine ⟨k,.inl inst,.inl inst,(Bool.eq_false_or_eq_true _).resolve_right fun unused => ?_⟩
      rw [sound.inv.unused k unused] at inst
      cases inst
    · exact ⟨k,.inr ⟨c,owns⟩,.inr ⟨c,owns,loading⟩,(sound.inv.busy c k n owns).1⟩
  obtain ⟨k,at_,lives,used⟩ := place
  obtain ⟨id,is,named⟩ := sound.inv.origin k n at_
  rw [is] at begun
  cases begun
  exact ⟨k,memSlots.mpr ⟨used,named⟩,lives⟩

def SlotsLimited (w : World) : Prop := ∀ connId, (w.slotsOf connId).card ≤ w.maxPerConn

theorem slotsShrink (same : ∀ k, (w'.slots k).used = true → (w.slots k).used = true ∧ (w'.slots k).connId = (w.slots k).connId)
    (connId : Bytes) : w'.slotsOf connId ⊆ w.slotsOf connId := fun k mem => by
  obtain ⟨used,is⟩ := memSlots.mp mem
  exact memSlots.mpr ⟨(same k used).1,(same k used).2.symm.trans is⟩

theorem putShrinks {s : PoolSlot} {x : Call} {b : List Bytes} {a : Finset Nat}
    (same : s.used = true → (w.slots k).used = true ∧ s.connId = (w.slots k).connId) (k' : Fin maxSlots)
    (used : ((w.put k s c x b a).slots k').used = true) :
    (w.slots k').used = true ∧ ((w.put k s c x b a).slots k').connId = (w.slots k').connId := by
  by_cases here : k' = k
  · rw [here,putSlot] at used ⊢
    exact same used
  · rw [putSlotOther here] at used ⊢
    exact ⟨used,rfl⟩

/-- Only an `acquire` gives a slot to a connection. -/
theorem Effect.shrinks {by_ : Option Nat} (sound : Sound w) (effect : Effect w by_ w') : w'.maxPerConn = w.maxPerConn ∧
    ((∀ connId, w'.slotsOf connId ⊆ w.slotsOf connId) ∨ ∃ c r, by_ = some c ∧ w.calls c = .acquiring r) := by
  cases effect with
  | clear clears => exact ⟨clears.keeps.maxPerConn,.inl (slotsShrink clears.keeps.used)⟩
  | call _ clears => exact ⟨clears.keeps.maxPerConn,.inl (slotsShrink clears.keeps.used)⟩
  | take _ clears _ _ _ _ _ _ used _ _ connId =>
    refine ⟨clears.keeps.maxPerConn,.inl fun id => (slotsShrink (putShrinks fun isUsed => ?_) id).trans (slotsShrink clears.keeps.used id)⟩
    exact ⟨used.symm.trans isUsed,connId⟩
  | reserve by_ clears call => exact ⟨clears.keeps.maxPerConn,.inr ⟨_,_,by_,call⟩⟩
  | @proceed c x k n s _ _ owns _ _ _ _ connId =>
    refine ⟨rfl,.inl (slotsShrink (putShrinks fun _ => ⟨(sound.inv.busy c k n owns).1,?_⟩))⟩
    rcases connId with same | ⟨r,request,is⟩
    · exact same
    · obtain ⟨id,begun,named⟩ := sound.inv.origin k n (.inr ⟨c,owns⟩)
      rw [sound.asked c k n r owns request] at begun
      cases begun
      exact is.trans named.symm
  | leave _ _ _ _ _ used _ connId clears =>
    refine ⟨clears.keeps.maxPerConn,.inl fun id => (slotsShrink clears.keeps.used id).trans (slotsShrink (putShrinks fun isUsed => ?_) id)⟩
    exact ⟨used.symm.trans isUsed,connId⟩

/-- A scan that has found nothing has counted the slots of the connection. -/
theorem scanCounts {fp : Bytes} {now : Int} {ks : List (Fin maxSlots)} {mine m : Nat} {dead d : Option (Fin maxSlots)}
    (nodup : ks.Nodup) (uniform : ∀ k ∈ ks, (w.slots k).used = true → (w.slots k).leased = true → (w.slots k).connId = connId →
      (w.slots k).fp = fp) (scanned : scan connId fp now ks w mine dead = (w',.missing m d)) :
    m = mine + (ks.filter fun k => (w'.slots k).used ∧ (w'.slots k).connId = connId).length ∧
      (∀ k, k ∉ ks → w'.slots k = w.slots k) ∧
      ∀ k ∈ d, k ∈ dead ∨ k ∈ ks ∧ (w'.slots k).used = true ∧ (w'.slots k).connId = connId := by
  induction ks generalizing w mine dead with
  | nil =>
    cases scanned
    exact ⟨rfl,fun _ _ => rfl,fun _ => .inl⟩
  | cons k ks ih =>
    obtain ⟨fresh,nodup⟩ := List.nodup_cons.mp nodup
    have go : ∀ (w₁ : World) (mine' : Nat) (dead' : Option (Fin maxSlots)), (∀ k', k' ≠ k → w₁.slots k' = w.slots k') →
        scan connId fp now ks w₁ mine' dead' = (w',.missing m d) →
        m = mine' + (ks.filter fun k => (w'.slots k).used ∧ (w'.slots k).connId = connId).length ∧
          (∀ k', k' ∉ k :: ks → w'.slots k' = w.slots k') ∧ w'.slots k = w₁.slots k ∧
          ∀ k' ∈ d, k' ∈ dead' ∨ k' ∈ k :: ks ∧ (w'.slots k').used = true ∧ (w'.slots k').connId = connId := by
      intro w₁ mine' dead' apart scanned'
      have other : ∀ k' ∈ ks, k' ≠ k := fun k' mem same => fresh (same ▸ mem)
      obtain ⟨count,rest,deads⟩ := ih nodup (fun k' mem => by
        rw [apart k' (other k' mem)]
        exact uniform k' (List.mem_cons_of_mem k mem)) scanned'
      refine ⟨count,fun k' out => ?_,rest k fresh,fun k' mem => (deads k' mem).imp_right fun is => ⟨List.mem_cons_of_mem k is.1,is.2⟩⟩
      rw [List.mem_cons,not_or] at out
      rw [rest k' out.2,apart k' out.1]
    rw [scan] at scanned
    split at scanned
    · rename_i other
      obtain ⟨count,rest,here,deads⟩ := go w mine dead (fun _ _ => rfl) scanned
      refine ⟨?_,rest,deads⟩
      rw [List.filter_cons_of_neg,count]
      rw [here]
      simpa using fun used => other.resolve_left (by rw [used]; exact Bool.noConfusion)
    rename_i ours
    obtain ⟨used,is⟩ := not_or.mp ours
    rw [Bool.not_eq_false] at used
    rw [not_not] at is
    have counted : w'.slots k = w.slots k → (List.filter (fun k => (w'.slots k).used ∧ (w'.slots k).connId = connId) (k :: ks)).length =
        (List.filter (fun k => (w'.slots k).used ∧ (w'.slots k).connId = connId) ks).length + 1 := fun here => by
      rw [List.filter_cons_of_pos (by rw [here]; exact decide_eq_true ⟨used,is⟩),List.length_cons]
    split at scanned
    · rename_i apart
      split at scanned
      · rename_i leased
        exact absurd (uniform k List.mem_cons_self used leased is) apart
      · obtain ⟨count,rest,here,deads⟩ := go (w.slotFree k) mine dead (fun k' other => freeOther other) scanned
        refine ⟨?_,rest,deads⟩
        rw [List.filter_cons_of_neg,count]
        rw [here,freeHere]
        exact fun both => Bool.false_ne_true (of_decide_eq_true both).1
    split at scanned
    · obtain ⟨count,rest,here,deads⟩ := go w (mine + 1) dead (fun _ _ => rfl) scanned
      exact ⟨by rw [count,counted here]; omega,rest,deads⟩
    split at scanned
    · cases scanned
    · obtain ⟨count,rest,here,deads⟩ := go w (mine + 1) _ (fun _ _ => rfl) scanned
      refine ⟨by rw [count,counted here]; omega,rest,fun k' mem => ?_⟩
      rcases deads k' mem with first | later
      · cases dead with
        | some _ => exact .inl first
        | none =>
          cases first
          exact .inr ⟨List.mem_cons_self,by rw [here]; exact ⟨used,is⟩⟩
      · exact .inr later

theorem scanAll {fp : Bytes} {now : Int} {m : Nat} {d : Option (Fin maxSlots)}
    (uniform : ∀ k, (w.slots k).used = true → (w.slots k).leased = true → (w.slots k).connId = connId → (w.slots k).fp = fp)
    (scanned : scan connId fp now (List.finRange maxSlots) w 0 none = (w',.missing m d)) :
    m = (w'.slotsOf connId).card ∧ ∀ k ∈ d, k ∈ w'.slotsOf connId := by
  obtain ⟨count,_,deads⟩ := scanCounts (List.nodup_finRange maxSlots) (fun k _ => uniform k) scanned
  refine ⟨?_,fun k mem => memSlots.mpr ?_⟩
  · rw [count,Nat.zero_add,← List.toFinset_card_of_nodup ((List.nodup_finRange maxSlots).filter _)]
    congr 1
    ext k
    simp [memSlots]
  · rcases deads k mem with none_ | is
    · exact absurd none_ (Option.not_mem_none k)
    · exact is.2

/-- The slot of a new session is the only one its connection can gain. -/
theorem reserveSlots (w : World) (c : Nat) (k : Fin maxSlots) (r : Request) (id : Bytes) :
    (w.reserve c k r).slotsOf id ⊆ w.slotsOf id ∨ id = r.connId.take 63 ∧ (w.reserve c k r).slotsOf id ⊆ insert k (w.slotsOf id) := by
  have slot : ∀ k', k' ≠ k → (w.reserve c k r).slots k' = w.slots k' := fun k' other => Function.update_of_ne other ..
  have here : ((w.reserve c k r).slots k).connId = r.connId.take 63 := by
    show (Function.update w.slots k _ k).connId = _
    rw [Function.update_self]
  by_cases same : id = r.connId.take 63
  · refine .inr ⟨same,fun k' mem => ?_⟩
    by_cases at_ : k' = k
    · rw [at_]
      exact Finset.mem_insert_self ..
    · rw [memSlots,slot k' at_,← memSlots] at mem
      exact Finset.mem_insert_of_mem mem
  · refine .inl fun k' mem => ?_
    have at_ : k' ≠ k := fun at_ => same ((memSlots.mp (at_ ▸ mem)).2.symm.trans here)
    rw [memSlots,slot k' at_,← memSlots] at mem
    exact mem

theorem enterLimited {r : Request} {now : Int} (limited : SlotsLimited w) (short : r.connId.length < 64)
    (uniform : ∀ k, (w.slots k).used = true → (w.slots k).leased = true → (w.slots k).connId = r.connId →
      (w.slots k).fp = cfgFingerprint r.cfgJson) : SlotsLimited (w.enter c r now) := by
  have whole : r.connId.take 63 = r.connId := List.take_of_length_le (Nat.le_of_lt_succ short)
  have cleared : ∀ {w₁}, Clears w w₁ → SlotsLimited w₁ := fun clears id =>
    (Finset.card_le_card (slotsShrink clears.keeps.used id)).trans (clears.keeps.maxPerConn ▸ limited id)
  have reserved : ∀ {w₁ k}, SlotsLimited w₁ → (k ∈ w₁.slotsOf r.connId ∨ (w₁.slotsOf r.connId).card < w₁.maxPerConn) →
      SlotsLimited (w₁.reserve c k r) := fun {w₁ k} limited₁ room id => by
    rcases reserveSlots w₁ c k r id with shrinks | ⟨is,grows⟩
    · exact (Finset.card_le_card shrinks).trans (limited₁ id)
    · rw [whole] at is
      have card := Finset.card_le_card grows
      rcases room with mem | room
      · rw [Finset.insert_eq_of_mem (is ▸ mem)] at card
        exact card.trans (limited₁ id)
      · rw [← is] at room
        exact card.trans ((Finset.card_insert_le k _).trans room)
  unfold World.enter
  split
  · rename_i w' k n scanned
    obtain ⟨w₁,clears,_,_,rfl⟩ := scanClears (fun _ mem => absurd mem (Option.not_mem_none _)) scanned
    refine fun id => (Finset.card_le_card (slotsShrink (fun k' used => ?_) id)).trans (cleared clears id)
    exact putShrinks (s := {w₁.slots k with leased := true, lastUsed := now}) (c := c) (x := .holding k n) (b := w₁.begun)
      (a := w₁.alive) (fun isUsed => ⟨isUsed,rfl⟩) k' used
  · rename_i w' _ k scanned
    obtain ⟨w₁,clears,rfl,_⟩ := scanClears (fun _ mem => absurd mem (Option.not_mem_none _)) scanned
    have limited₁ := cleared clears
    split
    · exact limited₁
    · exact reserved limited₁ (.inl ((scanAll uniform scanned).2 k rfl))
  · rename_i w' mine scanned
    obtain ⟨w₁,clears,rfl,_⟩ := scanClears (fun _ mem => absurd mem (Option.not_mem_none _)) scanned
    split
    · rename_i room
      rw [(scanAll uniform scanned).1] at room
      split
      · exact reserved (cleared clears) (.inr room)
      · split
        · rename_i k found
          have free : Clears w' (w'.slotFree k) := .free (victimIdle found).2 .refl
          refine reserved (cleared (clears.trans free)) (.inr ?_)
          rw [free.keeps.maxPerConn]
          exact Nat.lt_of_le_of_lt (Finset.card_le_card (slotsShrink free.keeps.used r.connId)) room
        · exact cleared clears
    · exact cleared clears

theorem acquiringEnters {a : Act} {r : Request} (by_ : a.call = some c) (call : w.calls c = .acquiring r) (moved : step w a = some w') :
    ∃ now, a = .enter c now ∧ w' = w.enter c r now := by
  cases a <;> cases by_ <;> simp only [step,call] at moved <;> cases moved
  exact ⟨_,rfl,rfl⟩

theorem limitedStep {a : Act} (sound : Sound w) (limited : SlotsLimited w) (ok : OneConfig w a) (moved : step w a = some w') :
    SlotsLimited w' := by
  have effect := stepEffect sound.inv moved
  obtain ⟨maxPerConn,shrinks | ⟨c,r,by_,call⟩⟩ := effect.shrinks sound
  · intro id
    rw [maxPerConn]
    exact (Finset.card_le_card (shrinks id)).trans (limited id)
  · obtain ⟨now,rfl,rfl⟩ := acquiringEnters by_ call moved
    rw [OneConfig,call] at ok
    exact enterLimited limited ok.1 ok.2

theorem limitedKept (w : World) (a : Act) (w' : World) (inv : Sound w ∧ SlotsLimited w) (ok : OneConfig w a)
    (moved : step w a = some w') : Sound w' ∧ SlotsLimited w' :=
  ⟨inv.1.step moved,limitedStep inv.1 inv.2 ok moved⟩

theorem createLimited (maxPerConn idlePingSec : Int) :
    Sound (create maxPerConn idlePingSec) ∧ SlotsLimited (create maxPerConn idlePingSec) := by
  refine ⟨createSound maxPerConn idlePingSec,fun id => ?_⟩
  have none_ : (create maxPerConn idlePingSec).slotsOf id = ∅ :=
    Finset.eq_empty_of_forall_notMem fun k mem => (nomatch (memSlots.mp mem).1)
  rw [none_]
  exact Nat.zero_le _

/-- A lease has its session for itself in every state; while each search for a session finds no leased one of its
connection under another configuration, no connection has more sessions than it may. -/
theorem leasedAlone (maxPerConn idlePingSec : Int) {acts : List Act}
    (uniform : along step OneConfig (create maxPerConn idlePingSec) acts) (reach : run step (create maxPerConn idlePingSec) acts = some w) :
    Exclusive w ∧ Limited w := by
  have both := runInvariant limitedKept (createLimited maxPerConn idlePingSec) uniform reach
  exact ⟨both.1.exclusive,fun id => (sessionsLe both.1 id).trans (both.2 _)⟩

def pgRequest (cfg : String) : Request := ⟨ascii "pg",ascii "pg.so",ascii cfg,false,256⟩

/-- One call gets a session, another of the same configuration waits. -/
def oneWaits : List Act := [
  .acquire 0 (pgRequest "a"), .enter 0 10, .load 0 .loaded, .name 0 11, .relock 0, .acquire 1 (pgRequest "a"), .enter 1 12]

theorem oneWaitsKept : ∃ w, run step (create 1 60) oneWaits = some w ∧ w.calls 0 = .holding 0 0 ∧ Exclusive w ∧ Limited w := by
  have ran : ((run step (create 1 60) oneWaits).map fun w => w.calls 0) = some (.holding 0 0) := by decide
  obtain ⟨w,reach,holds⟩ := Option.map_eq_some_iff.mp ran
  exact ⟨w,reach,holds,leasedAlone 1 60 (by decide) reach⟩

/-- The configuration has changed while its one session is leased: another is opened. -/
def twoConfigs : List Act := [
  .acquire 0 (pgRequest "a"), .enter 0 10, .load 0 .loaded, .name 0 11, .relock 0, .acquire 1 (pgRequest "b"), .enter 1 12]

theorem twoConfigsOpen : ∃ w, run step (create 1 60) twoConfigs = some w ∧ ¬ Limited w := by
  have ran : ((run step (create 1 60) twoConfigs).map fun w => ((w.sessions (ascii "pg")).card,w.maxPerConn)) = some (2,1) := by
    decide
  obtain ⟨w,reach,counts⟩ := Option.map_eq_some_iff.mp ran
  refine ⟨w,reach,fun limited => ?_⟩
  have le := limited (ascii "pg")
  rw [(Prod.mk.inj counts).1,(Prod.mk.inj counts).2] at le
  omega

/-! ### Invalidation -/

/-- The call will write the fields of its slot, or give its session back unseen. -/
def Call.unsettled : Call → Bool
  | .loading _ _ _ | .naming _ _ _ _ | .pinging _ _ _ => true
  | _ => false

/-- No opening of the connection has yet to write its slot, no tick pings one of its sessions, and its id fits a slot. -/
def Settled (w : World) (connId : Bytes) : Prop := connId ≠ [] ∧ connId.length < 64 ∧
  ∀ c k n, (w.calls c).owns = some (k,n) → (w.slots k).connId = connId → (w.calls c).unsettled = false

/-- What still lives of an invalidated number is leased by the call that had it then, in a marked slot. -/
structure Ending (w₀ w : World) (n : Nat) : Prop where
  old : n < w.begun.length
  held : n ∈ w.alive → ∃ c k, (w₀.calls c).owns = some (k,n) ∧ (w.calls c).owns = some (k,n) ∧ (w.calls c).unsettled = false ∧
    (w.slots k).fp = []

/-- The slot is not the connection's, or is marked. -/
def Marked (connId : Bytes) (w : World) (k : Fin maxSlots) : Prop :=
  (w.slots k).used = true → (w.slots k).connId = connId → (w.slots k).fp = [] ∧ (w.slots k).leased = true

theorem slotMarked (connId : Bytes) (w : World) (k : Fin maxSlots) : Marked connId (World.invalidateSlot connId w k) k := by
  intro used is
  rw [World.invalidateSlot] at used is ⊢
  split at used
  · rename_i other
    rw [if_pos other] at is
    rcases other with unused | other
    · rw [used] at unused
      cases unused
    · exact absurd is other
  · rename_i ours
    rw [if_neg ours]
    split at used
    · rename_i leased
      rw [if_pos leased,setSlotHere]
      exact ⟨rfl,leased⟩
    · rw [freeHere] at used
      cases used

theorem Marked.slot (marked : Marked connId w k) (k' : Fin maxSlots) : Marked connId (World.invalidateSlot connId w k') k := by
  by_cases same : k = k'
  · rw [same]
    exact slotMarked connId w k'
  · have kept : (World.invalidateSlot connId w k').slots k = w.slots k := by
      rw [World.invalidateSlot]
      split
      · rfl
      · split
        · exact setSlotOther same
        · exact freeOther same
    rw [Marked,kept]
    exact marked

theorem Marked.fold (marked : Marked connId w k) (ks : List (Fin maxSlots)) :
    Marked connId (ks.foldl (World.invalidateSlot connId) w) k := by
  induction ks generalizing w with
  | nil => exact marked
  | cons k' ks ih => exact ih (marked.slot k')

theorem foldMarked {ks : List (Fin maxSlots)} (mem : k ∈ ks) : Marked connId (ks.foldl (World.invalidateSlot connId) w) k := by
  induction ks generalizing w with
  | nil => cases mem
  | cons k' ks ih =>
    rcases List.mem_cons.mp mem with rfl | mem
    · exact (slotMarked connId w k).fold ks
    · exact ih mem

theorem invalidateEnds (sound : Sound w) (settled : Settled w connId) (stale : w.begun[n]? = some connId) :
    Ending w (w.invalidate connId) n := by
  obtain ⟨named,short,ready⟩ := settled
  have whole : connId.take 63 = connId := List.take_of_length_le (Nat.le_of_lt_succ short)
  have clears := invalidateClears w connId
  have keeps := clears.keeps
  have inv := sound.inv.clear clears
  refine ⟨keeps.begun ▸ (List.getElem?_eq_some_iff.mp stale).1,fun living => ?_⟩
  have ours : ∀ {k}, (w.invalidate connId).At k n → ((w.invalidate connId).slots k).connId = connId := fun {k} at_ => by
    obtain ⟨id,begun,is⟩ := inv.origin k n at_
    rw [keeps.begun,stale] at begun
    cases begun
    exact is.trans whole
  have settled' : ∀ c k, ((w.invalidate connId).calls c).owns = some (k,n) → ((w.invalidate connId).calls c).unsettled = false := by
    intro c k owns
    have used := (inv.busy c k n owns).1
    have is := (keeps.used k used).2.symm.trans (ours (.inr ⟨c,owns⟩))
    rw [keeps.calls] at owns ⊢
    exact ready c k n owns is
  rcases (inv.alive n).mp living with ⟨k,inst⟩ | ⟨c,k,owns,loading⟩
  · have used : ((w.invalidate connId).slots k).used = true := (Bool.eq_false_or_eq_true _).resolve_right fun unused => by
      rw [inv.unused k unused] at inst
      cases inst
    have marked : Marked connId (w.invalidate connId) k := by
      rw [World.invalidate,if_neg named]
      exact foldMarked (List.mem_finRange k)
    obtain ⟨fp,leased⟩ := marked used (ours (.inl inst))
    obtain ⟨c,m,owns⟩ := inv.owned k leased
    have same : m = n := by
      have slot := (inv.busy c k m owns).2.2
      rw [inst] at slot
      split at slot
      · exact (Option.some.inj slot).symm
      · cases slot
    rw [same] at owns
    exact ⟨c,k,keeps.calls ▸ owns,owns,settled' c k owns,fp⟩
  · have ready' := settled' c k owns
    cases call : (w.invalidate connId).calls c <;> rw [call] at loading ready' <;>
      first | (cases loading; done) | cases ready'

theorem Effect.calls {by_ : Option Nat} (effect : Effect w by_ w') (other : by_ ≠ some c) : w'.calls c = w.calls c := by
  have apart : ∀ {c'}, by_ = some c' → c ≠ c' := fun is same => other (same ▸ is)
  cases effect with
  | clear clears => exact congrFun clears.keeps.calls c
  | call by_ clears => exact (Function.update_of_ne (apart by_) ..).trans (congrFun clears.keeps.calls c)
  | take by_ clears => exact (putCallOther (apart by_)).trans (congrFun clears.keeps.calls c)
  | reserve by_ clears => exact (Function.update_of_ne (apart by_) ..).trans (congrFun clears.keeps.calls c)
  | proceed by_ => exact putCallOther (apart by_)
  | leave by_ _ _ _ _ _ _ _ clears => exact (congrFun clears.keeps.calls c).trans (putCallOther (apart by_))

/-- A call's step leaves the slots of the others as they are, or marks them. -/
theorem Effect.marks {by_ : Option Nat} (sound : Sound w) (effect : Effect w by_ w') (other : by_ ≠ some c)
    (owns : (w.calls c).owns = some (k,n)) (fp : (w.slots k).fp = []) : (w'.slots k).fp = [] := by
  have leased := (sound.inv.busy c k n owns).2.1
  have stays : ∀ {w w₁ : World}, Clears w w₁ → (w.slots k).leased = true → (w.slots k).fp = [] →
      (w₁.slots k).leased = true ∧ (w₁.slots k).fp = [] := fun clears leased fp => by
    rcases clears.keeps.leased k leased with same | marked
    · rw [same]
      exact ⟨leased,fp⟩
    · rw [marked]
      exact ⟨leased,rfl⟩
  have away : ∀ {w₁ k'}, Clears w w₁ → (w₁.slots k').leased = false → k ≠ k' := fun clears unleased same => by
    have still := (stays clears leased fp).1
    rw [same,unleased] at still
    cases still
  have apart : ∀ {c' k' n'}, by_ = some c' → (w.calls c').owns = some (k',n') → k ≠ k' := fun {c' k' n'} is owns' same =>
    other (sound.inv.alone c c' k n n' owns (same ▸ owns') ▸ is)
  cases effect with
  | clear clears => exact (stays clears leased fp).2
  | call _ clears => exact (stays clears leased fp).2
  | take _ clears _ unleased =>
    rw [putSlotOther (away clears unleased)]
    exact (stays clears leased fp).2
  | reserve _ clears _ unleased =>
    rw [World.reserve,World.setCall,setSlotOther (away clears unleased)]
    exact (stays clears leased fp).2
  | proceed by_ owns' =>
    rw [putSlotOther (apart by_ owns')]
    exact fp
  | leave by_ owns' _ _ _ _ _ _ clears =>
    have slot := apart by_ owns'
    exact (stays clears (by rw [putSlotOther slot,leased]) (by rw [putSlotOther slot,fp])).2

/-- Only new numbers come to life. -/
theorem Effect.grows {by_ : Option Nat} (effect : Effect w by_ w') :
    w.begun.length ≤ w'.begun.length ∧ w'.alive ⊆ insert w.begun.length w.alive := by
  have cleared : ∀ {w w₁ : World}, Clears w w₁ → w.begun.length ≤ w₁.begun.length ∧ w₁.alive ⊆ insert w.begun.length w.alive :=
    fun clears => ⟨by rw [clears.keeps.begun],clears.keeps.alive.trans (Finset.subset_insert ..)⟩
  cases effect with
  | clear clears => exact cleared clears
  | call _ clears =>
    have grown := cleared clears
    exact grown
  | take _ clears =>
    have grown := cleared clears
    exact grown
  | @reserve w₁ c k r _ clears =>
    have longer : (w₁.reserve c k r).begun = w₁.begun ++ [r.connId] := rfl
    rw [longer,List.length_append,← clears.keeps.begun]
    refine ⟨Nat.le_add_right _ _,?_⟩
    exact Finset.insert_subset_insert _ clears.keeps.alive
  | @proceed c x k n' s a _ _ _ _ _ _ _ _ _ _ alive_ =>
    refine ⟨Nat.le_refl _,?_⟩
    have within : a ⊆ w.alive := by
      rw [alive_]
      split
      · exact Finset.Subset.refl _
      · exact Finset.erase_subset ..
    exact within.trans (Finset.subset_insert ..)
  | leave _ _ _ _ _ _ _ _ clears =>
    have grown := cleared clears
    exact grown

theorem callHere {x : Call} : (w.setCall c x).calls c = x := Function.update_self ..

theorem callSlots {x : Call} : (w.setCall c x).slots = w.slots := rfl

/-- The step of a call in a marked slot. -/
theorem ownStep {a : Act} (sound : Sound w) (owns : (w.calls c).owns = some (k,n)) (settled : (w.calls c).unsettled = false)
    (fp : (w.slots k).fp = []) (living : n ∈ w.alive) (mine : a.call = some c) (moved : step w a = some w') :
    n ∉ w'.alive ∨ (w'.calls c).owns = some (k,n) ∧ (w'.calls c).unsettled = false ∧ (w'.slots k).fp = [] := by
  have inst := (sound.inv.busy c k n owns).2.2
  cases call : w.calls c with
  | verifying k' n' r =>
    rw [call] at owns inst
    cases owns
    cases a <;> cases mine <;> simp only [step,call] at moved <;> cases moved
    rename_i ok why
    cases ok with
    | true =>
      refine .inr ⟨?_,?_,?_⟩
      · rw [World.verified,if_pos rfl,callHere]
        rfl
      · rw [World.verified,if_pos rfl,callHere]
        rfl
      · rw [World.verified,if_pos rfl,callSlots,setSlotHere]
        exact fp
    | false =>
      refine .inl ?_
      rw [World.verified,inst]
      exact Finset.notMem_erase n w.alive
  | opened k' n' =>
    rw [call] at owns
    cases owns
    cases a <;> cases mine <;> simp only [step,call] at moved <;> cases moved
    refine .inr ⟨?_,?_,?_⟩
    · rw [callHere]
      rfl
    · rw [callHere]
      rfl
    · rw [callSlots,setSlotHere]
      exact fp
  | openFailed k' n' err =>
    exact absurd living (sound.inv.dead (by rw [call]; rw [call] at owns; exact owns) (by rw [call]; rfl) (by rw [call]; rfl))
  | holding k' n' =>
    rw [call] at owns inst
    cases owns
    cases a <;> cases mine <;> simp only [step,call] at moved <;> cases moved
    refine .inl ?_
    rw [World.release,callSlots,setSlotHere,if_pos fp,World.slotFree,callSlots,setSlotHere]
    show n ∉ (World.unload _ (w.slots k).inst).alive
    rw [inst]
    exact Finset.notMem_erase n w.alive
  | _ =>
    rw [call] at owns settled
    first | (cases owns; done) | cases settled

theorem Ending.step {w₀ : World} {a : Act} (sound : Sound w) (ending : Ending w₀ w n) (moved : step w a = some w') :
    Ending w₀ w' n := by
  have effect := stepEffect sound.inv moved
  obtain ⟨longer,alive⟩ := effect.grows
  refine ⟨Nat.lt_of_lt_of_le ending.old longer,fun living' => ?_⟩
  have living : n ∈ w.alive := by
    rcases Finset.mem_insert.mp (alive living') with new | old
    · exact absurd ending.old (by omega)
    · exact old
  obtain ⟨c,k,first,owns,settled,fp⟩ := ending.held living
  by_cases mine : a.call = some c
  · rcases ownStep sound owns settled fp living mine moved with dead | still
    · exact absurd living' dead
    · exact ⟨c,k,first,still⟩
  · have same := effect.calls mine
    exact ⟨c,k,first,by rw [same]; exact owns,by rw [same]; exact settled,effect.marks sound mine owns fp⟩

theorem soundKept (w : World) (a : Act) (w' : World) (sound : Sound w) (_ : True) (moved : step w a = some w') : Sound w' :=
  sound.step moved

theorem endingKept (w₀ : World) (n : Nat) (w : World) (a : Act) (w' : World) (inv : Sound w ∧ Ending w₀ w n) (_ : True)
    (moved : step w a = some w') : Sound w' ∧ Ending w₀ w' n :=
  ⟨inv.1.step moved,inv.2.step inv.1 moved⟩

/-- A session opened or begun for the connection before the invalidation is leased afterwards only to the call that had
it then, and is open only while it is. -/
theorem invalidatedEnds (maxPerConn idlePingSec : Int) {before after : List Act} {v : World}
    (reach : run step (create maxPerConn idlePingSec) before = some w) (settled : Settled w connId)
    (called : step w (.invalidate connId) = some w') (later : run step w' after = some v) (stale : w.begun[n]? = some connId) :
    (∀ c k, v.calls c = .holding k n → (w.calls c).owns = some (k,n)) ∧
      (n ∈ v.alive → ∃ c k, (w.calls c).owns = some (k,n) ∧ (v.calls c).owns = some (k,n) ∧ (v.calls c).unsettled = false) := by
  have sound := runInvariant soundKept (createSound maxPerConn idlePingSec) (alongAlways _ before) reach
  have sound' := sound.step called
  have ending : Ending w w' n := by
    cases called
    exact invalidateEnds sound settled stale
  obtain ⟨soundV,end_⟩ := runInvariant (endingKept w n) ⟨sound',ending⟩ (alongAlways _ after) later
  refine ⟨fun c k holds => ?_,fun living => ?_⟩
  · have living := (soundV.exclusive.kept c k n holds).2
    obtain ⟨c',k',first,owns,_⟩ := end_.held living
    have owns' : (v.calls c).owns = some (k,n) := by rw [holds]; rfl
    have slot := soundV.inv.distinct k k' n (.inr ⟨c,owns'⟩) (.inr ⟨c',owns⟩)
    have same := soundV.inv.alone c c' k n n owns' (slot ▸ owns)
    rw [same,slot]
    exact first
  · obtain ⟨c,k,first,owns,ready,_⟩ := end_.held living
    exact ⟨c,k,first,owns,ready⟩

theorem callKept {acts : List Act} {v : World} (sound : Sound w) (others : ∀ a ∈ acts, a.call ≠ some c)
    (reach : run step w acts = some v) : v.calls c = w.calls c := by
  induction acts generalizing w with
  | nil => cases reach; rfl
  | cons a acts ih =>
    obtain ⟨mid,first,rest⟩ := Option.bind_eq_some_iff.mp reach
    rw [ih (sound.step first) (fun b mem => others b (List.mem_cons_of_mem a mem)) rest]
    exact (stepEffect sound.inv first).calls (others a List.mem_cons_self)

/-- A call opens a session, which is invalidated while it is leased. -/
def openOne : List Act := [.acquire 0 (pgRequest "a"), .enter 0 10, .load 0 .loaded, .name 0 11, .relock 0]

theorem openOneInvalidated : ∃ w w' v, run step (create 4 60) openOne = some w ∧ step w (.invalidate (ascii "pg")) = some w' ∧
    run step w' [.release 0 true 12] = some v ∧ w.begun[0]? = some (ascii "pg") ∧ 0 ∉ v.alive := by
  have ran : ((run step (create 4 60) openOne).bind fun w => (step w (.invalidate (ascii "pg"))).bind fun w' =>
      (run step w' [.release 0 true 12]).map fun v => (w.begun[0]?,w.calls 0,v.calls 0)) =
      some (some (ascii "pg"),.holding 0 0,.ended) := by decide +kernel
  obtain ⟨w,reach,ran⟩ := Option.bind_eq_some_iff.mp ran
  obtain ⟨w',called,ran⟩ := Option.bind_eq_some_iff.mp ran
  obtain ⟨v,later,is⟩ := Option.map_eq_some_iff.mp ran
  obtain ⟨stale,holds,ended⟩ : w.begun[0]? = some (ascii "pg") ∧ w.calls 0 = .holding 0 0 ∧ v.calls 0 = .ended := by simpa using is
  have others : ∀ c, c ≠ 0 → (w.calls c).owns = none := fun c other => by
    rw [callKept (c := c) (createSound 4 60) (by simp [openOne,Act.call,Ne.symm other]) reach]
    rfl
  have settled : Settled w (ascii "pg") := by
    refine ⟨by decide,by decide,fun c k n owns _ => ?_⟩
    by_cases first : c = 0
    · rw [first,holds]
      rfl
    · rw [others c first] at owns
      cases owns
  refine ⟨w,w',v,reach,called,later,stale,fun living => ?_⟩
  obtain ⟨c,k,first,owns,_⟩ := (invalidatedEnds 4 60 reach settled called later stale).2 living
  by_cases only : c = 0
  · rw [only,ended] at owns
    cases owns
  · rw [others c only] at first
    cases first

/-- An opening under way when the invalidation comes writes its fingerprint again: the session goes on to other calls. -/
theorem invalidatedReused : ∃ w w' v, run step (create 4 60) [.acquire 0 (pgRequest "a"), .enter 0 10] = some w ∧
    step w (.invalidate (ascii "pg")) = some w' ∧
    run step w' [.load 0 .loaded, .name 0 11, .relock 0, .release 0 true 12, .acquire 1 (pgRequest "a"), .enter 1 13] = some v ∧
    w.begun[0]? = some (ascii "pg") ∧ w.calls 1 = .idle ∧ v.calls 1 = .holding 0 0 := by
  have ran : ((run step (create 4 60) [.acquire 0 (pgRequest "a"), .enter 0 10]).bind fun w =>
      (step w (.invalidate (ascii "pg"))).bind fun w' =>
      (run step w' [.load 0 .loaded, .name 0 11, .relock 0, .release 0 true 12, .acquire 1 (pgRequest "a"), .enter 1 13]).map
        fun v => (w.begun[0]?,w.calls 1,v.calls 1)) = some (some (ascii "pg"),.idle,.holding 0 0) := by decide +kernel
  obtain ⟨w,reach,ran⟩ := Option.bind_eq_some_iff.mp ran
  obtain ⟨w',called,ran⟩ := Option.bind_eq_some_iff.mp ran
  obtain ⟨v,later,is⟩ := Option.map_eq_some_iff.mp ran
  exact ⟨w,w',v,reach,called,later,by simpa using is⟩

/-- A session that is pinged when the invalidation comes stays open, leased to nobody. -/
theorem pingedOutlives : ∃ w w' v, run step (create 4 60) (openOne ++ [.release 0 true 12, .tick 1 100, .look 1]) = some w ∧
    step w (.invalidate (ascii "pg")) = some w' ∧ run step w' [.pinged 1 true none 101] = some v ∧
    w.begun[0]? = some (ascii "pg") ∧ 0 ∈ v.alive ∧ ∀ k, (v.slots k).leased = false := by
  have ran : ((run step (create 4 60) (openOne ++ [.release 0 true 12, .tick 1 100, .look 1])).bind fun w =>
      (step w (.invalidate (ascii "pg"))).bind fun w' =>
      (run step w' [.pinged 1 true none 101]).map fun v => (w.begun[0]?,decide (0 ∈ v.alive ∧ ∀ k, (v.slots k).leased = false))) =
      some (some (ascii "pg"),true) := by decide +kernel
  obtain ⟨w,reach,ran⟩ := Option.bind_eq_some_iff.mp ran
  obtain ⟨w',called,ran⟩ := Option.bind_eq_some_iff.mp ran
  obtain ⟨v,later,is⟩ := Option.map_eq_some_iff.mp ran
  exact ⟨w,w',v,reach,called,later,by simpa using is⟩

end Napastak.ConnPool
