import Mathlib.Data.Finmap
import Mathlib.Algebra.BigOperators.Group.Finset.Piecewise
import Mathlib.Algebra.BigOperators.Group.Multiset.Basic
import Mathlib.Algebra.Order.BigOperators.Group.Finset

/-! Open addressing with Robin Hood probing on a ring of `c` slots: each entry carries the number of
slots between its home and its place, an insertion takes the slot of an entry nearer to its home,
and a deletion shifts the entries behind the hole back by one. -/
namespace Napastak.RobinHood

structure Entry (κ α : Type) where
  key : κ
  val : α
  hash : Nat
  psl : Nat
  deriving DecidableEq, Repr

abbrev Table (κ α : Type) := Nat → Option (Entry κ α)

variable {κ α : Type} {c n p q i : Nat} {t u : Table κ α} {e s : Entry κ α}

def next (c p : Nat) : Nat := (p + 1) % c

/-- Walks from `p` with the entry in hand until a slot is free. `n` bounds the number of slots looked at. -/
def insert (c : Nat) : Nat → Nat → Table κ α → Entry κ α → Option (Table κ α)
  | 0, _, _, _ => none
  | n + 1, p, t, e =>
    match t p with
    | none => some (Function.update t p (some e))
    | some s =>
      if s.psl < e.psl then insert c n (next c p) (Function.update t p (some e)) {s with psl := s.psl + 1}
      else insert c n (next c p) t {e with psl := e.psl + 1}

/-- Fills the hole at `p` from the next slot until that one is free or its entry is at home. -/
def shift (c : Nat) : Nat → Nat → Table κ α → Option (Table κ α)
  | 0, _, _ => none
  | n + 1, p, t =>
    match t (next c p) with
    | none => some (Function.update t p none)
    | some e =>
      if e.psl = 0 then some (Function.update t p none)
      else shift c n (next c p) (Function.update t p (some {e with psl := e.psl - 1}))

/-- The slot of a key, from the `i`-th behind its home on. With `early` the walk ends at an entry
nearer to its home than the key would be. -/
def find [DecidableEq κ] (early : Bool) (c : Nat) (t : Table κ α) (h : Nat) (k : κ) : Nat → Nat → Option Nat
  | 0, _ => none
  | n + 1, i =>
    match t ((h + i) % c) with
    | none => none
    | some s =>
      if s.hash = h ∧ s.key = k then some ((h + i) % c)
      else if early ∧ s.psl < i then none else find early c t h k n (i + 1)

/-- An entry at distance `n` from its home may stand behind slot `p`. -/
def Follows (t : Table κ α) (p n : Nat) : Prop := n = 0 ∨ ∃ d, t p = some d ∧ n ≤ d.psl + 1

/-- The probe-distance invariant. -/
structure Sound (c : Nat) (hash : κ → Nat) (t : Table κ α) : Prop where
  hashed : ∀ p < c, ∀ e, t p = some e → e.hash = hash e.key
  placed : ∀ p < c, ∀ e, t p = some e → (e.hash + e.psl) % c = p
  chained : ∀ p < c, ∀ e, t (next c p) = some e → Follows t p e.psl

def cell : Option (Entry κ α) → Multiset (Sigma fun _ : κ => α)
  | none => 0
  | some e => {⟨e.key,e.val⟩}

/-- All entries of the first `n` slots, put on a new ring of `c` slots. -/
def rehash (c : Nat) (t : Table κ α) : Nat → Option (Table κ α)
  | 0 => some fun _ => none
  | n + 1 =>
    (rehash c t n).bind fun u =>
      match t n with
      | none => some u
      | some e => insert c c (e.hash % c) u {e with psl := 0}

/-- The pairs on the ring in the order of the slots. -/
def listing (c : Nat) (t : Table κ α) : List (Sigma fun _ : κ => α) :=
  (List.range c).filterMap fun p => (t p).map fun e => ⟨e.key,e.val⟩

/-- The pairs of key and value on the ring. -/
def contents (c : Nat) (t : Table κ α) : Multiset (Sigma fun _ : κ => α) := ∑ p ∈ Finset.range c, cell (t p)

section Ring

theorem nextBelow (h : 0 < c) : next c p < c := Nat.mod_lt _ h

theorem nextMod (a : Nat) : next c (a % c) = (a + 1) % c := Nat.mod_add_mod a c 1

/-- A slot is behind the one before it, the first behind the last. -/
theorem nextCases (h : p < c) : next c p = p + 1 ∧ p + 1 < c ∨ next c p = 0 ∧ p + 1 = c := by
  unfold next
  rcases Nat.lt_or_ge (p + 1) c with low | high
  · exact .inl ⟨Nat.mod_eq_of_lt low,low⟩
  · have full : p + 1 = c := by omega
    exact .inr ⟨by rw [full,Nat.mod_self],full⟩

theorem nextOther (two : 2 ≤ c) (h : p < c) : next c p ≠ p := by
  rcases nextCases h with ⟨is,_⟩ | ⟨is,_⟩ <;> omega

theorem nextTwice (three : 3 ≤ c) (h : p < c) : next c (next c p) ≠ p := by
  have below : next c p < c := nextBelow (by omega)
  rcases nextCases h with ⟨is,_⟩ | ⟨is,_⟩ <;> rcases nextCases below with ⟨later,_⟩ | ⟨later,_⟩ <;> omega

theorem nextInj (hp : p < c) (hq : q < c) (h : next c p = next c q) : p = q := by
  rcases nextCases hp with ⟨is,_⟩ | ⟨is,_⟩ <;> rcases nextCases hq with ⟨other,_⟩ | ⟨other,_⟩ <;> omega

theorem prevOf (h : p < c) : ∃ q < c, next c q = p := by
  refine ⟨(p + (c - 1)) % c,Nat.mod_lt _ (by omega),?_⟩
  rw [nextMod,show p + (c - 1) + 1 = p + c by omega,Nat.add_mod_right,Nat.mod_eq_of_lt h]

theorem takenOther {j : Nat} (below : p < c) (here : t p = some e) (free : t q = none) (far : (p + j) % c = q) :
    q ≠ p ∧ j ≠ 0 := by
  have other : q ≠ p := by
    rintro rfl
    rw [here] at free
    contradiction
  refine ⟨other,?_⟩
  rintro rfl
  rw [Nat.add_zero,Nat.mod_eq_of_lt below] at far
  exact other far.symm

theorem farNext {j : Nat} (one : j ≠ 0) (far : (p + j) % c = q) : (next c p + (j - 1)) % c = q := by
  rw [next,Nat.mod_add_mod,← far]
  congr 1
  omega

/-- Every slot lies less than one turn behind any position. -/
theorem reach (a : Nat) (h : q < c) : ∃ j < c, (a + j) % c = q := by
  have below : a % c < c := Nat.mod_lt _ (by omega)
  rcases Nat.lt_or_ge q (a % c) with before | after
  · refine ⟨q + c - a % c,by omega,?_⟩
    rw [← Nat.mod_add_mod,show a % c + (q + c - a % c) = q + c by omega,Nat.add_mod_right,Nat.mod_eq_of_lt h]
  · refine ⟨q - a % c,by omega,?_⟩
    rw [← Nat.mod_add_mod,show a % c + (q - a % c) = q by omega,Nat.mod_eq_of_lt h]

end Ring

section Contents

theorem contentsUpdate (h : p < c) (x : Option (Entry κ α)) :
    contents c (Function.update t p x) + cell (t p) = contents c t + cell x := by
  have here : p ∈ Finset.range c := Finset.mem_range.mpr h
  have cells : (fun q => cell (Function.update t p x q)) = Function.update (fun q => cell (t q)) p (cell x) := by
    funext q
    exact Function.apply_update (fun _ => cell) t p x q
  unfold contents
  rw [cells,Finset.sum_update_of_mem here,← Finset.sum_sdiff (Finset.singleton_subset_iff.mpr here),Finset.sum_singleton]
  rw [add_assoc,add_comm]

theorem memContents {x : Sigma fun _ : κ => α} :
    x ∈ contents c t ↔ ∃ p < c, ∃ e, t p = some e ∧ x = ⟨e.key,e.val⟩ := by
  unfold contents
  rw [Multiset.mem_sum]
  constructor
  · rintro ⟨p,below,h⟩
    cases is : t p with
    | none =>
      rw [is] at h
      exact absurd h (Multiset.notMem_zero x)
    | some e =>
      rw [is] at h
      exact ⟨p,Finset.mem_range.mp below,e,is,Multiset.mem_singleton.mp h⟩
  · rintro ⟨p,below,e,is,rfl⟩
    refine ⟨p,Finset.mem_range.mpr below,?_⟩
    rw [is]
    exact Multiset.mem_singleton_self _

theorem cardContents (c : Nat) (t : Table κ α) : (contents c t).card ≤ c := by
  unfold contents
  rw [Multiset.card_sum]
  refine (Finset.sum_le_card_nsmul _ _ 1 ?_).trans (by simp)
  intro p _
  cases t p <;> simp [cell]

theorem contentsClear (h : p < c) (here : t p = some e) :
    contents c (Function.update t p none) + cell (some e) = contents c t := by
  have change := contentsUpdate (t := t) h none
  rwa [here,cell,add_zero] at change

/-- The slots in their order list every pair once. -/
theorem coeListing (c : Nat) (t : Table κ α) : (listing c t : Multiset (Sigma fun _ : κ => α)) = contents c t := by
  induction c with
  | zero => rfl
  | succ c ih =>
    have grown : contents (c + 1) t = contents c t + cell (t c) := Finset.sum_range_succ _ c
    rw [grown,← ih]
    unfold listing
    rw [List.range_succ,List.filterMap_append,← Multiset.coe_add]
    cases is : t c with
    | none => simp [cell,is]
    | some e => simp [cell,is]

/-- Fewer entries than slots leave a free one. -/
theorem freeSlot (h : (contents c t).card < c) : ∃ p < c, t p = none := by
  by_contra none
  have full : (contents c t).card = c := by
    unfold contents
    rw [Multiset.card_sum,Finset.sum_congr rfl (g := fun _ => 1),← Finset.card_eq_sum_ones,Finset.card_range]
    intro p below
    cases is : t p with
    | none => exact absurd ⟨p,Finset.mem_range.mp below,is⟩ none
    | some e => rfl
  omega

end Contents

section Probe

variable {hash : κ → Nat}

theorem Sound.chain (sound : Sound c hash t) (below : p < c) (here : t p = some e) :
    ∀ k j, j + k = e.psl → ∃ d, t ((e.hash + j) % c) = some d ∧ j ≤ d.psl := by
  intro k
  induction k with
  | zero =>
    intro j is
    have home := sound.placed p below e here
    rw [← is,Nat.add_zero] at home
    exact ⟨e,by rw [home,here],by omega⟩
  | succ k ih =>
    intro j is
    obtain ⟨d,there,far⟩ := ih (j + 1) (by omega)
    rw [← Nat.add_assoc,← nextMod] at there
    rcases sound.chained _ (Nat.mod_lt _ (by omega)) d there with home | ⟨b,before,le⟩
    · omega
    · exact ⟨b,before,by omega⟩

/-- On a ring with a free slot no entry is a whole turn from its home. -/
theorem Sound.pslBelow (sound : Sound c hash t) (below : p < c) (here : t p = some e) (free : t q = none)
    (slot : q < c) : e.psl < c := by
  by_contra far
  obtain ⟨j,turn,is⟩ := reach e.hash slot
  obtain ⟨d,taken,_⟩ := sound.chain below here (e.psl - j) j (by omega)
  rw [is,free] at taken
  contradiction

variable [DecidableEq κ] {early : Bool} {h : Nat} {k : κ}

theorem findEntry (zero : 0 < c) (found : find early c t h k n i = some p) :
    p < c ∧ ∃ e, t p = some e ∧ e.key = k := by
  induction n generalizing i with
  | zero => contradiction
  | succ n ih =>
    unfold find at found
    split at found
    · contradiction
    · rename_i s is
      split at found
      · rename_i same
        cases found
        exact ⟨Nat.mod_lt _ zero,s,is,same.2⟩
      · split at found
        · contradiction
        · exact ih found

theorem Sound.findMet (sound : Sound c hash t) (below : p < c) (here : t p = some e) :
    ∀ n i, i ≤ e.psl → e.psl < i + n → ∃ q, find early c t e.hash e.key n i = some q := by
  intro n
  induction n with
  | zero =>
    intro i _ _
    omega
  | succ n ih =>
    intro i le lt
    obtain ⟨s,there,far⟩ := sound.chain below here (e.psl - i) i (by omega)
    unfold find
    rw [there]
    dsimp only
    split
    · exact ⟨_,rfl⟩
    · rename_i other
      rw [if_neg (by omega)]
      refine ih (i + 1) ?_ (by omega)
      by_contra last
      have is : i = e.psl := by omega
      rw [is,sound.placed p below e here,here] at there
      cases there
      exact other ⟨rfl,rfl⟩

/-- A walk finds a key exactly when it is on the ring. -/
theorem Sound.findLookup (sound : Sound c hash t) {m : Finmap fun _ : κ => α} (entries : contents c t = m.entries)
    (free : t q = none) (slot : q < c) (k : κ) :
    (∃ p < c, ∃ e, find early c t (hash k) k c 0 = some p ∧ t p = some e ∧ e.key = k ∧ m.lookup k = some e.val) ∨
      find early c t (hash k) k c 0 = none ∧ m.lookup k = none := by
  have zero : 0 < c := by omega
  cases is : find early c t (hash k) k c 0 with
  | some p =>
    obtain ⟨below,e,here,rfl⟩ := findEntry zero is
    refine .inl ⟨p,below,e,rfl,here,rfl,?_⟩
    rw [Finmap.lookup_eq_some_iff,← entries]
    exact memContents.mpr ⟨p,below,e,here,rfl⟩
  | none =>
    refine .inr ⟨rfl,?_⟩
    cases holds : m.lookup k with
    | none => rfl
    | some v =>
      rw [Finmap.lookup_eq_some_iff,← entries] at holds
      obtain ⟨p,below,e,here,same⟩ := memContents.mp holds
      cases same
      have near := sound.pslBelow below here free slot
      obtain ⟨r,met⟩ : ∃ r, find early c t e.hash e.key c 0 = some r := sound.findMet below here c 0 (by omega) (by omega)
      rw [sound.hashed p below e here,is] at met
      contradiction

end Probe

section Change

variable {hash : κ → Nat}

theorem Follows.mono {a b : Nat} (h : Follows t p b) (le : a ≤ b) : Follows t p a := by
  rcases h with zero | ⟨d,here,far⟩
  · exact .inl (by omega)
  · exact .inr ⟨d,here,by omega⟩

theorem Follows.other {a : Nat} {x : Option (Entry κ α)} (h : Follows t q a) (ne : q ≠ p) :
    Follows (Function.update t p x) q a := by
  rcases h with zero | ⟨d,here,far⟩
  · exact .inl zero
  · exact .inr ⟨d,by rw [Function.update_of_ne ne,here],far⟩

/-- An entry at its place with neighbours on both sides near enough. -/
theorem Sound.put (sound : Sound c hash t) (below : p < c) (hashed : e.hash = hash e.key)
    (placed : (e.hash + e.psl) % c = p) (behind : ∀ q < c, next c q = p → Follows t q e.psl)
    (ahead : ∀ d, t (next c p) = some d → d.psl = 0 ∨ d.psl ≤ e.psl + 1) (two : 2 ≤ c) :
    Sound c hash (Function.update t p (some e)) where
  hashed q slot d there := by
    by_cases same : q = p
    · rw [same,Function.update_self] at there
      cases there
      exact hashed
    · rw [Function.update_of_ne same] at there
      exact sound.hashed q slot d there
  placed q slot d there := by
    by_cases same : q = p
    · rw [same,Function.update_self] at there
      cases there
      rw [placed,same]
    · rw [Function.update_of_ne same] at there
      exact sound.placed q slot d there
  chained q slot d there := by
    by_cases onto : next c q = p
    · rw [onto,Function.update_self] at there
      cases there
      refine (behind q slot onto).other ?_
      rintro rfl
      exact nextOther two slot onto
    · rw [Function.update_of_ne onto] at there
      by_cases same : q = p
      · rw [same] at there ⊢
        rcases ahead d there with zero | near
        · exact .inl zero
        · exact .inr ⟨e,Function.update_self _ _ _,near⟩
      · exact (sound.chained q slot d there).other same

/-- A slot may become free when the entry behind it is at home. -/
theorem Sound.clear (sound : Sound c hash t) (home : ∀ d, t (next c p) = some d → d.psl = 0) :
    Sound c hash (Function.update t p none) := by
  have kept : ∀ {q d}, Function.update t p none q = some d → q ≠ p ∧ t q = some d := by
    intro q d there
    by_cases same : q = p
    · rw [same,Function.update_self] at there
      contradiction
    · rw [Function.update_of_ne same] at there
      exact ⟨same,there⟩
  refine ⟨fun q slot d there => sound.hashed q slot d (kept there).2,
    fun q slot d there => sound.placed q slot d (kept there).2,fun q slot d there => ?_⟩
  by_cases same : q = p
  · exact .inl (home d (same ▸ (kept there).2))
  · exact (sound.chained q slot d (kept there).2).other same

theorem Sound.behind (sound : Sound c hash t) (here : t p = some s) : ∀ q < c, next c q = p → Follows t q s.psl :=
  fun q slot is => sound.chained q slot s (is ▸ here)

theorem Sound.empty : Sound c hash (fun _ => none : Table κ α) :=
  ⟨fun _ _ _ h => by contradiction,fun _ _ _ h => by contradiction,fun _ _ _ h => by contradiction⟩

/-- The entry in hand ends on the ring beside all entries that were there. -/
theorem Sound.insert (two : 2 ≤ c) (free : t q = none) {j : Nat} (sound : Sound c hash t) (below : p < c)
    (hashed : e.hash = hash e.key) (placed : (e.hash + e.psl) % c = p)
    (behind : ∀ q < c, next c q = p → Follows t q e.psl) (far : (p + j) % c = q) (fuel : j < n) :
    ∃ u, insert c n p t e = some u ∧ Sound c hash u ∧ contents c u = contents c t + cell (some e) := by
  induction n generalizing p t e j with
  | zero => omega
  | succ n ih =>
    unfold RobinHood.insert
    cases is : t p with
    | none =>
      refine ⟨_,rfl,sound.put below hashed placed behind ?_ two,?_⟩
      · intro d there
        rcases sound.chained p below d there with home | ⟨b,here,_⟩
        · exact .inl home
        · rw [is] at here
          contradiction
      · have change := contentsUpdate (t := t) below (some e)
        rwa [is,cell,add_zero] at change
    | some s =>
      obtain ⟨other,one⟩ := takenOther below is free far
      have far := farNext one far
      have slot : next c p < c := nextBelow (by omega)
      -- the entry in hand goes on to the next slot, with the one at `p` in front of it
      have onto : ∀ {u : Table κ α} {d a}, u p = some d → a ≤ d.psl + 1 →
          ∀ r < c, next c r = next c p → Follows u r a := by
        intro u d a there near r low same
        rw [nextInj low below same]
        exact .inr ⟨d,there,near⟩
      dsimp only
      split
      · rename_i poorer
        have put : Sound c hash (Function.update t p (some e)) := by
          refine sound.put below hashed placed behind ?_ two
          intro d there
          rcases sound.chained p below d there with home | ⟨b,here,near⟩
          · exact .inl home
          · rw [is] at here
            cases here
            exact .inr (by omega)
        have free : Function.update t p (some e) q = none := by rw [Function.update_of_ne other,free]
        obtain ⟨u,run,done,all⟩ := ih (e := {s with psl := s.psl + 1}) free put slot (sound.hashed p below s is)
          (by rw [← Nat.add_assoc,← nextMod,sound.placed p below s is])
          (onto (Function.update_self _ _ _) (by dsimp only; omega)) far (by omega)
        refine ⟨u,run,done,?_⟩
        rw [all]
        have change := contentsUpdate (t := t) below (some e)
        rwa [is] at change
      · obtain ⟨u,run,done,all⟩ := ih (e := {e with psl := e.psl + 1}) free sound slot hashed
          (by rw [← Nat.add_assoc,← nextMod,placed]) (onto is (by dsimp only; omega)) far (by omega)
        exact ⟨u,run,done,all⟩

/-- All entries but the one at `p` stay on the ring. -/
theorem Sound.shift (two : 2 ≤ c) (free : t q = none) {j : Nat} (sound : Sound c hash t) (below : p < c)
    (here : t p = some e) (far : (p + j) % c = q) (fuel : j ≤ n) :
    ∃ u, shift c n p t = some u ∧ Sound c hash u ∧ contents c u + cell (some e) = contents c t := by
  induction n generalizing p t e j with
  | zero =>
    have := (takenOther below here free far).2
    omega
  | succ n ih =>
    obtain ⟨other,one⟩ := takenOther below here free far
    have left := contentsClear below here
    unfold RobinHood.shift
    cases is : t (next c p) with
    | none =>
      refine ⟨_,rfl,sound.clear ?_,left⟩
      intro d there
      rw [is] at there
      contradiction
    | some s =>
      dsimp only
      split
      · rename_i home
        refine ⟨_,rfl,sound.clear ?_,left⟩
        intro d there
        rw [is] at there
        cases there
        exact home
      · rename_i away
        have near : s.psl ≤ e.psl + 1 := by
          rcases sound.chained p below s is with home | ⟨b,there,near⟩
          · omega
          · rw [here] at there
            cases there
            exact near
        have slot : next c p < c := nextBelow (by omega)
        have onward : next c p ≠ p := nextOther two below
        have free : Function.update t p (some {s with psl := s.psl - 1}) q = none := by
          rw [Function.update_of_ne other,free]
        have put : Sound c hash (Function.update t p (some {s with psl := s.psl - 1})) := by
          refine sound.put below (sound.hashed _ slot s is) ?_ ?_ ?_ two
          · refine nextInj (Nat.mod_lt _ (by omega)) below ?_
            rw [nextMod,← sound.placed _ slot s is]
            congr 1
            dsimp only
            omega
          · intro r low same
            exact (sound.behind here r low same).mono (by dsimp only; omega)
          · intro d there
            rw [is] at there
            cases there
            exact .inr (by dsimp only; omega)
        obtain ⟨u,run,done,all⟩ := ih free put slot (by rw [Function.update_of_ne onward,is]) (farNext one far)
          (by omega)
        refine ⟨u,run,done,?_⟩
        have change := contentsUpdate (t := t) below (some {s with psl := s.psl - 1})
        rw [here,← all] at change
        have same : contents c u + cell (some e) + cell (some s) = contents c t + cell (some s) := by
          rw [add_assoc,add_comm (cell (some e)),← add_assoc]
          exact change
        exact add_right_cancel same

/-- The slot the walk starts from is read only when it comes round again. -/
theorem shiftStart (two : 2 ≤ c) (below : p < c) (x : Option (Entry κ α)) :
    RobinHood.shift c n p (Function.update t p x) = RobinHood.shift c n p t := by
  cases n with
  | zero => rfl
  | succ n =>
    unfold RobinHood.shift
    rw [Function.update_of_ne (nextOther two below)]
    cases t (next c p) with
    | none => simp only [Function.update_idem]
    | some e => simp only [Function.update_idem]

theorem Sound.rehash (hashed : ∀ p < n, ∀ e, t p = some e → e.hash = hash e.key) (two : 2 ≤ c) (room : n ≤ c) :
    ∃ u, rehash c t n = some u ∧ Sound c hash u ∧ contents c u = contents n t := by
  induction n with
  | zero =>
    refine ⟨_,rfl,Sound.empty,?_⟩
    unfold contents
    rw [Finset.sum_range_zero]
    exact Finset.sum_eq_zero fun _ _ => rfl
  | succ n ih =>
    obtain ⟨u,run,sound,all⟩ := ih (fun p below => hashed p (by omega)) (by omega)
    have grown : contents (n + 1) t = contents n t + cell (t n) := Finset.sum_range_succ _ n
    unfold RobinHood.rehash
    rw [run,Option.bind_some]
    cases is : t n with
    | none => exact ⟨u,rfl,sound,by rw [all,grown,is,cell,add_zero]⟩
    | some e =>
      obtain ⟨q,slot,free⟩ := freeSlot (c := c) (t := u) (by rw [all]; have := cardContents n t; omega)
      obtain ⟨j,turn,far⟩ := reach (e.hash % c) slot
      obtain ⟨v,put,done,most⟩ := sound.insert (e := {e with psl := 0}) two free (Nat.mod_lt _ (by omega))
        (hashed n (by omega) e is) rfl (fun _ _ _ => .inl rfl) far turn
      refine ⟨v,put,done,?_⟩
      rw [most,all,grown,is]
      rfl

end Change

section Map

variable {hash : κ → Nat} [DecidableEq κ] {m : Finmap fun _ : κ => α} {k : κ} {v : α}

theorem insertEntries (m : Finmap fun _ : κ => α) (k : κ) (v : α) :
    (m.insert k v).entries = ⟨k,v⟩ ::ₘ (m.erase k).entries := by
  rw [← Finmap.entries_insert_of_notMem Finmap.notMem_erase_self]
  congr 1
  refine Finmap.ext_lookup fun x => ?_
  by_cases same : x = k
  · rw [same,Finmap.lookup_insert,Finmap.lookup_insert]
  · rw [Finmap.lookup_insert_of_ne _ same,Finmap.lookup_insert_of_ne _ same,Finmap.lookup_erase_ne same]

theorem lookupEntries (h : m.lookup k = some v) : m.entries = ⟨k,v⟩ ::ₘ (m.erase k).entries := by
  rw [← insertEntries]
  congr 1
  refine Finmap.ext_lookup fun x => ?_
  by_cases same : x = k
  · rw [same,h,Finmap.lookup_insert]
  · rw [Finmap.lookup_insert_of_ne _ same]

theorem eraseAbsent (h : m.lookup k = none) : m.erase k = m := by
  refine Finmap.ext_lookup fun x => ?_
  by_cases same : x = k
  · rw [same,h,Finmap.lookup_erase]
  · rw [Finmap.lookup_erase_ne same]

/-- A value written over the one a key had. -/
theorem Sound.revalue (sound : Sound c hash t) (entries : contents c t = m.entries) (below : p < c)
    (here : t p = some e) (two : 2 ≤ c) (v : α) :
    Sound c hash (Function.update t p (some {e with val := v})) ∧
      contents c (Function.update t p (some {e with val := v})) = (m.insert e.key v).entries := by
  refine ⟨sound.put below (sound.hashed p below e here) (sound.placed p below e here)
    (sound.behind (s := e) here) ?_ two,?_⟩
  · intro d there
    rcases sound.chained p below d there with home | ⟨b,before,near⟩
    · exact .inl home
    · rw [here] at before
      cases before
      exact .inr near
  · have had : m.lookup e.key = some e.val := by
      rw [Finmap.lookup_eq_some_iff,← entries]
      exact memContents.mpr ⟨p,below,e,here,rfl⟩
    have change := contentsUpdate (t := t) below (some {e with val := v})
    rw [here,entries,lookupEntries had] at change
    refine add_right_cancel (b := cell (some e)) (change.trans ?_)
    rw [insertEntries,cell,cell,Multiset.add_comm,Multiset.singleton_add,Multiset.add_comm,Multiset.singleton_add,
      Multiset.cons_swap]

end Map

end Napastak.RobinHood
