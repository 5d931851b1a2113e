import Napastak.Decimal
import Napastak.HashMap

/-! The hash map is a finite map from strings to values as long as its capacity fits an `int`. -/
namespace Napastak.HashMap
open RobinHood (Sound Table contents cell)

variable {α : Type}

inductive Op (α : Type) where
  | set (key : Bytes) (val : α)
  | get (key : Bytes)
  | del (key : Bytes)
  | clear

inductive Reply (α : Type) where
  | done
  | val (v : α)
  | removed (found : Bool)

def step (null : α) (m : HashMap α) : Op α → Option (HashMap α × Reply α)
  | .set key val => (hmSet m key val).map fun m => (m,.done)
  | .get key => some (m,.val (hmGet null m key))
  | .del key => (hmDel m key).map fun (m,found) => (m,.removed found)
  | .clear => some (hmClear m,.done)

def run (null : α) (m : HashMap α) : List (Op α) → Option (HashMap α × List (Reply α))
  | [] => some (m,[])
  | op :: ops => (step null m op).bind fun (m,r) => (run null m ops).map fun (m,rs) => (m,r :: rs)

/-- The keys that are set and not deleted since, each with its value. -/
abbrev Live (α : Type) := Finmap fun _ : Bytes => α

def Live.step (null : α) (s : Live α) : Op α → Live α × Reply α
  | .set key val => (s.insert key val,.done)
  | .get key => (s,.val ((s.lookup key).getD null))
  | .del key => (s.erase key,.removed (s.lookup key).isSome)
  | .clear => (∅,.done)

def Live.run (null : α) (s : Live α) : List (Op α) → Live α × List (Reply α)
  | [] => (s,[])
  | op :: ops => let (s,r) := s.step null op; let (s,rs) := s.run null ops; (s,r :: rs)

/-- Every `hm_set` comes while fewer than `3 * 2 ^ 28` keys are live. -/
def Live.Roomy (null : α) (s : Live α) : List (Op α) → Prop
  | [] => True
  | op :: ops => (∀ key val, op = .set key val → s.keys.card < 805306368) ∧ Roomy null (s.step null op).1 ops

/-- What a caller sees of a finite map. -/
structure Behaves (null : α) (m : HashMap α) (s : Live α) : Prop where
  get : ∀ key, hmGet null m key = (s.lookup key).getD null
  count : m.count = s.keys.card
  each : (m.walk (m.cap + 1) 0 : Multiset (Sigma fun _ : Bytes => α)) = s.entries
  probes : Sound m.cap fnv1a m.slots

structure Valid (m : HashMap α) (b : Nat) (s : Live α) : Prop where
  cap : m.cap = 2 ^ b
  low : 3 ≤ b
  sound : Sound (2 ^ b) fnv1a m.slots
  entries : contents (2 ^ b) m.slots = s.entries
  count : m.count = s.entries.card
  load : m.count * 4 ≤ 2 ^ b * 3

variable {null : α} {m : HashMap α} {e : HMEntry α} {idx b : Nat} {s : Live α} {key : Bytes} {val : α}

theorem Valid.pow (valid : Valid m b s) (h : b ≤ 31) : ∃ k, 2 ^ b = 8 * k ∧ 0 < k ∧ 2 ^ b ≤ 2147483648 := by
  obtain ⟨a,rfl⟩ : ∃ a, b = a + 3 := ⟨b - 3,by have := valid.low; omega⟩
  have le : 2 ^ (a + 3) ≤ 2 ^ 31 := Nat.pow_le_pow_right (by omega) h
  exact ⟨2 ^ a,by rw [Nat.pow_add]; omega,Nat.two_pow_pos a,by omega⟩

theorem Valid.free (valid : Valid m b s) (h : b ≤ 31) : ∃ q < 2 ^ b, m.slots q = none := by
  obtain ⟨k,eight,pos,_⟩ := valid.pow h
  have load := valid.load
  refine RobinHood.freeSlot ?_
  rw [valid.entries,← valid.count]
  omega

theorem Valid.probeCases (valid : Valid m b s) (h : b ≤ 31) (early : Bool) (key : Bytes) :
    (∃ p < 2 ^ b, ∃ e, probe early m (fnv1a key) key m.cap 0 = some p ∧ m.slots p = some e ∧ e.key = key ∧
      s.lookup key = some e.val) ∨ probe early m (fnv1a key) key m.cap 0 = none ∧ s.lookup key = none := by
  obtain ⟨q,slot,free⟩ := valid.free h
  rw [probe.ring h valid.cap,valid.cap]
  exact valid.sound.findLookup valid.entries free slot key

theorem Valid.get (valid : Valid m b s) (h : b ≤ 31) (null : α) (key : Bytes) :
    hmGet null m key = (s.lookup key).getD null := by
  unfold hmGet
  rcases valid.probeCases h true key with ⟨p,_,e,found,here,_,is⟩ | ⟨missed,is⟩
  · rw [found,is]
    dsimp only
    rw [here]
    rfl
  · rw [missed,is]
    rfl

theorem Valid.clear (valid : Valid m b s) : Valid (hmClear m) b ∅ where
  cap := valid.cap
  low := valid.low
  sound := Sound.empty
  entries := Finset.sum_eq_zero fun _ _ => rfl
  count := rfl
  load := by simp [hmClear]

theorem Valid.grow (valid : Valid m b s) (h : b ≤ 30) :
    ∃ w, hmGrow m = some w ∧ Valid w (b + 1) s ∧ w.count = m.count := by
  obtain ⟨k,eight,pos,le⟩ := valid.pow (by omega)
  have twice : 2 ^ (b + 1) = 2 ^ b * 2 := Nat.pow_succ ..
  have max : 2 ^ (b + 1) ≤ 2 ^ 31 := Nat.pow_le_pow_right (by omega) (by omega)
  have newcap : m.cap * 2 % 2 ^ 32 = 2 ^ (b + 1) := by rw [valid.cap,← twice,Nat.mod_eq_of_lt (by omega)]
  obtain ⟨u,grown,sound,all⟩ : ∃ u, RobinHood.rehash (2 ^ (b + 1)) m.slots (2 ^ b) = some u ∧ Sound (2 ^ (b + 1)) fnv1a u ∧
      contents (2 ^ (b + 1)) u = contents (2 ^ b) m.slots := Sound.rehash valid.sound.hashed (by omega) (by omega)
  refine ⟨⟨u,2 ^ (b + 1),m.count⟩,?_,⟨rfl,?_,sound,all.trans valid.entries,valid.count,?_⟩,rfl⟩
  · unfold hmGrow
    dsimp only
    rw [newcap,rehash.ring (b := b + 1) (by omega),valid.cap,grown]
    rfl
  · have := valid.low
    omega
  · have := valid.load
    dsimp only
    omega

theorem Valid.put (valid : Valid m b s) (h : b ≤ 31) (room : m.count * 4 < 2 ^ b * 3) (key : Bytes) (val : α) :
    ∃ w, hmPut m key val = some w ∧ Valid w b (s.insert key val) := by
  obtain ⟨k,eight,pos,le⟩ := valid.pow h
  have whole : (s.insert key val).entries.card = (s.erase key).entries.card + 1 := by
    rw [RobinHood.insertEntries,Multiset.card_cons]
  unfold hmPut
  dsimp only
  rcases valid.probeCases h false key with ⟨p,below,e,found,here,rfl,is⟩ | ⟨missed,is⟩
  · obtain ⟨sound,entries⟩ := valid.sound.revalue valid.entries below here (by omega) val
    have same := congrArg Multiset.card (RobinHood.lookupEntries is)
    rw [Multiset.card_cons,← whole] at same
    rw [found]
    dsimp only
    rw [here]
    exact ⟨_,rfl,⟨valid.cap,valid.low,sound,entries,valid.count.trans same,valid.load⟩⟩
  · obtain ⟨q,slot,free⟩ := valid.free h
    obtain ⟨j,turn,far⟩ := RobinHood.reach (fnv1a key % 2 ^ b) slot
    obtain ⟨u,put,sound,all⟩ := valid.sound.insert (p := fnv1a key % 2 ^ b)
      (e := ⟨key,val,fnv1a key,0⟩) (by omega) free
      (Nat.mod_lt _ (by omega)) rfl rfl (fun _ _ _ => .inl rfl) far turn
    have one : (m.count + 1) % 2 ^ 32 = m.count + 1 := Nat.mod_eq_of_lt (by omega)
    rw [missed]
    dsimp only
    rw [valid.cap,hmInsertSlot.ring h,mask.mod h,put,one]
    refine ⟨_,rfl,⟨rfl,valid.low,sound,?_,?_,by dsimp only; omega⟩⟩
    · rw [all,valid.entries,RobinHood.insertEntries,RobinHood.eraseAbsent is,Multiset.add_comm]
      rfl
    · rw [whole,RobinHood.eraseAbsent is,← valid.count]

theorem Valid.del (valid : Valid m b s) (h : b ≤ 31) (key : Bytes) :
    ∃ w, hmDel m key = some (w,(s.lookup key).isSome) ∧ Valid w b (s.erase key) := by
  obtain ⟨k,eight,pos,le⟩ := valid.pow h
  unfold hmDel
  rcases valid.probeCases h true key with ⟨p,below,e,found,here,rfl,is⟩ | ⟨missed,is⟩
  · obtain ⟨q,slot,free⟩ := valid.free h
    obtain ⟨j,turn,far⟩ := RobinHood.reach p slot
    obtain ⟨u,shifted,sound,all⟩ := valid.sound.shift (n := 2 ^ b) (by omega) free below here far (by omega)
    have most := RobinHood.lookupEntries is
    have count := valid.count.trans (congrArg Multiset.card most)
    rw [Multiset.card_cons] at count
    have one : (m.count + (2 ^ 32 - 1)) % 2 ^ 32 = m.count - 1 := by
      have load := valid.load
      omega
    rw [found]
    dsimp only
    rw [valid.cap,hmShift.ring h,RobinHood.shiftStart (by omega) below,shifted,one,is]
    refine ⟨_,rfl,⟨rfl,valid.low,sound,?_,by dsimp only; omega,?_⟩⟩
    · rw [valid.entries,most,cell,Multiset.add_comm,Multiset.singleton_add] at all
      exact (Multiset.cons_inj_right _).mp all
    · have load := valid.load
      dsimp only
      omega
  · rw [missed,is,RobinHood.eraseAbsent is]
    exact ⟨m,rfl,valid⟩

/-- Below `2 ^ 31` slots neither side of the load check wraps. -/
theorem Valid.overLoad (valid : Valid m b s) (h : b ≤ 30) :
    m.count * 4 % 2 ^ 32 ≥ m.cap * 3 % 2 ^ 32 ↔ m.count * 4 = 2 ^ b * 3 := by
  have max : 2 ^ b ≤ 2 ^ 30 := Nat.pow_le_pow_right (by omega) h
  have load := valid.load
  rw [valid.cap,Nat.mod_eq_of_lt (by omega),Nat.mod_eq_of_lt (by omega)]
  omega

/-- The ring grows exactly when it is full to three quarters. -/
theorem Valid.setCases (valid : Valid m b s) (h : b ≤ 30) (key : Bytes) (val : α) :
    ∃ w, hmSet m key val = some w ∧
      (m.count * 4 < 2 ^ b * 3 ∧ Valid w b (s.insert key val) ∨
        m.count * 4 = 2 ^ b * 3 ∧ Valid w (b + 1) (s.insert key val)) := by
  have load := valid.load
  have top : b + 1 ≤ 31 := Nat.succ_le_succ h
  unfold hmSet
  by_cases full : m.count * 4 = 2 ^ b * 3
  · obtain ⟨g,grown,wide,same⟩ := valid.grow h
    have pos : 0 < 2 ^ b := Nat.two_pow_pos b
    have room : g.count * 4 < 2 ^ (b + 1) * 3 := by
      rw [same,full,Nat.pow_succ]
      omega
    obtain ⟨w,put,done⟩ := wide.put top room key val
    rw [if_pos ((valid.overLoad h).mpr full),grown,Option.bind_some]
    exact ⟨w,put,.inr ⟨full,done⟩⟩
  · have room : m.count * 4 < 2 ^ b * 3 := by omega
    obtain ⟨w,put,done⟩ := valid.put (Nat.le_of_lt top) room key val
    rw [if_neg (mt (valid.overLoad h).mp full)]
    exact ⟨w,put,.inl ⟨room,done⟩⟩

theorem keysCard (s : Live α) : s.keys.card = s.entries.card := Multiset.card_map _ _

theorem nextSkip (h : idx < m.bound) (none : m.slots idx = none) : m.hmNext idx = m.hmNext (idx + 1) := by
  unfold hmNext
  rw [show m.bound - idx = m.bound - (idx + 1) + 1 by omega,nextEntry,none]

theorem nextHere (h : idx < m.bound) (here : m.slots idx = some e) : m.hmNext idx = some (idx + 1,e) := by
  unfold hmNext
  rw [show m.bound - idx = m.bound - (idx + 1) + 1 by omega,nextEntry,here]

theorem walkFrom (m : HashMap α) : ∀ k idx n, idx + k = m.bound → k < n →
    m.walk n idx = (List.range' idx k).filterMap fun p => (m.slots p).map fun e => ⟨e.key,e.val⟩ := by
  intro k
  induction k with
  | zero =>
    intro idx n last lt
    obtain ⟨n,rfl⟩ : ∃ j, n = j + 1 := ⟨n - 1,by omega⟩
    unfold walk hmNext
    rw [show m.bound - idx = 0 by omega]
    rfl
  | succ k ih =>
    intro idx n last lt
    obtain ⟨n,rfl⟩ : ∃ j, n = j + 1 := ⟨n - 1,by omega⟩
    rw [List.range'_succ]
    cases is : m.slots idx with
    | none =>
      rw [List.filterMap_cons_none (by rw [is]; rfl),← ih (idx + 1) (n + 1) (by omega) (by omega)]
      unfold walk
      rw [nextSkip (by omega) is]
    | some e =>
      rw [List.filterMap_cons_some (by rw [is]; rfl),← ih (idx + 1) n (by omega) (by omega)]
      conv_lhs => unfold walk
      rw [nextHere (by omega) is]

theorem Valid.bound (valid : Valid m b s) (h : b ≤ 30) : m.bound = 2 ^ b := by
  have max : 2 ^ b ≤ 2 ^ 30 := Nat.pow_le_pow_right (by omega) h
  unfold HashMap.bound
  rw [valid.cap,if_pos (by omega)]

theorem Valid.behaves (valid : Valid m b s) (h : b ≤ 30) (null : α) : Behaves null m s where
  get := valid.get (by omega) null
  count := valid.count.trans (keysCard s).symm
  each := by
    rw [← valid.entries,← RobinHood.coeListing,walkFrom m (2 ^ b) 0 _ (by rw [valid.bound h,Nat.zero_add])
      (by rw [valid.cap]; omega)]
    rw [RobinHood.listing,List.range_eq_range']
  probes := valid.cap ▸ valid.sound

theorem roundUpPow {cap : Nat} (fits : cap ≤ 2 ^ 30) :
    ∀ n i, i ≤ 30 → 30 < i + n → ∃ b ≤ 30, roundUp n (2 ^ i) cap = some (2 ^ b) ∧ cap ≤ 2 ^ b := by
  intro n
  induction n with
  | zero =>
    intro i le lt
    omega
  | succ n ih =>
    intro i le lt
    unfold roundUp
    split
    · rename_i less
      have below : 2 ^ i < 2 ^ 30 := Nat.lt_of_lt_of_le less fits
      have room : i < 30 := (Nat.pow_lt_pow_iff_right (by omega)).mp below
      rw [Nat.mod_eq_of_lt (by omega),← Nat.pow_succ]
      exact ih (i + 1) room (by omega)
    · exact ⟨i,le,rfl,by omega⟩

theorem initValid {cap : Nat} (fits : cap ≤ 2 ^ 30) :
    ∃ m : HashMap α, ∃ b ≤ 30, hmInit cap = some m ∧ Valid m b ∅ := by
  have least : (if cap < 8 then 8 else cap) ≤ 2 ^ 30 := by split <;> omega
  obtain ⟨b,le,up,least⟩ := roundUpPow least 33 0 (by omega) (by omega)
  have low : 3 ≤ b := by
    by_contra small
    have max : 2 ^ b ≤ 2 ^ 2 := Nat.pow_le_pow_right (by omega) (by omega)
    split at least <;> omega
  refine ⟨⟨fun _ => none,2 ^ b,0⟩,b,le,?_,⟨rfl,low,Sound.empty,Finset.sum_eq_zero fun _ _ => rfl,rfl,by simp⟩⟩
  unfold hmInit
  rw [show (1 : Nat) = 2 ^ 0 from rfl,up]
  rfl

theorem Valid.stepKeeps (valid : Valid m b s) (h : b ≤ 30) (null : α) (op : Op α)
    (room : ∀ key val, op = .set key val → s.keys.card < 805306368) :
    ∃ w, ∃ d ≤ 30, step null m op = some (w,(s.step null op).2) ∧ Valid w d (s.step null op).1 := by
  cases op with
  | set key val =>
    obtain ⟨w,run,same | ⟨full,grown⟩⟩ := valid.setCases h key val
    · exact ⟨w,b,h,by rw [HashMap.step,run]; rfl,same.2⟩
    · have less := room key val rfl
      rw [keysCard,← valid.count] at less
      have below : 2 ^ b < 2 ^ 30 := by omega
      have top : b < 30 := (Nat.pow_lt_pow_iff_right (by omega)).mp below
      exact ⟨w,b + 1,top,by rw [HashMap.step,run]; rfl,grown⟩
  | get key => exact ⟨m,b,h,by rw [HashMap.step,valid.get (by omega)]; rfl,valid⟩
  | del key =>
    obtain ⟨w,run,less⟩ := valid.del (by omega) key
    exact ⟨w,b,h,by rw [HashMap.step,run]; rfl,less⟩
  | clear => exact ⟨hmClear m,b,h,rfl,valid.clear⟩

theorem Valid.runKeeps (valid : Valid m b s) (h : b ≤ 30) (null : α) (ops : List (Op α)) (roomy : Live.Roomy null s ops) :
    ∃ w, ∃ d ≤ 30, run null m ops = some (w,(s.run null ops).2) ∧ Valid w d (s.run null ops).1 := by
  induction ops generalizing m b s with
  | nil => exact ⟨m,b,h,rfl,valid⟩
  | cons op ops ih =>
    obtain ⟨w,d,le,stepped,next⟩ := valid.stepKeeps h null op roomy.1
    obtain ⟨z,g,top,ran,last⟩ := ih next le roomy.2
    refine ⟨z,g,top,?_,last⟩
    rw [HashMap.run,stepped,Option.bind_some]
    dsimp only
    rw [ran]
    rfl

/-- While no `hm_set` comes with `3 * 2 ^ 28` live keys, the map is the finite map of its operations. -/
theorem finiteMap (null : α) (cap : Nat) (fits : cap ≤ 2 ^ 30) (ops : List (Op α)) (roomy : Live.Roomy null ∅ ops) :
    ∃ m, (hmInit cap).bind (run null · ops) = some (m,(Live.run null ∅ ops).2) ∧
      Behaves null m (Live.run null ∅ ops).1 := by
  obtain ⟨m,b,le,init,valid⟩ := initValid (α := α) fits
  obtain ⟨w,d,top,ran,last⟩ := valid.runKeeps le null ops roomy
  exact ⟨w,by rw [init,Option.bind_some,ran],last.behaves top null⟩

theorem finiteMapSome : Live.Roomy 0 ∅ [ .set [97] 1, .set [98] 2, .del [97], .get [98] ] ∧
    ∃ m, (hmInit 16).bind (run 0 · [ .set [97] 1, .set [98] 2, .del [97], .get [98] ]) =
      some (m,(Live.run 0 ∅ [ .set [97] 1, .set [98] 2, .del [97], .get [98] ]).2) ∧
        Behaves 0 m (Live.run 0 ∅ [ .set [97] 1, .set [98] 2, .del [97], .get [98] ]).1 := by
  have roomy : Live.Roomy 0 ∅ [ .set [97] 1, .set [98] 2, .del [97], .get [98] ] :=
    ⟨fun _ _ _ => by decide,fun _ _ _ => by decide,nofun,nofun,trivial⟩
  exact ⟨roomy,finiteMap 0 16 (by decide) _ roomy⟩

/-- One more key than three quarters of `2 ^ 30` slots makes the ring `2 ^ 31` slots. -/
theorem Valid.fill (valid : Valid m b s) (h : b ≤ 30) (null : α) (val : α) (ks : List Bytes) (distinct : ks.Nodup)
    (fresh : ∀ k ∈ ks, s.lookup k = none) (total : m.count + ks.length = 805306369) :
    ∃ w rs, run null m (ks.map fun k => .set k val) = some (w,rs) ∧ w.cap = 2 ^ 31 ∧ w.count = 805306369 := by
  have max : 2 ^ b ≤ 2 ^ 30 := Nat.pow_le_pow_right (by omega) h
  have load := valid.load
  induction ks generalizing m b s with
  | nil =>
    rw [List.length_nil] at total
    omega
  | cons k ks ih =>
    obtain ⟨new,distinct⟩ := List.nodup_cons.mp distinct
    have absent := fresh k List.mem_cons_self
    have more : (s.insert k val).entries.card = m.count + 1 := by
      rw [RobinHood.insertEntries,Multiset.card_cons,RobinHood.eraseAbsent absent,valid.count]
    have unseen : ∀ x ∈ ks, (s.insert k val).lookup x = none := by
      intro x mem
      rw [Finmap.lookup_insert_of_ne _ (by rintro rfl; exact new mem)]
      exact fresh x (List.mem_cons_of_mem _ mem)
    rw [List.length_cons] at total
    have onward : ∀ {w d}, hmSet m k val = some w → Valid w d (s.insert k val) → d ≤ 30 →
        ∃ z rs, run null m (.set k val :: ks.map fun k => .set k val) = some (z,rs) ∧ z.cap = 2 ^ 31 ∧
          z.count = 805306369 := by
      intro w d ran next top
      have count := next.count.trans more
      obtain ⟨z,rs,rest,full⟩ := ih next top distinct unseen (by omega)
        (Nat.pow_le_pow_right (by omega) top) next.load
      refine ⟨z,.done :: rs,?_,full⟩
      rw [run,step,ran,Option.map_some,Option.bind_some]
      dsimp only
      rw [rest]
      rfl
    obtain ⟨w,ran,⟨_,same⟩ | ⟨full,grown⟩⟩ := valid.setCases h k val
    · exact onward ran same h
    · by_cases top : b + 1 ≤ 30
      · exact onward ran grown top
      · have is : b = 30 := by omega
        subst is
        have none : ks = [] := List.eq_nil_of_length_eq_zero (by omega)
        have count := grown.count.trans more
        subst none
        refine ⟨w,[ .done],?_,grown.cap,by omega⟩
        rw [List.map_cons,run,step,ran]
        rfl

theorem decimalInj {a b : Nat} (h : decimal a = decimal b) : a = b := by
  rw [← digitsDecimal (Nat.le_refl a),← digitsDecimal (Nat.le_refl b)]
  exact congrArg _ h

/-- After 805306369 different keys `hm_next` finds none of them. -/
theorem growthHides : ¬ ∀ ops : List (Op Nat), ∃ m, (hmInit 8).bind (run 0 · ops) = some (m,(Live.run 0 ∅ ops).2) ∧
    Behaves 0 m (Live.run 0 ∅ ops).1 := by
  intro claim
  obtain ⟨m,b,le,init,valid⟩ := initValid (α := Nat) (show 8 ≤ 2 ^ 30 by decide)
  obtain ⟨w,rs,ran,cap,count⟩ := valid.fill le 0 0 ((List.range 805306369).map decimal)
    (List.Nodup.map (fun _ _ => decimalInj) List.nodup_range) (fun _ _ => rfl)
    (by rw [valid.count,List.length_map,List.length_range]; rfl)
  obtain ⟨z,same,behaves⟩ := claim (((List.range 805306369).map decimal).map fun k => .set k 0)
  rw [init,Option.bind_some,ran] at same
  cases same
  have hidden : w.bound = 0 := by
    unfold HashMap.bound
    rw [cap]
    rfl
  have each := behaves.each
  rw [walkFrom w 0 0 _ hidden.symm (by omega)] at each
  have live := behaves.count
  rw [count,keysCard,← each] at live
  cases live

end Napastak.HashMap
