import Napastak.CStr
import Napastak.Lib.RobinHood

/-! `hashmap.c`: string keys on a ring of slots whose number is a power of two in a `uint32_t`. A slot with
a NULL key is `none`, its other fields are never read. -/
namespace Napastak
open RobinHood (Entry Table)

abbrev HMEntry (α : Type) := Entry Bytes α

structure HashMap (α : Type) where
  slots : Table Bytes α
  cap : Nat
  count : Nat

namespace HashMap

variable {α : Type}

def fnv1a (s : Bytes) : Nat :=
  let h := s.foldl (fun h c => (h ^^^ c.toUInt32) * 16777619) (2166136261 : UInt32)
  if h = 0 then 1 else h.toNat

/-- `cap - 1` of a `uint32_t`. -/
def mask (cap : Nat) : Nat := (cap + (2 ^ 32 - 1)) % 2 ^ 32

def roundUp : Nat → Nat → Nat → Option Nat
  | 0, _, _ => none
  | n + 1, c, cap => if c < cap then roundUp n (c * 2 % 2 ^ 32) cap else some c

/-- A capacity above `2 ^ 31` is never reached by doubling. -/
def hmInit (cap : Nat) : Option (HashMap α) :=
  (roundUp 33 1 (if cap < 8 then 8 else cap)).map fun c => ⟨fun _ => none,c,0⟩

/-- Without a free slot among `cap` the loop does not end. -/
def hmInsertSlot (cap : Nat) : Nat → Nat → Table Bytes α → HMEntry α → Option (Table Bytes α)
  | 0, _, _, _ => none
  | n + 1, idx, slots, e =>
    match slots idx with
    | none => some (Function.update slots idx (some e))
    | some s =>
      if s.psl < e.psl then
        hmInsertSlot cap n (idx + 1 &&& mask cap) (Function.update slots idx (some e)) {s with psl := s.psl + 1}
      else hmInsertSlot cap n (idx + 1 &&& mask cap) slots {e with psl := e.psl + 1}

/-- The entries of the first `n` slots put into `newcap` new ones. -/
def rehash (slots : Table Bytes α) (newcap : Nat) : Nat → Option (Table Bytes α)
  | 0 => some fun _ => none
  | n + 1 =>
    (rehash slots newcap n).bind fun newslots =>
      match slots n with
      | none => some newslots
      | some e => hmInsertSlot newcap newcap (e.hash &&& mask newcap) newslots {e with psl := 0}

def hmGrow (m : HashMap α) : Option (HashMap α) :=
  let newcap := m.cap * 2 % 2 ^ 32
  (rehash m.slots newcap m.cap).map fun newslots => ⟨newslots,newcap,m.count⟩

/-- The loop over the slots of a key, from the `i`-th behind its home on; `early` is the return at an
entry with a smaller distance, which `hm_set` does not have. -/
def probe (early : Bool) (m : HashMap α) (h : Nat) (key : Bytes) : Nat → Nat → Option Nat
  | 0, _ => none
  | n + 1, i =>
    let pos := (h &&& mask m.cap) + i &&& mask m.cap
    match m.slots pos with
    | none => none
    | some s =>
      if s.hash = h ∧ strcmp s.key key = 0 then some pos
      else if early ∧ s.psl < i then none else probe early m h key n (i + 1)

/-- `hm_set` behind the check of the load. -/
def hmPut (m : HashMap α) (key : Bytes) (val : α) : Option (HashMap α) :=
  let h := fnv1a key
  match probe false m h key m.cap 0 with
  | some pos => some {m with slots := Function.update m.slots pos ((m.slots pos).map fun s => {s with val := val})}
  | none =>
    (hmInsertSlot m.cap m.cap (h &&& mask m.cap) m.slots ⟨key,val,h,0⟩).map fun slots =>
      {m with slots := slots,count := (m.count + 1) % 2 ^ 32}

def hmSet (m : HashMap α) (key : Bytes) (val : α) : Option (HashMap α) :=
  if m.count * 4 % 2 ^ 32 ≥ m.cap * 3 % 2 ^ 32 then (hmGrow m).bind fun m => hmPut m key val else hmPut m key val

/-- `null` is the pointer returned for a key that is not there. -/
def hmGet (null : α) (m : HashMap α) (key : Bytes) : α :=
  match probe true m (fnv1a key) key m.cap 0 with
  | some pos => ((m.slots pos).map (·.val)).getD null
  | none => null

/-- The entries behind the hole at `pos` move back by one slot. -/
def hmShift (cap : Nat) : Nat → Nat → Table Bytes α → Option (Table Bytes α)
  | 0, _, _ => none
  | n + 1, pos, slots =>
    let npos := pos + 1 &&& mask cap
    match slots npos with
    | none => some (Function.update slots pos none)
    | some e =>
      if e.psl = 0 then some (Function.update slots pos none)
      else hmShift cap n npos (Function.update slots pos (some {e with psl := e.psl - 1}))

def hmDel (m : HashMap α) (key : Bytes) : Option (HashMap α × Bool) :=
  match probe true m (fnv1a key) key m.cap 0 with
  | none => some (m,false)
  | some pos =>
    (hmShift m.cap m.cap pos (Function.update m.slots pos none)).map fun slots =>
      ({m with slots := slots,count := (m.count + (2 ^ 32 - 1)) % 2 ^ 32},true)

def hmClear (m : HashMap α) : HashMap α := {m with slots := fun _ => none,count := 0}

/-- The slots below `(int)m->cap`: from `2 ^ 31` on the cast is negative and there are none. -/
def bound (m : HashMap α) : Nat := if m.cap < 2 ^ 31 then m.cap else 0

def nextEntry (slots : Table Bytes α) : Nat → Nat → Option (Nat × HMEntry α)
  | 0, _ => none
  | n + 1, i =>
    match slots i with
    | some e => some (i + 1,e)
    | none => nextEntry slots n (i + 1)

/-- The first entry from slot `idx` on and the slot to go on from; `none` is -1. -/
def hmNext (m : HashMap α) (idx : Nat) : Option (Nat × HMEntry α) := nextEntry m.slots (m.bound - idx) idx

/-- `for (idx = hm_next(m, 0, &k, &v); idx >= 0; idx = hm_next(m, idx, &k, &v))`, for `n` calls at most. -/
def walk (m : HashMap α) : Nat → Nat → List (Sigma fun _ : Bytes => α)
  | 0, _ => []
  | n + 1, idx =>
    match m.hmNext idx with
    | none => []
    | some (next,e) => ⟨e.key,e.val⟩ :: walk m n next

/-! The same walks on a ring of `2 ^ b` slots. -/

section Ring

variable {b : Nat}

theorem mask.mod (h : b ≤ 31) (a : Nat) : a &&& mask (2 ^ b) = a % 2 ^ b := by
  have pos : 0 < 2 ^ b := Nat.two_pow_pos b
  have le : 2 ^ b ≤ 2 ^ 31 := Nat.pow_le_pow_right (by omega) h
  have is : mask (2 ^ b) = 2 ^ b - 1 := by
    unfold mask
    rw [show 2 ^ b + (2 ^ 32 - 1) = 2 ^ b - 1 + 2 ^ 32 by omega,Nat.add_mod_right,Nat.mod_eq_of_lt (by omega)]
  rw [is,Nat.and_two_pow_sub_one_eq_mod]

theorem hmInsertSlot.ring (h : b ≤ 31) (n idx : Nat) (slots : Table Bytes α) (e : HMEntry α) :
    hmInsertSlot (2 ^ b) n idx slots e = RobinHood.insert (2 ^ b) n idx slots e := by
  induction n generalizing idx slots e with
  | zero => rfl
  | succ n ih =>
    unfold hmInsertSlot RobinHood.insert
    simp only [mask.mod h,ih,RobinHood.next]
    cases slots idx <;> rfl

theorem hmShift.ring (h : b ≤ 31) (n pos : Nat) (slots : Table Bytes α) :
    hmShift (2 ^ b) n pos slots = RobinHood.shift (2 ^ b) n pos slots := by
  induction n generalizing pos slots with
  | zero => rfl
  | succ n ih =>
    unfold hmShift RobinHood.shift
    simp only [mask.mod h,ih,RobinHood.next]
    cases slots ((pos + 1) % 2 ^ b) <;> rfl

theorem rehash.ring (h : b ≤ 31) (slots : Table Bytes α) (n : Nat) :
    rehash slots (2 ^ b) n = RobinHood.rehash (2 ^ b) slots n := by
  induction n with
  | zero => rfl
  | succ n ih =>
    unfold rehash RobinHood.rehash
    simp only [ih,mask.mod h,hmInsertSlot.ring h]
    congr 1
    funext u
    cases slots n <;> rfl

theorem strcmpEq (s t : Bytes) : strcmp s t = 0 ↔ s = t := ⟨strcmpZero,fun h => h ▸ strcmpSelf s⟩

theorem probe.ring (h : b ≤ 31) {m : HashMap α} (cap : m.cap = 2 ^ b) (early : Bool) (hash : Nat) (key : Bytes) (n i : Nat) :
    probe early m hash key n i = RobinHood.find early (2 ^ b) m.slots hash key n i := by
  induction n generalizing i with
  | zero => rfl
  | succ n ih =>
    unfold probe RobinHood.find
    simp only [cap,mask.mod h,Nat.mod_add_mod,strcmpEq,ih]
    cases m.slots ((hash + i) % 2 ^ b) <;> rfl

end Ring

end HashMap
end Napastak
