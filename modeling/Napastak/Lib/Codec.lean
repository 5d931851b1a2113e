import Mathlib.Data.List.Forall2
import Mathlib.Tactic.IntervalCases
import Mathlib.Tactic.Ring

/-! Byte readers, and what it means for a reader to take up exactly what a writer put
down: on the written bytes followed by anything, it gives the value and leaves the rest. -/
namespace Napastak.Codec

abbrev Reader := StateT (List UInt8) Option

/-- `n` bytes of a number, least significant first. -/
def leBytes : Nat → Nat → List UInt8
  | 0, _ => []
  | n + 1, v => UInt8.ofNat (v % 256) :: leBytes n (v / 256)

def leValue : List UInt8 → Nat
  | [] => 0
  | b :: bs => b.toNat + 256 * leValue bs

def rdBytes (n : Nat) : Reader (List UInt8) := fun s =>
  if s.length < n then none else some (s.take n,s.drop n)

def rdLe (n : Nat) : Reader Nat := leValue <$> rdBytes n

def rdMany {α : Type} (r : Reader α) : Nat → Reader (List α)
  | 0 => pure []
  | n + 1 => do
    let x ← r
    let xs ← rdMany r n
    pure (x :: xs)

/-- At most `n` items, as long as there is input. -/
def rdWhile {α : Type} (r : Reader α) : Nat → Reader (List α)
  | 0 => pure []
  | n + 1 => fun s =>
    if s = [] then some ([],s)
    else (do
      let x ← r
      let xs ← rdWhile r n
      pure (x :: xs)) s

@[simp] theorem leBytesLength (n v : Nat) : (leBytes n v).length = n := by
  induction n generalizing v with
  | zero => rfl
  | succ n ih => simp [leBytes,ih]

theorem leValueBytes {n v : Nat} (h : v < 256 ^ n) : leValue (leBytes n v) = v := by
  induction n generalizing v with
  | zero => simp at h; simp [leBytes,leValue,h]
  | succ n ih =>
    have quot : v / 256 < 256 ^ n := by
      rw [Nat.pow_succ] at h
      exact Nat.div_lt_of_lt_mul (by rw [Nat.mul_comm]; exact h)
    simp only [leBytes,leValue,ih quot]
    rw [UInt8.toNat_ofNat_of_lt' (show v % 256 < 256 from Nat.mod_lt _ (by decide))]
    omega

theorem leValueLess (bs : List UInt8) : leValue bs < 256 ^ bs.length := by
  induction bs with
  | nil => decide
  | cons b bs ih =>
    have := b.toNat_lt
    rw [leValue,List.length_cons,Nat.pow_succ]
    omega

/-- On `bs` and anything after it the reader gives `o`, and leaves what was after. -/
def Reads {α : Type} (r : Reader α) (bs : List UInt8) (o : Option α) : Prop :=
  ∀ rest, r (bs ++ rest) = o.map fun a => (a,rest)

variable {α β : Type}

theorem readsPure (a : α) : Reads (pure a) [] (some a) := fun _ => rfl

theorem readsFail : Reads (fun _ => none : Reader α) [] none := fun _ => rfl

theorem readsBind {r : Reader α} {f : α → Reader β} {bs cs : List UInt8} {o : Option α} {g : α → Option β}
    (first : Reads r bs o) (then_ : ∀ a, o = some a → Reads (f a) cs (g a)) : Reads (r >>= f) (bs ++ cs) (o.bind g) := by
  intro rest
  have := first (cs ++ rest)
  rw [← List.append_assoc] at this
  show (r (bs ++ cs ++ rest)).bind (fun p => f p.1 p.2) = _
  rw [this]
  cases o with
  | none => rfl
  | some a => exact then_ a rfl rest

/-- The usual step: the first part is there, the rest decides. -/
theorem readsThen {r : Reader α} {f : α → Reader β} {bs cs : List UInt8} {a : α} {o : Option β}
    (first : Reads r bs (some a)) (then_ : Reads (f a) cs o) : Reads (r >>= f) (bs ++ cs) o :=
  readsBind (g := fun _ => o) first fun _ h => Option.some.inj h ▸ then_

theorem readsMap {r : Reader α} {bs : List UInt8} {o : Option α} (f : α → β) (h : Reads r bs o) :
    Reads (f <$> r) bs (o.map f) := by
  intro rest
  show (r (bs ++ rest)).bind (fun p => some (f p.1,p.2)) = _
  rw [h rest]
  cases o <;> rfl

theorem readsBytes {n : Nat} {bs : List UInt8} (h : bs.length = n) : Reads (rdBytes n) bs (some bs) := by
  intro rest
  subst h
  simp [rdBytes]

theorem readsLe {n v : Nat} (h : v < 256 ^ n) : Reads (rdLe n) (leBytes n v) (some v) := by
  have := readsMap leValue (readsBytes (leBytesLength n v))
  rwa [Option.map_some,leValueBytes h] at this

/-- Reading a head and then a tail. -/
theorem readsCons {r : Reader α} {rs : Reader (List α)} {bs cs : List UInt8} {o : Option α} {os : Option (List α)}
    (head : Reads r bs o) (tail : Reads rs cs os) :
    Reads (r >>= fun x => rs >>= fun xs => pure (x :: xs)) (bs ++ cs) (o.bind fun a => os.map (a :: ·)) := by
  refine readsBind head fun a _ => ?_
  have := readsBind (f := fun as => pure (a :: as)) (g := fun as => some (a :: as)) tail
    fun as _ => (readsPure _ : Reads _ [] _)
  rw [List.append_nil] at this
  rwa [show (fun as => some (a :: as)) = some ∘ (a :: ·) from rfl,← Option.map_eq_bind] at this

/-- Whether the written bytes are taken up, and nothing after them, does not depend on what follows. -/
theorem readsAll {r : Reader α} {bs : List UInt8} {o : Option α} (h : Reads r bs o) :
    (∀ rest, ∃ a, r (bs ++ rest) = some (a,rest)) ↔ o.isSome := by
  constructor
  · intro all
    obtain ⟨a,ha⟩ := all []
    rw [h []] at ha
    cases o with
    | none => cases ha
    | some _ => rfl
  · intro some_ rest
    obtain ⟨a,rfl⟩ := Option.isSome_iff_exists.mp some_
    exact ⟨a,h rest⟩

theorem mapMCons {γ : Type} (f : γ → Option α) (x : γ) (xs : List γ) :
    (x :: xs).mapM f = (f x).bind fun a => (xs.mapM f).map (a :: ·) := by
  rw [List.mapM_cons]
  cases f x <;> cases xs.mapM f <;> rfl

theorem mapMSome {γ : Type} {f : γ → Option α} {xs : List γ} {ys : List α} :
    xs.mapM f = some ys ↔ List.Forall₂ (fun x y => f x = some y) xs ys := by
  induction xs generalizing ys with
  | nil => simp [eq_comm]
  | cons x xs ih =>
    rw [mapMCons,Option.bind_eq_some_iff]
    cases ys with
    | nil => simp
    | cons y ys => simp [Option.map_eq_some_iff,ih]

/-- An element of the second list has its partner in the first. -/
theorem partner {α β : Type} {R : α → β → Prop} {xs : List α} {ys : List β} (h : List.Forall₂ R xs ys) {y : β} (hy : y ∈ ys) :
    ∃ x ∈ xs, R x y := by
  induction h with
  | nil => cases hy
  | cons r _ ih =>
    rcases List.mem_cons.mp hy with rfl | hy
    · exact ⟨_,List.mem_cons_self ..,r⟩
    · obtain ⟨x,hx,r⟩ := ih hy
      exact ⟨x,List.mem_cons_of_mem _ hx,r⟩

theorem mapMSelf {f : α → Option α} {xs : List α} (h : ∀ x ∈ xs, f x = some x) : xs.mapM f = some xs :=
  mapMSome.mpr (List.forall₂_same.mpr h)

theorem mapMMap {γ : Type} {f : γ → Option α} {g : γ → α} {xs : List γ} (h : ∀ x ∈ xs, f x = some (g x)) :
    xs.mapM f = some (xs.map g) :=
  mapMSome.mpr (List.forall₂_map_right_iff.mpr (List.forall₂_same.mpr h))

theorem mapMCongr {γ : Type} {f g : γ → Option α} {xs : List γ} (h : ∀ x ∈ xs, f x = g x) : xs.mapM f = xs.mapM g := by
  induction xs with
  | nil => rfl
  | cons x xs ih =>
    rw [mapMCons,mapMCons,h x List.mem_cons_self,ih fun y hy => h y (List.mem_cons_of_mem _ hy)]

theorem forallExists {γ : Type} {r : γ → α → Prop} {xs : List γ} :
    (∃ ys, List.Forall₂ r xs ys) ↔ ∀ x ∈ xs, ∃ y, r x y := by
  induction xs with
  | nil => simp
  | cons x xs ih =>
    rw [List.forall_mem_cons,← ih]
    constructor
    · rintro ⟨_,h⟩
      cases h with | cons one rest => exact ⟨⟨_,one⟩,_,rest⟩
    · rintro ⟨⟨y,one⟩,ys,rest⟩; exact ⟨y :: ys,.cons one rest⟩

theorem forallBoth {γ : Type} {r s : γ → α → Prop} {xs : List γ} {ys : List α} :
    List.Forall₂ (fun x y => r x y ∧ s x y) xs ys ↔ List.Forall₂ r xs ys ∧ List.Forall₂ s xs ys := by
  constructor
  · intro h; exact ⟨h.imp fun _ _ => And.left,h.imp fun _ _ => And.right⟩
  · rintro ⟨h,g⟩
    induction h with
    | nil => exact .nil
    | cons one _ ih => cases g with | cons two rest => exact .cons ⟨one,two⟩ (ih rest)

theorem mapMIsSome {γ : Type} {f : γ → Option α} {xs : List γ} : (xs.mapM f).isSome ↔ ∀ x ∈ xs, (f x).isSome := by
  simp only [Option.isSome_iff_exists,mapMSome]
  exact forallExists

theorem readsMany {γ : Type} {r : Reader α} {w : γ → List UInt8} {f : γ → Option α} (xs : List γ)
    (each : ∀ x ∈ xs, Reads r (w x) (f x)) : Reads (rdMany r xs.length) (xs.flatMap w) (xs.mapM f) := by
  induction xs with
  | nil => exact readsPure []
  | cons x xs ih =>
    rw [mapMCons]
    exact readsCons (each x (by simp)) (ih fun y hy => each y (List.mem_cons_of_mem _ hy))

theorem readsWhile {γ : Type} {r : Reader α} {w : γ → List UInt8} {f : γ → Option α} (xs : List γ)
    (some_ : ∀ x ∈ xs, w x ≠ []) (each : ∀ x ∈ xs, Reads r (w x) (f x)) :
    Reads (rdWhile r xs.length) (xs.flatMap w) (xs.mapM f) := by
  induction xs with
  | nil => exact readsPure []
  | cons x xs ih =>
    have step := readsCons (each x (by simp))
      (ih (fun y hy => some_ y (List.mem_cons_of_mem _ hy)) fun y hy => each y (List.mem_cons_of_mem _ hy))
    rw [mapMCons]
    intro rest
    have more : (x :: xs).flatMap w ++ rest ≠ [] := by simp [some_ x (by simp)]
    simp only [List.length_cons,rdWhile,if_neg more]
    exact step rest

/-! ### Numbers of one width, side by side -/

/-- Low bits first. -/
def packed (w : Nat) : List Nat → Nat
  | [] => 0
  | v :: vs => v + 2 ^ w * packed w vs

theorem packedLess {w : Nat} {vs : List Nat} (below : ∀ v ∈ vs, v < 2 ^ w) : packed w vs < 2 ^ (w * vs.length) := by
  induction vs with
  | nil => simp [packed]
  | cons v vs ih =>
    have head : v < 2 ^ w := below v List.mem_cons_self
    have tail : packed w vs + 1 ≤ 2 ^ (w * vs.length) := ih fun u hu => below u (List.mem_cons_of_mem _ hu)
    have scaled := Nat.mul_le_mul_left (2 ^ w) tail
    rw [packed,List.length_cons,show w * (vs.length + 1) = w + w * vs.length by ring,Nat.pow_add]
    rw [Nat.mul_add] at scaled
    omega

theorem packedGet {w : Nat} {vs : List Nat} (below : ∀ v ∈ vs, v < 2 ^ w) {i : Nat} (inside : i < vs.length) :
    (packed w vs >>> (i * w)) % 2 ^ w = vs[i] := by
  induction vs generalizing i with
  | nil => simp at inside
  | cons v vs ih =>
    have head : v < 2 ^ w := below v List.mem_cons_self
    cases i with
    | zero => simp [packed,Nat.mod_eq_of_lt head]
    | succ i =>
      have rest : (v + 2 ^ w * packed w vs) >>> w = packed w vs := by
        rw [Nat.shiftRight_eq_div_pow,Nat.add_mul_div_left _ _ (Nat.two_pow_pos w),Nat.div_eq_of_lt head,Nat.zero_add]
      rw [packed,show (i + 1) * w = w + i * w by ring,Nat.shiftRight_add,rest]
      exact ih (fun u hu => below u (List.mem_cons_of_mem _ hu)) (by simpa using inside)

/-- A number read bit by bit. -/
theorem bitsFold (m s n : Nat) :
    (List.range n).foldl (fun r k => r ||| (m >>> (s + k) % 2) <<< k) 0 = (m >>> s) % 2 ^ n := by
  induction n with
  | zero => simp [Nat.mod_one]
  | succ n ih =>
    have low : m >>> s % 2 ^ n < 2 ^ n := Nat.mod_lt _ (Nat.two_pow_pos n)
    rw [List.range_succ,List.foldl_append,ih,List.foldl_cons,List.foldl_nil,Nat.or_comm,← Nat.shiftLeft_add_eq_or_of_lt low,
      Nat.shiftLeft_eq,Nat.shiftRight_add,Nat.mod_pow_succ,Nat.shiftRight_eq_div_pow (m >>> s) n]
    ring

theorem leBit (bs : List UInt8) (i : Nat) : ((bs[i / 8]?.getD 0).toNat >>> (i % 8)) % 2 = (leValue bs >>> i) % 2 := by
  induction bs generalizing i with
  | nil => simp [leValue]
  | cons b bs ih =>
    have byte := b.toNat_lt
    by_cases first : i < 8
    · rw [Nat.div_eq_of_lt first,Nat.mod_eq_of_lt first,leValue,List.getElem?_cons_zero,Option.getD_some]
      simp only [Nat.shiftRight_eq_div_pow]
      interval_cases i <;> omega
    · obtain ⟨j,rfl⟩ : ∃ j, i = 8 + j := ⟨i - 8,by omega⟩
      have rest : (b.toNat + 256 * leValue bs) >>> 8 = leValue bs := by
        rw [Nat.shiftRight_eq_div_pow]
        omega
      rw [show (8 + j) / 8 = j / 8 + 1 by omega,show (8 + j) % 8 = j % 8 by omega,List.getElem?_cons_succ,ih j,leValue,
        Nat.shiftRight_add _ 8,rest]

end Napastak.Codec
