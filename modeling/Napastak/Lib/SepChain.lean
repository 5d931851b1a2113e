import Mathlib.Data.List.Basic
import Mathlib.Order.Basic
import Mathlib.Tactic.Common
import Mathlib.Algebra.Order.Ring.Nat

/-! Blocks of sorted keys with a separator between every two neighbours: the
bottom level of a search tree, without the tree. Descending by a downward closed
test on separators and replacing the block that is met are defined here, and the
order of the whole sequence is one `Pairwise` statement about `flat`. -/
namespace Napastak.SepChain

inductive Chain (κ β : Type) where
  | one (b : β)
  | cons (b : β) (k : κ) (rest : Chain κ β)

variable {κ β : Type}

def cat : Chain κ β → κ → Chain κ β → Chain κ β
  | .one b, k, c => .cons b k c
  | .cons b k' r, k, c => .cons b k' (cat r k c)

def blocks : Chain κ β → List β
  | .one b => [b]
  | .cons b _ r => b :: blocks r

def seps : Chain κ β → List κ
  | .one _ => []
  | .cons _ k r => k :: seps r

def head : Chain κ β → β
  | .one b => b
  | .cons b _ _ => b

def flat (keys : β → List κ) : Chain κ β → List κ
  | .one b => keys b
  | .cons b k r => keys b ++ k :: flat keys r

/-- Replace the block met by the descent that goes right at every separator where `p` holds. -/
def splice (p : κ → Bool) (f : β → Chain κ β) : Chain κ β → Chain κ β
  | .one b => f b
  | .cons b k r => if p k then .cons b k (splice p f r) else cat (f b) k r

/-- The chain from the block met by the descent on. -/
def seek (p : κ → Bool) : Chain κ β → Chain κ β
  | .one b => .one b
  | .cons b k r => if p k then seek p r else .cons b k r

@[simp] theorem blocksCat (a : Chain κ β) (k : κ) (c : Chain κ β) :
    blocks (cat a k c) = blocks a ++ blocks c := by
  induction a with
  | one b => rfl
  | cons b k' r ih => simp [cat,blocks,ih]

@[simp] theorem sepsCat (a : Chain κ β) (k : κ) (c : Chain κ β) :
    seps (cat a k c) = seps a ++ k :: seps c := by
  induction a with
  | one b => rfl
  | cons b k' r ih => simp [cat,seps,ih]

@[simp] theorem flatCat (keys : β → List κ) (a : Chain κ β) (k : κ) (c : Chain κ β) :
    flat keys (cat a k c) = flat keys a ++ k :: flat keys c := by
  induction a with
  | one b => rfl
  | cons b k' r ih => simp [cat,flat,ih]

@[simp] theorem headCat (a : Chain κ β) (k : κ) (c : Chain κ β) : head (cat a k c) = head a := by
  cases a <;> rfl

theorem catAssoc (a : Chain κ β) (k : κ) (b : Chain κ β) (l : κ) (c : Chain κ β) :
    cat (cat a k b) l c = cat a k (cat b l c) := by
  induction a with
  | one _ => rfl
  | cons b' k' r ih => simp [cat,ih]

theorem sepsFlat (keys : β → List κ) (a : Chain κ β) : ∀ k ∈ seps a, k ∈ flat keys a := by
  induction a with
  | one b => simp [seps]
  | cons b k r ih =>
    intro x hx
    rcases List.mem_cons.mp hx with rfl | hr
    · simp [flat]
    · simp [flat,ih x hr]

theorem blockFlat (keys : β → List κ) (a : Chain κ β) :
    ∀ b ∈ blocks a, ∀ k ∈ keys b, k ∈ flat keys a := by
  induction a with
  | one b => simp [blocks,flat]
  | cons b k r ih =>
    intro b' hb x hx
    rcases List.mem_cons.mp hb with rfl | hr
    · simp [flat,hx]
    · simp [flat,ih b' hr x hx]

section Descent
variable (p : κ → Bool)

/-- In a catenation whose separator passes the test, the descent is one of the right part,
as soon as the left part's separators pass it too. -/
theorem spliceRight {a : Chain κ β} {k : κ} {c : Chain κ β} (f : β → Chain κ β)
    (left : ∀ s ∈ seps a, p s = true) (pass : p k = true) :
    splice p f (cat a k c) = cat a k (splice p f c) := by
  induction a with
  | one b => simp [cat,splice,pass]
  | cons b k' r ih =>
    simp only [seps,List.mem_cons,forall_eq_or_imp] at left
    simp [cat,splice,left.1,ih left.2]

theorem spliceLeft {a : Chain κ β} {k : κ} {c : Chain κ β} (f : β → Chain κ β) (fail : p k = false) :
    splice p f (cat a k c) = cat (splice p f a) k c := by
  induction a with
  | one b => simp [cat,splice,fail]
  | cons b k' r ih =>
    cases h : p k' <;> simp [cat,splice,h,ih,catAssoc]

theorem seekRight {a : Chain κ β} {k : κ} {c : Chain κ β}
    (left : ∀ s ∈ seps a, p s = true) (pass : p k = true) : seek p (cat a k c) = seek p c := by
  induction a with
  | one b => simp [cat,seek,pass]
  | cons b k' r ih =>
    simp only [seps,List.mem_cons,forall_eq_or_imp] at left
    simp [cat,seek,left.1,ih left.2]

theorem seekLeft {a : Chain κ β} {k : κ} {c : Chain κ β} (fail : p k = false) :
    seek p (cat a k c) = cat (seek p a) k c := by
  induction a with
  | one b => simp [cat,seek,fail]
  | cons b k' r ih => cases h : p k' <;> simp [cat,seek,h,ih]

/-- What `g` reads off the first block survives when the new blocks start where the old one did. -/
theorem headSplice {γ : Type} (g : β → γ) (f : β → Chain κ β) (same : ∀ b, g (head (f b)) = g b) (a : Chain κ β) :
    g (head (splice p f a)) = g (head a) := by
  cases a with
  | one b => exact same b
  | cons b k r =>
    cases h : p k with
    | true => simp [splice,h,head]
    | false =>
      rw [splice,h,if_neg Bool.false_ne_true,headCat]
      exact same b

/-- What the descent leaves behind and what it stands on. The block that is met has passed every
separator before it and fails the one after it. -/
theorem spliceSplit (keys : β → List κ) (f : β → Chain κ β) (a : Chain κ β) :
    ∃ (pre : List κ) (b : β) (post : List κ) (bpre bpost : List β),
      flat keys a = pre ++ keys b ++ post ∧ blocks a = bpre ++ b :: bpost ∧
      flat keys (splice p f a) = pre ++ flat keys (f b) ++ post ∧
      blocks (splice p f a) = bpre ++ blocks (f b) ++ bpost ∧
      (pre = [] ∨ ∃ init k, pre = init ++ [k] ∧ p k = true) ∧
      (post = [] ∨ ∃ k rest, post = k :: rest ∧ p k = false) := by
  induction a with
  | one b => exact ⟨[],b,[],[],[],by simp [flat],by simp [blocks],by simp [splice],by simp [splice],.inl rfl,.inl rfl⟩
  | cons b k r ih =>
    cases h : p k with
    | false =>
      exact ⟨[],b,k :: flat keys r,[],blocks r,by simp [flat],by simp [blocks],by simp [splice,h],
        by simp [splice,h],.inl rfl,.inr ⟨k,_,rfl,h⟩⟩
    | true =>
      obtain ⟨pre,b',post,bpre,bpost,hf,hb,hs,hbs,before,after⟩ := ih
      refine ⟨keys b ++ k :: pre,b',post,b :: bpre,bpost,by simp [flat,hf],by simp [blocks,hb],
        by simp [splice,h,flat,hs],by simp [splice,h,blocks,hbs],?_,after⟩
      rcases before with rfl | ⟨init,last,rfl,pass⟩
      · exact .inr ⟨keys b,k,by simp,h⟩
      · exact .inr ⟨keys b ++ k :: init,last,by simp,pass⟩

theorem seekSplit (keys : β → List κ) (a : Chain κ β) :
    ∃ (pre : List κ) (bpre : List β), flat keys a = pre ++ flat keys (seek p a) ∧
      blocks a = bpre ++ blocks (seek p a) ∧
      (∀ b ∈ bpre, ∀ x ∈ keys b, x ∈ pre) ∧
      (pre = [] ∧ bpre = [] ∨ ∃ init k, pre = init ++ [k] ∧ p k = true) := by
  induction a with
  | one b => exact ⟨[],[],by simp [seek],by simp [seek],by simp,.inl ⟨rfl,rfl⟩⟩
  | cons b k r ih =>
    cases h : p k with
    | false => exact ⟨[],[],by simp [seek,h],by simp [seek,h],by simp,.inl ⟨rfl,rfl⟩⟩
    | true =>
      obtain ⟨pre,bpre,hf,hb,inside,before⟩ := ih
      refine ⟨keys b ++ k :: pre,b :: bpre,by simp [seek,h,flat,hf],by simp [seek,h,blocks,hb],?_,?_⟩
      · intro b' hb' x hx
        rcases List.mem_cons.mp hb' with rfl | hr
        · simp [hx]
        · simp [inside b' hr x hx]
      · rcases before with ⟨rfl,-⟩ | ⟨init,last,rfl,pass⟩
        · exact .inr ⟨keys b,k,by simp,h⟩
        · exact .inr ⟨keys b ++ k :: init,last,by simp,pass⟩

end Descent

section Order
variable [LinearOrder κ]

/-- Keys and separators, read from left to right, never decrease. -/
def Ordered (keys : β → List κ) (a : Chain κ β) : Prop := (flat keys a).Pairwise (· ≤ ·)

theorem orderedCat {keys : β → List κ} {a : Chain κ β} {k : κ} {c : Chain κ β}
    (h : Ordered keys (cat a k c)) :
    Ordered keys a ∧ Ordered keys c ∧ (∀ x ∈ flat keys a, x ≤ k) ∧ ∀ x ∈ flat keys c, k ≤ x := by
  simp only [Ordered,flatCat] at h
  obtain ⟨ha,hc,hac⟩ := List.pairwise_append.mp h
  obtain ⟨hk,hc⟩ := List.pairwise_cons.mp hc
  exact ⟨ha,hc,fun x hx => hac x hx k (by simp),hk⟩

theorem orderedBlock {keys : β → List κ} {a : Chain κ β} (h : Ordered keys a) :
    ∀ b ∈ blocks a, (keys b).Pairwise (· ≤ ·) := by
  induction a with
  | one b => simpa [blocks,Ordered,flat] using h
  | cons b k r ih =>
    obtain ⟨own,rest,-⟩ := List.pairwise_append.mp h
    intro b' hb
    rcases List.mem_cons.mp hb with rfl | hr
    · exact own
    · exact ih (List.pairwise_cons.mp rest).2 b' hr

/-- Replacing the block keeps the order when the new block is in order and brings no key that
is not an old one or the key the descent was for. -/
theorem spliceOrdered {keys : β → List κ} {f : β → Chain κ β} {a : Chain κ β} {key : κ}
    (h : Ordered keys a)
    (block : ∀ b ∈ blocks a, Ordered keys (f b) ∧ ∀ x ∈ flat keys (f b), x = key ∨ x ∈ keys b) :
    Ordered keys (splice (fun s => decide (s ≤ key)) f a) := by
  obtain ⟨pre,b,post,bpre,bpost,hf,hb,hs,-,before,after⟩ := spliceSplit (fun s => decide (s ≤ key)) keys f a
  obtain ⟨own,brings⟩ := block b (by simp [hb])
  simp only [Ordered,hf,List.append_assoc] at h
  obtain ⟨hpre,htail,hpt⟩ := List.pairwise_append.mp h
  obtain ⟨-,hpost,hbp⟩ := List.pairwise_append.mp htail
  have low : ∀ x ∈ pre, x ≤ key := by
    rcases before with rfl | ⟨init,k,rfl,pass⟩
    · simp
    · obtain ⟨-,-,hik⟩ := List.pairwise_append.mp hpre
      intro x hx
      have hk : k ≤ key := of_decide_eq_true pass
      rcases List.mem_append.mp hx with hi | hl
      · exact (hik x hi k (by simp)).trans hk
      · simp only [List.mem_singleton] at hl; exact hl ▸ hk
  have high : ∀ y ∈ post, key ≤ y := by
    rcases after with rfl | ⟨k,rest,rfl,fail⟩
    · simp
    · have hk : key < k := not_le.mp (of_decide_eq_false fail)
      intro y hy
      rcases List.mem_cons.mp hy with rfl | hr
      · exact hk.le
      · exact hk.le.trans ((List.pairwise_cons.mp hpost).1 y hr)
  simp only [Ordered,hs,List.append_assoc]
  refine List.pairwise_append.mpr ⟨hpre,List.pairwise_append.mpr ⟨own,hpost,?_⟩,?_⟩
  · intro x hx y hy
    rcases brings x hx with rfl | hold
    · exact high y hy
    · exact hbp x hold y hy
  · intro x hx y hy
    rcases List.mem_append.mp hy with hn | hp
    · rcases brings y hn with rfl | hold
      · exact low x hx
      · exact hpt x hx y (by simp [hold])
    · exact hpt x hx y (by simp [hp])

/-- Every key in a block before the one that is sought is below the target. -/
theorem seekBelow {keys : β → List κ} {a : Chain κ β} (target : κ) (h : Ordered keys a) :
    ∃ bpre, blocks a = bpre ++ blocks (seek (fun s => decide (s < target)) a) ∧
      (∀ b ∈ bpre, ∀ x ∈ keys b, x < target) ∧ Ordered keys (seek (fun s => decide (s < target)) a) := by
  obtain ⟨pre,bpre,hf,hb,inside,before⟩ := seekSplit (fun s => decide (s < target)) keys a
  simp only [Ordered,hf] at h
  obtain ⟨hpre,hrest,-⟩ := List.pairwise_append.mp h
  refine ⟨bpre,hb,?_,hrest⟩
  intro b hbm x hx
  have hxp := inside b hbm x hx
  rcases before with ⟨rfl,rfl⟩ | ⟨init,k,rfl,pass⟩
  · simp at hbm
  · have hk : k < target := of_decide_eq_true pass
    rcases List.mem_append.mp hxp with hi | hl
    · exact ((List.pairwise_append.mp hpre).2.2 x hi k (by simp)).trans_lt hk
    · simp only [List.mem_singleton] at hl; exact hl ▸ hk

end Order

end Napastak.SepChain
