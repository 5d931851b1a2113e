import Napastak.Split
import Napastak.Lib.Replay

/-! The arena, `arena.c`: a chain of blocks, the newest first. Sizes and addresses are counted as `size_t` does; what
`malloc` answers is part of a step. -/
namespace Napastak.ArenaAlloc
open Replay (run along runInvariant)

def wrap (n : Nat) : Nat := n % 2 ^ 64

/-- `align_up` to `ARENA_ALIGN`: the mask clears four bits. -/
def alignUp (n : Nat) : Nat := wrap (n + 15) / 16 * 16

/-- The header of a block. -/
def headerSize : Nat := 24

def defaultBlock : Nat := 65536

/-- `size` is what `malloc` was asked for. -/
structure Block where
  addr : Nat
  size : Nat
  cap : Nat
  used : Nat
  deriving DecidableEq, Repr

def Block.data (b : Block) : Nat := b.addr + headerSize

/-- Where the next aligned address is, from the start of the data. -/
def Block.offset (b : Block) : Nat := wrap (alignUp (wrap (b.data + b.used)) + 2 ^ 64 - b.data)

structure Arena where
  chain : List Block
  totalAllocated : Nat
  totalWasted : Nat
  deriving DecidableEq, Repr

structure ArenaMark where
  block : Option Nat
  used : Nat
  deriving DecidableEq, Repr

/-- Two stretches of bytes without a common one. -/
def Apart (p m q n : Nat) : Prop := p + m ≤ q ∨ q + n ≤ p

instance (p m q n : Nat) : Decidable (Apart p m q n) := inferInstanceAs (Decidable (_ ∨ _))

/-- What `malloc` may answer: nothing, or bytes that no block of the chain has. -/
def mallocGives (chain : List Block) (size : Nat) : Option Nat → Bool
  | none => true
  | some p => 0 < p ∧ p + size ≤ 2 ^ 64 ∧ ∀ b ∈ chain, Apart p size b.addr b.size

/-- `block_new`. -/
def blockNew (cap : Nat) (mem : Option Nat) : Option Block := mem.map fun p => ⟨p,wrap (headerSize + cap),cap,0⟩

/-- `arena_create`. -/
def arenaCreate (sz : Nat) (mem : Option Nat) : Option Arena :=
  (blockNew (if sz = 0 then defaultBlock else sz) mem).map fun b => ⟨[b],0,0⟩

/-- The capacity of a new block for `sz` bytes. -/
def growCap (sz : Nat) : Nat := wrap ((if defaultBlock < sz then wrap (sz * 2) else defaultBlock) + 16)

/-- `arena_alloc` where the block at the top has no room. -/
def Arena.grow (a : Arena) (sz : Nat) (mem : Option Nat) : Arena × Option Nat :=
  let a := match a.chain with
    | b :: _ => {a with totalWasted := wrap (a.totalWasted + wrap (b.cap + 2 ^ 64 - b.used))}
    | [] => a
  match blockNew (growCap sz) mem with
  | none => (a,none)
  | some b => ({a with
      chain := {b with used := wrap (b.offset + sz)} :: a.chain
      totalAllocated := wrap (a.totalAllocated + sz)},some (b.data + b.offset))

/-- The bytes that are taken for a request. -/
def rounded (sz : Nat) : Nat := alignUp (if sz = 0 then 1 else sz)

/-- `arena_alloc`. -/
def arenaAlloc (a : Arena) (sz : Nat) (mem : Option Nat) : Arena × Option Nat :=
  match a.chain with
  | [] => a.grow (rounded sz) mem
  | b :: rest =>
    if wrap (b.offset + rounded sz) ≤ b.cap then
      ({a with
        chain := {b with used := wrap (b.offset + rounded sz)} :: rest
        totalAllocated := wrap (a.totalAllocated + rounded sz)},some (b.data + b.offset))
    else a.grow (rounded sz) mem

/-- `arena_reset`. -/
def arenaReset (a : Arena) : Arena := ⟨a.chain.getLast?.toList.map fun b => {b with used := 0},0,0⟩

/-- `arena_mark`. -/
def arenaMark (a : Arena) : ArenaMark := ⟨a.chain.head?.map Block.addr,(a.chain.head?.map Block.used).getD 0⟩

/-- `arena_restore`: blocks go until the one of the mark, or all of them. -/
def arenaRestore (a : Arena) (m : ArenaMark) : Arena :=
  match a.chain.dropWhile fun b => some b.addr ≠ m.block with
  | [] => {a with chain := []}
  | b :: rest => {a with chain := {b with used := m.used} :: rest}

/-- A result that is not `NULL`, with the size asked for. -/
structure Region where
  ptr : Nat
  size : Nat
  deriving DecidableEq, Repr

/-- `live` has the allocations that no restore or reset has undone, `marks` those not restored, the newest first, each
with the allocations it will leave. -/
structure World where
  arena : Arena
  live : List Region
  marks : List (ArenaMark × List Region)
  deriving DecidableEq, Repr

/-- `calloc` writes zeros, `strndup` its text and a zero byte. -/
inductive Act
  | alloc (sz : Nat) (mem : Option Nat)
  | calloc (sz : Nat) (mem : Option Nat)
  | strndup (s : Bytes) (n : Nat) (mem : Option Nat)
  | mark
  | restore
  | reset
  deriving DecidableEq, Repr

/-- `strnlen`. -/
def strnlen (s : Bytes) (n : Nat) : Nat := min (Store.cstr s).length n

/-- A request of `sz` bytes that is counted as `asked`. -/
def World.request (w : World) (sz asked : Nat) (mem : Option Nat) : Option World :=
  if mallocGives w.arena.chain (wrap (headerSize + growCap (rounded asked))) mem then
    let (a,p) := arenaAlloc w.arena asked mem
    some {w with arena := a, live := (p.map fun p => ⟨p,sz⟩).toList ++ w.live}
  else none

/-- Marks are restored in the order of a stack. -/
def step (w : World) : Act → Option World
  | .alloc sz mem | .calloc sz mem => w.request sz sz mem
  | .strndup s n mem => w.request (strnlen s n + 1) (wrap (strnlen s n + 1)) mem
  | .mark => some {w with marks := (arenaMark w.arena,w.live) :: w.marks}
  | .restore => match w.marks with
    | [] => none
    | (m,live) :: marks => some ⟨arenaRestore w.arena m,live,marks⟩
  | .reset => some ⟨arenaReset w.arena,[],w.marks.map fun f => (f.1,[])⟩

def World.start (a : Arena) : World := ⟨a,[],[]⟩

/-! ### What is meant -/

/-- Every live allocation is inside one block behind its header, aligned, and apart from the others. -/
structure Kept (w : World) : Prop where
  inside : ∀ r ∈ w.live, ∃ b ∈ w.arena.chain, b.data ≤ r.ptr ∧ r.ptr + r.size ≤ b.addr + b.size
  aligned : ∀ r ∈ w.live, r.ptr % 16 = 0
  apart : w.live.Pairwise fun r s => Apart r.ptr r.size s.ptr s.size

/-! ### When it holds -/

/-- The next multiple of the alignment, with no bound. -/
def up (n : Nat) : Nat := (n + 15) / 16 * 16

/-- No size wraps: not the rounded one, not the end in the block at the top, not that of a block twice as large. -/
def Sized (a : Arena) (sz : Nat) : Prop :=
  sz + 15 < 2 ^ 64 ∧ (∀ b, a.chain.head? = some b → b.offset + up (max sz 1) < 2 ^ 64) ∧
    ((∀ b, a.chain.head? = some b → b.cap < b.offset + up (max sz 1)) → defaultBlock < up (max sz 1) → up (max sz 1) * 2 + 40 < 2 ^ 64)

def Clean (w : World) : Act → Prop
  | .alloc sz _ | .calloc sz _ => Sized w.arena sz
  | .strndup s n _ => Sized w.arena (strnlen s n + 1)
  | _ => True

/-! ### Sizes -/

theorem wrapSelf {n : Nat} (less : n < 2 ^ 64) : wrap n = n := Nat.mod_eq_of_lt less

theorem upBounds (n : Nat) : n ≤ up n ∧ up n ≤ n + 15 ∧ up n % 16 = 0 := by
  rw [up]
  omega

theorem alignUpIs {n : Nat} (less : n + 15 < 2 ^ 64) : alignUp n = up n := by rw [alignUp,wrapSelf less,up]

theorem roundedIs {sz : Nat} (less : sz + 15 < 2 ^ 64) : rounded sz = up (max sz 1) := by
  rw [rounded]
  split
  · rename_i zero
    rw [zero]
    exact alignUpIs (by decide)
  · rw [alignUpIs less,Nat.max_eq_left (by omega)]

/-- The next aligned address lies behind what is used, or behind every address. -/
theorem offsetIs {b : Block} (room : b.data + b.used ≤ 2 ^ 64) :
    b.used ≤ b.offset ∧ ((b.data + b.offset) % 16 = 0 ∧ b.offset < b.used + 16 ∨ 2 ^ 64 < b.data + b.used + 16 ∧ 2 ^ 64 ≤ b.data + b.offset) := by
  have start : 24 ≤ b.data := Nat.le_add_left ..
  rw [Block.offset]
  by_cases less : b.data + b.used + 15 < 2 ^ 64
  · rw [wrapSelf (Nat.lt_of_le_of_lt (Nat.le_add_right _ 15) less),alignUpIs less]
    obtain ⟨low,high,aligned⟩ := upBounds (b.data + b.used)
    rw [wrap]
    omega
  · have zero : alignUp (wrap (b.data + b.used)) = 0 := by
      rw [alignUp,wrap,wrap]
      omega
    rw [zero,wrap]
    omega

theorem growCapIs {sz : Nat} (less : defaultBlock < sz → sz * 2 + 40 < 2 ^ 64) :
    growCap sz = (if defaultBlock < sz then sz * 2 else defaultBlock) + 16 := by
  rw [growCap]
  split
  · have room := less ‹_›
    have twice : wrap (sz * 2) = sz * 2 := wrapSelf (by omega)
    rw [twice,wrapSelf (by omega)]
  · exact wrapSelf (by decide)

/-! ### The invariant -/

def Placed (chain : List Block) (r : Region) : Prop :=
  ∃ b ∈ chain, b.data ≤ r.ptr ∧ r.ptr + r.size ≤ b.data + b.used ∧ r.ptr + r.size ≤ b.data + b.cap

/-- Each mark that is to leave allocations finds its block; those below it hold them. -/
def Stacked (chain : List Block) : List (ArenaMark × List Region) → List Region → Prop
  | [], live => ∀ r ∈ live, Placed chain r
  | (m,kept) :: marks, live => (∀ r ∈ live, Placed chain r) ∧ kept <:+ live ∧
    ((kept = [] ∧ ∀ f ∈ marks, f.2 = []) ∨ ∃ pre b post, chain = pre ++ b :: post ∧ some b.addr = m.block ∧ m.used ≤ b.used ∧
      Stacked ({b with used := m.used} :: post) marks kept)

structure Inv (w : World) : Prop where
  whole : ∀ b ∈ w.arena.chain, b.size = headerSize + b.cap ∧ b.addr + b.size ≤ 2 ^ 64 ∧ b.data + b.used ≤ 2 ^ 64
  separate : w.arena.chain.Pairwise fun b c => Apart b.addr b.size c.addr c.size
  marked : ∀ f ∈ w.marks, ∀ p, f.1.block = some p → p + headerSize + f.1.used ≤ 2 ^ 64
  stacked : Stacked w.arena.chain w.marks w.live
  aligned : ∀ r ∈ w.live, r.ptr % 16 = 0
  apart : w.live.Pairwise fun r s => Apart r.ptr r.size s.ptr s.size

variable {chain : List Block} {marks : List (ArenaMark × List Region)} {live : List Region} {w w' : World}

theorem Stacked.placed (stacked : Stacked chain marks live) : ∀ r ∈ live, Placed chain r := by
  cases marks with
  | nil => exact stacked
  | cons f marks => exact stacked.1

theorem stackedEmpty (none_ : ∀ f ∈ marks, f.2 = []) : Stacked chain marks [] := by
  cases marks with
  | nil => exact nofun
  | cons f marks =>
    obtain ⟨m,kept⟩ := f
    have empty : kept = [] := none_ _ List.mem_cons_self
    subst empty
    exact ⟨nofun,List.suffix_rfl,.inl ⟨rfl,fun f mem => none_ f (List.mem_cons_of_mem _ mem)⟩⟩

theorem Stacked.empties (stacked : Stacked chain marks []) : ∀ f ∈ marks, f.2 = [] := by
  induction marks generalizing chain with
  | nil => exact nofun
  | cons f marks ih =>
    obtain ⟨m,kept⟩ := f
    obtain ⟨_,suffix,inner⟩ := stacked
    have empty := List.suffix_nil.mp suffix
    subst empty
    intro f mem
    rcases List.mem_cons.mp mem with rfl | mem
    · rfl
    · rcases inner with ⟨_,older⟩ | ⟨pre,b,post,_,_,_,deeper⟩
      · exact older f mem
      · exact ih deeper f mem

/-- A chain with one more block, or with more of its top used. -/
inductive Grown : List Block → List Block → Prop
  | block (b : Block) (chain : List Block) : Grown chain (b :: chain)
  | used (b : Block) (rest : List Block) {n : Nat} (more : b.used ≤ n) : Grown (b :: rest) ({b with used := n} :: rest)

theorem Placed.grow {chain' : List Block} (grown : Grown chain chain') {r : Region} (placed : Placed chain r) : Placed chain' r := by
  obtain ⟨c,mem,low,high,room⟩ := placed
  cases grown with
  | block b => exact ⟨c,List.mem_cons_of_mem _ mem,low,high,room⟩
  | used b rest more =>
    rcases List.mem_cons.mp mem with rfl | mem
    · exact ⟨_,List.mem_cons_self,low,Nat.le_trans high (Nat.add_le_add_left more _),room⟩
    · exact ⟨c,List.mem_cons_of_mem _ mem,low,high,room⟩

theorem Stacked.grow {chain' : List Block} (grown : Grown chain chain') (stacked : Stacked chain marks live) :
    Stacked chain' marks live := by
  cases marks with
  | nil => exact fun r mem => (stacked r mem).grow grown
  | cons f marks =>
    obtain ⟨m,kept⟩ := f
    obtain ⟨placed,suffix,inner⟩ := stacked
    refine ⟨fun r mem => (placed r mem).grow grown,suffix,inner.imp_right fun ⟨pre,b,post,is,at_,fits,deeper⟩ => ?_⟩
    cases grown with
    | block c => exact ⟨c :: pre,b,post,congrArg (c :: ·) is,at_,fits,deeper⟩
    | @used c rest n more =>
      cases pre with
      | nil =>
        cases is
        exact ⟨[],_,post,rfl,at_,Nat.le_trans fits more,deeper⟩
      | cons d pre =>
        cases is
        exact ⟨_ :: pre,b,post,rfl,at_,fits,deeper⟩

theorem Stacked.push (stacked : Stacked chain marks live) {r : Region} (placed : Placed chain r) : Stacked chain marks (r :: live) := by
  have all : ∀ s ∈ r :: live, Placed chain s := fun s mem => by
    rcases List.mem_cons.mp mem with rfl | mem
    · exact placed
    · exact stacked.placed s mem
  cases marks with
  | nil => exact all
  | cons f marks => exact ⟨all,stacked.2.1.trans (List.suffix_cons r live),stacked.2.2⟩

/-! ### Steps -/

theorem Apart.inner {p m q n p' m' q' n' : Nat} (apart : Apart p m q n) (low : p ≤ p') (high : p' + m' ≤ p + m) (low' : q ≤ q')
    (high' : q' + n' ≤ q + n) : Apart p' m' q' n' := by
  rw [Apart] at apart ⊢
  omega

/-- An allocation from the block at the top of a grown chain. -/
theorem Inv.allocated (inv : Inv w) {b : Block} {rest : List Block} {a : Arena} {sz : Nat} (chain : a.chain = b :: rest)
    (grown : Grown w.arena.chain a.chain)
    (whole : ∀ c ∈ a.chain, c.size = headerSize + c.cap ∧ c.addr + c.size ≤ 2 ^ 64 ∧ c.data + c.used ≤ 2 ^ 64)
    (separate : a.chain.Pairwise fun b c => Apart b.addr b.size c.addr c.size) {off : Nat} (aligned : (b.data + off) % 16 = 0)
    (fits : off + sz ≤ b.used) (room : b.used ≤ b.cap)
    (behind : ∀ c ∈ w.arena.chain, c.addr = b.addr → c.used ≤ off) (same : ∀ c ∈ w.arena.chain, c.addr = b.addr ∨ c ∈ rest) :
    Inv {w with arena := a, live := ⟨b.data + off,sz⟩ :: w.live} where
  whole := whole
  separate := separate
  marked := inv.marked
  stacked := (inv.stacked.grow grown).push ⟨b,by rw [chain]; exact List.mem_cons_self,Nat.le_add_right ..,by dsimp only; omega,by dsimp only; omega⟩
  aligned r mem := by
    rcases List.mem_cons.mp mem with rfl | mem
    · exact aligned
    · exact inv.aligned r mem
  apart := by
    refine List.Pairwise.cons (fun r mem => ?_) inv.apart
    obtain ⟨c,in_,low,high,end_⟩ := inv.stacked.placed r mem
    rcases same c in_ with here | there
    · have before := behind c in_ here
      have data : c.data = b.data := congrArg (· + headerSize) here
      rw [data] at high
      refine .inr ?_
      dsimp only
      omega
    · rw [chain] at separate whole
      have apart := (List.pairwise_cons.mp separate).1 c there
      have own := (whole b List.mem_cons_self).1
      have other := (inv.whole c in_).1
      have start : c.data = c.addr + headerSize := rfl
      have start' : b.data = b.addr + headerSize := rfl
      exact apart.inner (by dsimp only; omega) (by dsimp only; omega) (by omega) (by omega)

theorem growChain (a : Arena) (sz : Nat) (mem : Option Nat) : match mem with
    | none => (a.grow sz mem).1.chain = a.chain ∧ (a.grow sz mem).2 = none
    | some p =>
      let b : Block := ⟨p,wrap (headerSize + growCap sz),growCap sz,0⟩
      (a.grow sz mem).1.chain = {b with used := wrap (b.offset + sz)} :: a.chain ∧ (a.grow sz mem).2 = some (b.data + b.offset) := by
  cases mem <;> cases is : a.chain <;> simp [Arena.grow,blockNew,is]

theorem sizesApart {p m n : Nat} (some_ : 0 < m) (some' : 0 < n) : ¬Apart p m p n := by
  rw [Apart]
  omega

theorem Inv.blocks (inv : Inv w) {b : Block} (mem : b ∈ w.arena.chain) : 0 < b.size := by
  rw [(inv.whole b mem).1]
  exact Nat.lt_of_lt_of_le (by decide : 0 < headerSize) (Nat.le_add_right ..)

/-- A new block has room for the request and for aligning it. -/
theorem grownSizes {sz : Nat} (sized : sz + 15 < 2 ^ 64) (twice : defaultBlock < up (max sz 1) → up (max sz 1) * 2 + 40 < 2 ^ 64) :
    rounded sz + 16 ≤ growCap (rounded sz) ∧ wrap (headerSize + growCap (rounded sz)) = headerSize + growCap (rounded sz) := by
  have size : rounded sz = up (max sz 1) := roundedIs sized
  have cap := growCapIs (size ▸ twice)
  obtain ⟨low,_,_⟩ := upBounds (max sz 1)
  constructor
  · rw [cap]
    split <;> omega
  · refine wrapSelf ?_
    rw [cap,headerSize]
    split
    · have := twice (size ▸ ‹_›)
      omega
    · decide

theorem Inv.grow (inv : Inv w) {sz : Nat} {mem : Option Nat} (sized : sz + 15 < 2 ^ 64)
    (twice : defaultBlock < up (max sz 1) → up (max sz 1) * 2 + 40 < 2 ^ 64)
    (given : mallocGives w.arena.chain (wrap (headerSize + growCap (rounded sz))) mem = true) :
    Inv {w with
      arena := (w.arena.grow (rounded sz) mem).1
      live := ((w.arena.grow (rounded sz) mem).2.map fun p => ⟨p,sz⟩).toList ++ w.live} := by
  have spec := growChain w.arena (rounded sz) mem
  cases mem with
  | none =>
    obtain ⟨chain,null⟩ := spec
    rw [null]
    exact ⟨by rw [chain]; exact inv.whole,by rw [chain]; exact inv.separate,inv.marked,by rw [chain]; exact inv.stacked,inv.aligned,inv.apart⟩
  | some p =>
    obtain ⟨chain,ptr⟩ := spec
    rw [ptr]
    simp only [mallocGives,decide_eq_true_eq] at given
    obtain ⟨_,room,apart⟩ := given
    obtain ⟨large,whole⟩ := grownSizes sized twice
    have size : rounded sz = up (max sz 1) := roundedIs sized
    obtain ⟨low,_,_⟩ := upBounds (max sz 1)
    generalize eq : Block.mk p (wrap (headerSize + growCap (rounded sz))) (growCap (rounded sz)) 0 = b at chain
    have addr : b.addr = p := by rw [← eq]
    have bsize : b.size = headerSize + b.cap := by rw [← eq,whole]
    have bcap : b.cap = growCap (rounded sz) := by rw [← eq]
    have used : b.used = 0 := by rw [← eq]
    have data : b.data = b.addr + headerSize := rfl
    rw [whole] at room apart
    have fits : b.data + b.used ≤ 2 ^ 64 := by omega
    obtain ⟨_,⟨aligned,near⟩ | ⟨far,_⟩⟩ := offsetIs fits
    · have noWrap : wrap (b.offset + rounded sz) = b.offset + rounded sz := wrapSelf (by omega)
      rw [noWrap] at chain
      have less : p < 2 ^ 64 := by
        have : 0 < headerSize := by decide
        omega
      refine inv.allocated chain (chain ▸ .block _ _) ?_ ?_ aligned ?_ ?_ (fun c mem same => ?_) fun c mem => .inr mem
      · rw [chain]
        intro c mem
        rcases List.mem_cons.mp mem with rfl | mem
        · have : ({b with used := b.offset + rounded sz} : Block).data = b.data := rfl
          exact ⟨bsize,by dsimp only; omega,by rw [this]; dsimp only; omega⟩
        · exact inv.whole c mem
      · rw [chain]
        refine List.Pairwise.cons (fun c mem => ?_) inv.separate
        have := apart c mem
        dsimp only
        rw [addr,bsize,bcap]
        exact this
      · dsimp only
        omega
      · dsimp only
        omega
      · have := apart c mem
        dsimp only at same
        rw [same,addr] at this
        exact absurd this (sizesApart (Nat.lt_of_lt_of_le (by decide : 0 < headerSize) (Nat.le_add_right ..)) (inv.blocks mem))
    · omega

theorem Inv.request (inv : Inv w) {sz : Nat} {mem : Option Nat} (sized : Sized w.arena sz) (is : w.request sz sz mem = some w') :
    Inv w' := by
  obtain ⟨less,ends,twice⟩ := sized
  have size : rounded sz = up (max sz 1) := roundedIs less
  rw [World.request] at is
  split at is
  · rename_i given
    cases is
    cases chain : w.arena.chain with
    | nil =>
      exact inv.grow less (twice (by rw [chain]; nofun)) given
    | cons b rest =>
      have end_ := ends b (by rw [chain]; rfl)
      dsimp only
      rw [size,wrapSelf end_]
      split
      · rename_i fits
        have own : b ∈ w.arena.chain := by rw [chain]; exact List.mem_cons_self
        obtain ⟨bsize,room,used⟩ := inv.whole b own
        have data : b.data = b.addr + headerSize := rfl
        obtain ⟨low,_,_⟩ := upBounds (max sz 1)
        have separate := inv.separate
        rw [chain] at separate
        obtain ⟨behind,⟨aligned,_⟩ | ⟨_,far⟩⟩ := offsetIs used
        · refine @Inv.allocated _ inv {b with used := b.offset + up (max sz 1)} rest _ sz rfl
            (by rw [chain]; exact .used b rest (by omega)) (fun c mem => ?_) ?_ b.offset aligned (by dsimp only; omega) fits
            (fun c mem same => ?_) fun c mem => ?_
          · rcases List.mem_cons.mp mem with rfl | mem
            · have : ({b with used := b.offset + up (max sz 1)} : Block).data = b.data := rfl
              exact ⟨bsize,room,by rw [this]; dsimp only; omega⟩
            · exact inv.whole c (by rw [chain]; exact List.mem_cons_of_mem _ mem)
          · exact List.Pairwise.cons (List.pairwise_cons.mp separate).1 (List.pairwise_cons.mp separate).2
          · rw [chain] at mem
            rcases List.mem_cons.mp mem with rfl | there
            · exact behind
            · have apart := (List.pairwise_cons.mp separate).1 c there
              dsimp only at same
              rw [same] at apart
              exact absurd apart (sizesApart (inv.blocks own) (inv.blocks (by rw [chain]; exact mem)))
          · rw [chain] at mem
            rcases List.mem_cons.mp mem with rfl | there
            · exact .inl rfl
            · exact .inr there
        · have : 0 < up (max sz 1) := by omega
          omega
      · rename_i full
        rw [← size]
        exact inv.grow less (twice fun c is => by
          rw [chain] at is
          cases is
          exact Nat.not_le.mp full) given
  · cases is

theorem Inv.mark (inv : Inv w) : Inv {w with marks := (arenaMark w.arena,w.live) :: w.marks} where
  whole := inv.whole
  separate := inv.separate
  marked f mem p at_ := by
    rcases List.mem_cons.mp mem with rfl | mem
    · cases chain : w.arena.chain with
      | nil => simp [arenaMark,chain] at at_
      | cons b rest =>
        simp only [arenaMark,chain,List.head?_cons,Option.map_some,Option.some.injEq,Option.getD_some] at at_ ⊢
        rw [← at_]
        exact (inv.whole b (by rw [chain]; exact List.mem_cons_self)).2.2
    · exact inv.marked f mem p at_
  stacked := by
    refine ⟨inv.stacked.placed,List.suffix_rfl,?_⟩
    have stacked := inv.stacked
    cases chain : w.arena.chain with
    | nil =>
      rw [chain] at stacked
      have none_ : w.live = [] := List.eq_nil_iff_forall_not_mem.mpr fun r mem => by
        obtain ⟨b,in_,_⟩ := stacked.placed r mem
        cases in_
      rw [none_] at stacked
      exact .inl ⟨none_,stacked.empties⟩
    | cons b rest =>
      rw [chain] at stacked
      refine .inr ⟨[],b,rest,rfl,by simp [arenaMark,chain],by simp [arenaMark,chain],?_⟩
      simpa [arenaMark,chain] using stacked
  aligned := inv.aligned
  apart := inv.apart

theorem dropBefore {chain : List Block} {p : Option Nat} {b : Block} {rest : List Block}
    (is : chain.dropWhile (fun b => some b.addr ≠ p) = b :: rest) : b :: rest <:+ chain ∧ some b.addr = p := by
  refine ⟨is ▸ List.dropWhile_suffix _,?_⟩
  have stops := List.head?_dropWhile_not (fun b : Block => decide (some b.addr ≠ p)) chain
  rw [is] at stops
  simpa using stops

theorem dropFinds {pre post : List Block} {b : Block} {p : Option Nat} (at_ : some b.addr = p)
    (before : ∀ c ∈ pre, c.addr ≠ b.addr) : (pre ++ b :: post).dropWhile (fun c => some c.addr ≠ p) = b :: post := by
  rw [List.dropWhile_append_of_pos fun c mem => by simpa [← at_] using before c mem,
    List.dropWhile_cons_of_neg (by simpa using at_)]

theorem Inv.restore (inv : Inv w) {m : ArenaMark} {kept : List Region} {marks : List (ArenaMark × List Region)}
    (top : w.marks = (m,kept) :: marks) : Inv ⟨arenaRestore w.arena m,kept,marks⟩ := by
  have stacked := inv.stacked
  rw [top] at stacked
  obtain ⟨_,⟨older,newer⟩,inner⟩ := stacked
  have apart := inv.apart
  rw [← newer] at apart
  have aligned : ∀ r ∈ kept, r.ptr % 16 = 0 := fun r mem => inv.aligned r (newer ▸ List.mem_append_right _ mem)
  have marked : ∀ f ∈ marks, ∀ p, f.1.block = some p → p + headerSize + f.1.used ≤ 2 ^ 64 := fun f mem =>
    inv.marked f (top ▸ List.mem_cons_of_mem _ mem)
  have blocks : (∀ b ∈ (arenaRestore w.arena m).chain, b.size = headerSize + b.cap ∧ b.addr + b.size ≤ 2 ^ 64 ∧ b.data + b.used ≤ 2 ^ 64) ∧
      (arenaRestore w.arena m).chain.Pairwise fun b c => Apart b.addr b.size c.addr c.size := by
    rw [arenaRestore]
    split
    · exact ⟨nofun,.nil⟩
    · rename_i b rest is
      obtain ⟨suffix,at_⟩ := dropBefore is
      have separate := inv.separate.sublist suffix.sublist
      refine ⟨fun c mem => ?_,List.Pairwise.cons (List.pairwise_cons.mp separate).1 (List.pairwise_cons.mp separate).2⟩
      rcases List.mem_cons.mp mem with rfl | mem
      · obtain ⟨size,room,_⟩ := inv.whole b (suffix.subset List.mem_cons_self)
        exact ⟨size,room,inv.marked (m,kept) (top ▸ List.mem_cons_self) b.addr at_.symm⟩
      · exact inv.whole c (suffix.subset (List.mem_cons_of_mem _ mem))
  refine ⟨blocks.1,blocks.2,marked,?_,aligned,(List.pairwise_append.mp apart).2.1⟩
  rcases inner with ⟨rfl,none_⟩ | ⟨pre,b,post,chain,at_,_,deeper⟩
  · exact stackedEmpty none_
  · have separate := inv.separate
    rw [chain] at separate
    have before : ∀ c ∈ pre, c.addr ≠ b.addr := fun c mem same => by
      have own := (List.pairwise_append.mp separate).2.2 c mem b List.mem_cons_self
      rw [same] at own
      exact sizesApart (inv.blocks (by rw [chain]; exact List.mem_append_left _ mem))
        (inv.blocks (by rw [chain]; exact List.mem_append_right _ List.mem_cons_self)) own
    rw [arenaRestore,chain,dropFinds at_ before]
    exact deeper

theorem Inv.reset (inv : Inv w) : Inv ⟨arenaReset w.arena,[],w.marks.map fun f => (f.1,[])⟩ where
  whole b mem := by
    obtain ⟨c,last,rfl⟩ := List.mem_map.mp mem
    obtain ⟨size,room,_⟩ := inv.whole c (List.mem_of_getLast? (Option.mem_toList.mp last))
    refine ⟨size,room,?_⟩
    show c.addr + headerSize + 0 ≤ 2 ^ 64
    omega
  separate := by
    show List.Pairwise _ (w.arena.chain.getLast?.toList.map _)
    cases w.arena.chain.getLast? with
    | none => exact .nil
    | some b => exact List.pairwise_singleton ..
  marked f mem p at_ := by
    obtain ⟨g,was,rfl⟩ := List.mem_map.mp mem
    exact inv.marked g was p at_
  stacked := stackedEmpty fun f mem => by
    obtain ⟨g,_,rfl⟩ := List.mem_map.mp mem
    rfl
  aligned := nofun
  apart := .nil

theorem stepInv (inv : Inv w) {a : Act} (clean : Clean w a) (is : step w a = some w') : Inv w' := by
  cases a with
  | alloc sz mem => exact inv.request clean is
  | calloc sz mem => exact inv.request clean is
  | strndup s n mem =>
    have less : strnlen s n + 1 + 15 < 2 ^ 64 := clean.1
    have whole : wrap (strnlen s n + 1) = strnlen s n + 1 := wrapSelf (by omega)
    rw [step,whole] at is
    exact inv.request clean is
  | mark =>
    cases is
    exact inv.mark
  | restore =>
    simp only [step] at is
    split at is
    · cases is
    · cases is
      exact inv.restore ‹_›
  | reset =>
    cases is
    exact inv.reset

theorem Inv.kept (inv : Inv w) : Kept w where
  inside r mem := by
    obtain ⟨b,in_,low,_,room⟩ := inv.stacked.placed r mem
    have size := (inv.whole b in_).1
    have data : b.data = b.addr + headerSize := rfl
    exact ⟨b,in_,low,by omega⟩
  aligned := inv.aligned
  apart := inv.apart

theorem createInv {sz p : Nat} {a : Arena} (small : headerSize + sz < 2 ^ 64)
    (given : mallocGives [] (wrap (headerSize + if sz = 0 then defaultBlock else sz)) (some p) = true)
    (made : arenaCreate sz (some p) = some a) : Inv (World.start a) := by
  cases made
  have whole : wrap (headerSize + if sz = 0 then defaultBlock else sz) = headerSize + if sz = 0 then defaultBlock else sz := by
    refine wrapSelf ?_
    split
    · decide
    · exact small
  simp only [mallocGives,decide_eq_true_eq] at given
  have room := given.2.1
  refine ⟨fun b mem => ?_,List.pairwise_singleton ..,nofun,stackedEmpty nofun,nofun,.nil⟩
  cases List.mem_singleton.mp mem
  rw [whole] at room ⊢
  refine ⟨rfl,room,?_⟩
  show p + headerSize + 0 ≤ 2 ^ 64
  omega

theorem arenaKept {sz p : Nat} {a : Arena} (small : headerSize + sz < 2 ^ 64)
    (given : mallocGives [] (wrap (headerSize + if sz = 0 then defaultBlock else sz)) (some p) = true)
    (made : arenaCreate sz (some p) = some a) {acts : List Act} {w : World} (clean : along step Clean (World.start a) acts)
    (reach : run step (World.start a) acts = some w) : Kept w :=
  (runInvariant (fun _ _ _ inv ok is => stepInv inv ok is) (createInv small given made) clean reach).kept

/-- A block of 80 bytes: an allocation in a block of its own is undone, a text takes the place behind the first one. -/
def markedRun : List Act := [ .alloc 40 none,.mark,.calloc 100 (some 8192),.restore,.strndup (ascii "text") 2 none]

theorem markedRunKept : ∃ a w, arenaCreate 80 (some 4096) = some a ∧ run step (World.start a) markedRun = some w ∧
    w.live = [⟨4176,3⟩,⟨4128,40⟩] ∧ Kept w := by
  refine ⟨_,_,rfl,rfl,by decide,@arenaKept 80 4096 _ (by decide) (by decide) rfl markedRun _ ?_ rfl⟩
  refine And.intro ?_ (And.intro trivial (And.intro ?_ (And.intro trivial (And.intro ?_ trivial))))
  all_goals exact ⟨by decide,fun b is => by cases is; decide,fun _ large => absurd large (by decide)⟩

theorem largestSizeFits : ¬ ∀ acts w, run step (World.start ⟨[⟨4096,88,64,0⟩],0,0⟩) acts = some w → Kept w := fun kept => by
  obtain ⟨b,mem,_,room⟩ := (kept [.alloc (2 ^ 64 - 1) none] _ rfl).inside ⟨4128,2 ^ 64 - 1⟩ List.mem_cons_self
  cases List.mem_singleton.mp mem
  exact absurd room (by decide)

end Napastak.ArenaAlloc
