import Napastak.Lib.SepChain

/-! The page file of the B+ tree index: pages, leaf and internal insertion, the
recursive descent, range search. Page reads and writes succeed; a page is its
header and its arrays, the byte layout inside the 4 KB is not kept. -/
namespace Napastak.Btree

def leafMax : Nat := 255
def intMax : Nat := 340
def maxOffsets : Nat := 131072

structure LE where
  key : Int
  off : Int
  deriving DecidableEq, Repr

inductive Page where
  | leaf (ents : List LE) (next : Int)
  | int (ch : List Int) (keys : List Int)
  deriving DecidableEq, Repr

/-- A page of zeros: its type byte is not `PT_LEAF`, so it reads as internal with no key. -/
def blank : Page := .int [0] []

structure BTree where
  file : Int → Page
  root : Int
  npages : Int
  nkeys : Nat

def BTree.rd (t : BTree) (pg : Int) : Page := t.file pg

def BTree.wr (t : BTree) (pg : Int) (p : Page) : BTree :=
  {t with file := fun q => if q = pg then p else t.file q}

def BTree.allocPg (t : BTree) : BTree × Int :=
  (({t with npages := t.npages + 1} : BTree).wr t.npages blank,t.npages)

/-- `while (pos < n && key[pos] <= key) pos++`, over the keys of a page. -/
def posLe (keys : List Int) (key : Int) : Nat := (keys.takeWhile (· ≤ key)).length

def posLt (keys : List Int) (key : Int) : Nat := (keys.takeWhile (· < key)).length

/-- What a split hands to the parent: the separator `*mk` and the new right page `*rnew`. -/
structure Up where
  mkey : Int
  rnew : Int
  deriving DecidableEq, Repr

def insertAt {α : Type} (pos : Nat) (x : α) (xs : List α) : List α := xs.take pos ++ x :: xs.drop pos

def leafIns (t : BTree) (pgno : Int) (ents : List LE) (next : Int) (key off : Int) : BTree × Option Up :=
  let tmp := insertAt (posLe (ents.map LE.key) key) ⟨key,off⟩ ents
  if ents.length < leafMax then (t.wr pgno (.leaf tmp next),none)
  else
    let mid := (leafMax + 1) / 2
    let (t,rno) := t.allocPg
    let t := t.wr pgno (.leaf (tmp.take mid) rno)
    let t := t.wr rno (.leaf (tmp.drop mid) next)
    (t,some ⟨((tmp.map LE.key).getD mid 0),rno⟩)

/-- Works on the page in memory; the second component is the right half, if it split. -/
def intIns (ch keys : List Int) (key rc : Int) : Page × Option (Int × Page) :=
  let pos := posLe keys key
  let tkeys := insertAt pos key keys
  let tchs := insertAt (pos + 1) rc ch
  if keys.length < intMax then (.int tchs tkeys,none)
  else
    let mid := (keys.length + 1) / 2
    (.int (tchs.take (mid + 1)) (tkeys.take mid),
      some (tkeys.getD mid 0,.int (tchs.drop (mid + 1)) (tkeys.drop (mid + 1))))

/-- The recursion is on the height; running out of fuel is `none`, as is a page that was internal
before the recursive call and is a leaf after it. -/
def doInsert : Nat → BTree → Int → Int → Int → Option (BTree × Option Up)
  | 0, _, _, _, _ => none
  | fuel + 1, t, pgno, key, off =>
    match t.rd pgno with
    | .leaf ents next => some (leafIns t pgno ents next key off)
    | .int ch keys => do
      let child := ch.getD (posLe keys key) 0
      let (t,split) ← doInsert fuel t child key off
      match split with
      | none => some (t,none)
      | some up =>
        match t.rd pgno with
        | .leaf _ _ => none
        | .int ch keys =>
          let (p,half) := intIns ch keys up.mkey up.rnew
          let t := t.wr pgno p
          match half with
          | none => some (t,none)
          | some (mk,rp) =>
            let (t,rnew) := t.allocPg
            some (t.wr rnew rp,some ⟨mk,rnew⟩)

/-- The height is below the number of pages. -/
def BTree.fuel (t : BTree) : Nat := t.npages.toNat + 1

def btreeInsert (t : BTree) (key off : Int) : Option BTree := do
  let (t',split) ← doInsert t.fuel t t.root key off
  match split with
  | none => some {t' with nkeys := t'.nkeys + 1}
  | some up =>
    let (t',newRoot) := t'.allocPg
    let t' := t'.wr newRoot (.int [t.root,up.rnew] [up.mkey])
    some {t' with root := newRoot,nkeys := t'.nkeys + 1}

def findLeafGe : Nat → BTree → Int → Int → Option Int
  | 0, _, _, _ => none
  | fuel + 1, t, cur, target =>
    match t.rd cur with
    | .leaf _ _ => some cur
    | .int ch keys => findLeafGe fuel t (ch.getD (posLt keys target) 0) target

/-- The inner loop of `btree_range` over one leaf: the offsets so far, and whether a key above
`hi` was met. -/
def rangeLeaf (lo hi : Int) : List LE → List Int → List Int × Bool
  | [], offs => (offs,false)
  | e :: es, offs =>
    if offs.length < maxOffsets then
      if hi < e.key then (offs,true)
      else rangeLeaf lo hi es (if lo ≤ e.key then offs ++ [e.off] else offs)
    else (offs,false)

def rangeWalk : Nat → BTree → Int → Int → Int → List Int → Option (List Int)
  | 0, _, _, _, _, _ => none
  | fuel + 1, t, lpg, lo, hi, offs =>
    if 0 ≤ lpg ∧ lpg < t.npages ∧ offs.length < maxOffsets then
      match t.rd lpg with
      | .int _ _ => none
      | .leaf ents next =>
        match rangeLeaf lo hi ents offs with
        | (offs,true) => some offs
        | (offs,false) => rangeWalk fuel t next lo hi offs
    else some offs

def btreeRange (t : BTree) (lo hi : Int) : Option (List Int) :=
  if t.nkeys = 0 then some []
  else do
    let lpg ← findLeafGe t.fuel t t.root lo
    rangeWalk t.fuel t lpg lo hi []

def btreeLookup (t : BTree) (key : Int) : Option (List Int) := btreeRange t key key

def btreeCreate : BTree :=
  let t : BTree := ⟨fun _ => blank,1,1,0⟩
  {t.wr 1 (.leaf [] (-1)) with npages := 2}

/-- A run of `btree_insert` calls. -/
def inserts (t : BTree) : List LE → Option BTree
  | [] => some t
  | e :: es => do inserts (← btreeInsert t e.key e.off) es

@[simp] theorem rdWr (t : BTree) (pg : Int) (p : Page) (q : Int) :
    (t.wr pg p).file q = if q = pg then p else t.file q := rfl
@[simp] theorem wrRoot (t : BTree) (pg : Int) (p : Page) : (t.wr pg p).root = t.root := rfl
@[simp] theorem wrPages (t : BTree) (pg : Int) (p : Page) : (t.wr pg p).npages = t.npages := rfl
@[simp] theorem wrKeys (t : BTree) (pg : Int) (p : Page) : (t.wr pg p).nkeys = t.nkeys := rfl
@[simp] theorem allocPage (t : BTree) : t.allocPg.2 = t.npages := rfl
@[simp] theorem allocFile (t : BTree) (q : Int) :
    t.allocPg.1.file q = if q = t.npages then blank else t.file q := rfl
@[simp] theorem allocRoot (t : BTree) : t.allocPg.1.root = t.root := rfl
@[simp] theorem allocPages (t : BTree) : t.allocPg.1.npages = t.npages + 1 := rfl
@[simp] theorem allocKeys (t : BTree) : t.allocPg.1.nkeys = t.nkeys := rfl

theorem takeWhileCons (s : Int) (ks : List Int) (key : Int) :
    posLe (s :: ks) key = if s ≤ key then posLe ks key + 1 else 0 := by
  by_cases h : s ≤ key <;> simp [posLe,h]

theorem posLeBound (keys : List Int) (key : Int) : posLe keys key ≤ keys.length :=
  (keys.takeWhile_sublist _).length_le

theorem posLeBelow (keys : List Int) (key : Int) : ∀ k ∈ keys.take (posLe keys key), k ≤ key := by
  induction keys with
  | nil => simp
  | cons s ks ih =>
    rw [takeWhileCons]
    by_cases h : s ≤ key
    · simpa [h] using ih
    · simp [h]

theorem posLeStop (keys : List Int) (key s : Int) (at_ : keys[posLe keys key]? = some s) : key < s := by
  induction keys with
  | nil => simp at at_
  | cons k ks ih =>
    rw [takeWhileCons] at at_
    by_cases h : k ≤ key
    · exact ih (by simpa [h] using at_)
    · simp only [h,if_false,List.getElem?_cons_zero,Option.some.injEq] at at_
      omega

/-- A position is the one `posLe` finds as soon as the keys before it are not above and the key at
it, if there is one, is. -/
theorem posLeUnique {keys : List Int} {key : Int} {i : Nat} (bound : i ≤ keys.length)
    (below : ∀ k ∈ keys.take i, k ≤ key) (above : ∀ s, keys[i]? = some s → key < s) :
    posLe keys key = i := by
  induction keys generalizing i with
  | nil => simp at bound; subst i; rfl
  | cons k ks ih =>
    rw [takeWhileCons]
    cases i with
    | zero =>
      have hk := above k rfl
      simp [show ¬ k ≤ key by omega]
    | succ i =>
      have hk : k ≤ key := below k (by simp)
      rw [if_pos hk,ih (by simpa using bound) (fun x hx => below x (by simp [hx])) (by simpa using above)]

/-- The condition under which an insertion files every new page next to the page it came from,
read off the pages before the insertion. -/
def Page.full : Page → Bool
  | .leaf ents _ => leafMax ≤ ents.length
  | .int _ keys => intMax ≤ keys.length

/-- The last key of the lower half: entry 127 of a leaf, separator 169 of an internal page. -/
def Page.lowEnd : Page → Option Int
  | .leaf ents _ => (ents.map LE.key)[leafMax / 2]?
  | .int _ keys => keys[intMax / 2 - 1]?

/-- This page and every page below it on the descent of `key` is full. -/
def overflows : Nat → BTree → Int → Int → Bool
  | 0, _, _, _ => false
  | fuel + 1, t, pgno, key =>
    (t.rd pgno).full && match t.rd pgno with
      | .leaf _ _ => true
      | .int ch keys => overflows fuel t (ch.getD (posLe keys key) 0) key

/-- Somewhere on the descent, a page about to split has a lower half that reaches up to the
separator on its right. -/
def misfiles : Nat → BTree → Int → Int → Bool
  | 0, _, _, _ => false
  | fuel + 1, t, pgno, key =>
    match t.rd pgno with
    | .leaf _ _ => false
    | .int ch keys =>
      let ci := posLe keys key
      let child := ch.getD ci 0
      misfiles fuel t child key ||
        (overflows fuel t child key && ((t.rd child).lowEnd.isSome && (t.rd child).lowEnd == keys[ci]?))

/-- No step of the run splits a page whose lower half reaches the separator on its right. -/
def cleanRun (t : BTree) : List LE → Bool
  | [] => true
  | e :: es => !misfiles t.fuel t t.root e.key && match btreeInsert t e.key e.off with
    | none => true
    | some t' => cleanRun t' es

end Napastak.Btree
