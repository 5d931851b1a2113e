import Napastak.BtreeFile
import Mathlib.Data.List.Nodup
import Mathlib.Data.Int.Order.Basic

/-! What one insertion does to the file, read as a chain of leaves: the subtree
below every page is a chain with the separators of its internal pages in it, and
a step that misfiles nothing replaces one leaf of that chain. -/
namespace Napastak.Btree
open SepChain

structure Leaf where
  pg : Int
  ents : List LE
  next : Int
  deriving DecidableEq, Repr

def Leaf.keys (l : Leaf) : List Int := l.ents.map LE.key

abbrev Leaves := Chain Int Leaf

/-- The children of one internal page, left to right, with the pages they use. -/
inductive Kids (S : Int → Leaves → List Int → Prop) : List Int → List Int → Leaves → List Int → Prop where
  | last {c a ps} (own : S c a ps) : Kids S [c] [] a ps
  | cons {c a ps k cs ks b qs} (own : S c a ps) (rest : Kids S cs ks b qs) :
      Kids S (c :: cs) (k :: ks) (cat a k b) (ps ++ qs)

/-- Page `pg` roots a subtree of height `h` over these leaves, using these pages. -/
def Sub : Nat → (Int → Page) → Int → Leaves → List Int → Prop
  | 0, file, pg, a, ps => ∃ ents next, file pg = .leaf ents next ∧ ents.length ≤ leafMax ∧
      a = .one ⟨pg,ents,next⟩ ∧ ps = [pg]
  | h + 1, file, pg, a, ps => ∃ ch keys qs, file pg = .int ch keys ∧ keys.length ≤ intMax ∧
      Kids (Sub h file) ch keys a qs ∧ ps = pg :: qs

theorem kidsMono {S S' : Int → Leaves → List Int → Prop} {ch ks a ps} (h : Kids S ch ks a ps)
    (step : ∀ c b qs, (∀ q ∈ qs, q ∈ ps) → S c b qs → S' c b qs) : Kids S' ch ks a ps := by
  induction h with
  | last own => exact .last (step _ _ _ (by simp) own)
  | cons own rest ih =>
    refine .cons (step _ _ _ (by simp +contextual) own) (ih fun c b qs sub hs => step c b qs ?_ hs)
    intro q hq
    simp [sub q hq]

theorem subFrame {h file file' pg a ps} (sub : Sub h file pg a ps)
    (same : ∀ q ∈ ps, file' q = file q) : Sub h file' pg a ps := by
  induction h generalizing pg a ps with
  | zero =>
    obtain ⟨ents,next,page,len,rfl,rfl⟩ := sub
    exact ⟨ents,next,by rw [same pg (by simp),page],len,rfl,rfl⟩
  | succ h ih =>
    obtain ⟨ch,keys,qs,page,len,kids,rfl⟩ := sub
    refine ⟨ch,keys,qs,by rw [same pg (by simp),page],len,?_,rfl⟩
    exact kidsMono kids fun c b rs inside hs => ih hs fun q hq => same q (by simp [inside q hq])

theorem kidsLength {S ch ks a ps} (h : Kids S ch ks a ps) : ch.length = ks.length + 1 := by
  induction h with
  | last _ => rfl
  | cons _ _ ih => simp [ih]

/-- Cutting the children at a separator cuts the chain there. -/
theorem kidsCut {S ch ks a ps} (h : Kids S ch ks a ps) (mid : Nat) (k : Int) (found : ks[mid]? = some k) :
    ∃ a1 p1 a2 p2, Kids S (ch.take (mid + 1)) (ks.take mid) a1 p1 ∧
      Kids S (ch.drop (mid + 1)) (ks.drop (mid + 1)) a2 p2 ∧ a = cat a1 k a2 ∧ ps = p1 ++ p2 := by
  induction h generalizing mid with
  | last _ => simp at found
  | @cons c a ps k' cs ks b qs own rest ih =>
    cases mid with
    | zero =>
      cases Option.some.inj found
      exact ⟨a,ps,b,qs,by simpa using Kids.last own,by simpa using rest,rfl,rfl⟩
    | succ mid =>
      obtain ⟨a1,p1,a2,p2,left,right,rfl,rfl⟩ := ih mid (by simpa using found)
      exact ⟨_,_,a2,p2,.cons own left,by simpa using right,by rw [catAssoc],by simp⟩

/-- One child of an internal page, seen with the hole it leaves in the chain and in the page. -/
structure Hole (S : Int → Leaves → List Int → Prop) (ch ks : List Int) (key : Int) (a : Leaves)
    (ps : List Int) (c : Int) (ac : Leaves) (pc : List Int) where
  ctx : Leaves → Leaves
  left : List Int
  right : List Int
  fl : List Int
  fr : List Int
  child : ch[posLe ks key]? = some c
  own : S c ac pc
  pages : ps = left ++ pc ++ right
  chain : a = ctx ac
  flatCtx : ∀ x, flat Leaf.keys (ctx x) = fl ++ flat Leaf.keys x ++ fr
  before : ∀ k ∈ ks.take (posLe ks key), k ∈ fl
  after : ∀ s, ks[posLe ks key]? = some s → s ∈ fr
  splices : ∀ f, splice (fun s => decide (s ≤ key)) f a = ctx (splice (fun s => decide (s ≤ key)) f ac)
  keep : ∀ {S' : Int → Leaves → List Int → Prop} {ac' pc'},
    (∀ d b qs, (∀ q ∈ qs, q ∈ left ∨ q ∈ right) → S d b qs → S' d b qs) → S' c ac' pc' →
    Kids S' ch ks (ctx ac') (left ++ pc' ++ right)
  grow : ∀ {S' : Int → Leaves → List Int → Prop} {a1 p1} mk {r a2 p2},
    (∀ d b qs, (∀ q ∈ qs, q ∈ left ∨ q ∈ right) → S d b qs → S' d b qs) → S' c a1 p1 → S' r a2 p2 →
    Kids S' (insertAt (posLe ks key + 1) r ch) (insertAt (posLe ks key) mk ks)
      (ctx (cat a1 mk a2)) (left ++ (p1 ++ p2) ++ right)

theorem kidsHole {S ch ks a ps} (h : Kids S ch ks a ps) (key : Int) (ord : Ordered Leaf.keys a) :
    ∃ c ac pc, Nonempty (Hole S ch ks key a ps c ac pc) := by
  revert ord
  induction h with
  | @last c a ps own =>
    intro _
    exact ⟨c,a,ps,⟨{
      ctx := id, left := [], right := [], fl := [], fr := [], child := rfl, own := own
      pages := by simp, chain := rfl, flatCtx := by simp, before := by simp, after := by simp
      splices := fun f => rfl
      keep := fun _ own' => by simpa using Kids.last own'
      grow := @fun _ _ _ _ _ _ _ _ own' new => by simpa [insertAt,posLe] using Kids.cons own' (Kids.last new)}⟩⟩
  | @cons c a ps k cs ks b qs own rest ih =>
    intro ord
    obtain ⟨-,ordB,lowA,-⟩ := orderedCat ord
    by_cases hk : k ≤ key
    · obtain ⟨d,ac,pc,⟨o⟩⟩ := ih ordB
      have pos : posLe (k :: ks) key = posLe ks key + 1 := by rw [takeWhileCons,if_pos hk]
      refine ⟨d,ac,pc,⟨{
        ctx := fun x => cat a k (o.ctx x), left := ps ++ o.left, right := o.right
        fl := flat Leaf.keys a ++ k :: o.fl, fr := o.fr, child := by simpa [pos] using o.child
        own := o.own, pages := by simp [o.pages], chain := by rw [← o.chain]
        flatCtx := fun x => by simp [o.flatCtx], before := ?_, after := by simpa [pos] using o.after
        splices := ?_, keep := ?_, grow := ?_}⟩⟩
      · intro x hx
        rw [pos,List.take_succ_cons,List.mem_cons] at hx
        rcases hx with rfl | hx
        · simp
        · simp [o.before x hx]
      · intro f
        rw [spliceRight _ _ (fun s hs => decide_eq_true ((lowA s (sepsFlat _ _ s hs)).trans hk))
          (decide_eq_true hk),o.splices]
      · intro S' ac' pc' frame own'
        have kids := o.keep (fun d b qs inside => frame d b qs fun q hq => by
          rcases inside q hq with h | h <;> simp [h]) own'
        simpa [List.append_assoc] using Kids.cons (frame c a ps (by simp +contextual) own) kids
      · intro S' a1 p1 mk r a2 p2 frame own' new
        have kids := o.grow mk (fun d b qs inside => frame d b qs fun q hq => by
          rcases inside q hq with h | h <;> simp [h]) own' new
        simpa [pos,insertAt,List.append_assoc] using
          Kids.cons (k := k) (frame c a ps (by simp +contextual) own) kids
    · have pos : posLe (k :: ks) key = 0 := by rw [takeWhileCons,if_neg hk]
      refine ⟨c,a,ps,⟨{
        ctx := fun x => cat x k b, left := [], right := qs, fl := [], fr := k :: flat Leaf.keys b
        child := by simp [pos], own := own, pages := by simp, chain := rfl, flatCtx := by simp
        before := by simp [pos], after := by simp [pos], splices := ?_, keep := ?_, grow := ?_}⟩⟩
      · intro f
        exact spliceLeft _ f (decide_eq_false hk)
      · intro S' ac' pc' frame own'
        exact Kids.cons own' (kidsMono rest fun d b' rs inside => frame d b' rs fun q hq => .inr (inside q hq))
      · intro S' a1 p1 mk r a2 p2 frame own' new
        have kids := kidsMono rest fun d b' rs inside => frame d b' rs fun q hq => .inr (inside q hq)
        simpa [pos,insertAt,catAssoc,List.append_assoc] using Kids.cons own' (Kids.cons (k := k) new kids)

/-- What the insertion does to the leaf it reaches. -/
def leafSplit (fresh key off : Int) (l : Leaf) : Leaves :=
  let tmp := insertAt (posLe l.keys key) ⟨key,off⟩ l.ents
  if l.ents.length < leafMax then .one {l with ents := tmp}
  else .cons ⟨l.pg,tmp.take 128,fresh⟩ ((tmp.map LE.key).getD 128 0) (.one ⟨fresh,tmp.drop 128,l.next⟩)

theorem insertAtMap {α β : Type} (f : α → β) (pos : Nat) (x : α) (xs : List α) :
    (insertAt pos x xs).map f = insertAt pos (f x) (xs.map f) := by
  simp [insertAt,List.map_take,List.map_drop]

theorem insertAtLength {α : Type} {pos : Nat} (x : α) {xs : List α} (h : pos ≤ xs.length) :
    (insertAt pos x xs).length = xs.length + 1 := by
  simp [insertAt]; omega

theorem insertAtPerm {α : Type} (pos : Nat) (x : α) (xs : List α) : (insertAt pos x xs).Perm (x :: xs) := by
  simpa [insertAt] using @List.perm_middle _ x (xs.take pos) (xs.drop pos)

theorem insertAtMem {α : Type} (pos : Nat) (x : α) (xs : List α) (y : α) :
    y ∈ insertAt pos x xs ↔ y = x ∨ y ∈ xs := by
  rw [(insertAtPerm pos x xs).mem_iff,List.mem_cons]

theorem insertAtGet {α : Type} (pos : Nat) (x : α) (xs : List α) (h : pos ≤ xs.length) (i : Nat) :
    (insertAt pos x xs)[i]? = if i < pos then xs[i]? else if i = pos then some x else xs[i - 1]? := by
  have len : (xs.take pos).length = pos := by simp [h]
  rcases Nat.lt_trichotomy i pos with lt | eq | gt
  · simp [insertAt,List.getElem?_append_left,len,lt]
  · subst eq; simp [insertAt,len]
  · obtain ⟨j,rfl⟩ : ∃ j, i = pos + 1 + j := ⟨i - pos - 1,by omega⟩
    rw [if_neg (by omega),if_neg (by omega),insertAt,List.getElem?_append_right (by omega),len,
      show pos + 1 + j - pos = j + 1 by omega,List.getElem?_cons_succ,List.getElem?_drop,
      show pos + 1 + j - 1 = pos + j by omega]

theorem insertSorted {keys : List Int} (key : Int) (h : keys.Pairwise (· ≤ ·)) :
    (insertAt (posLe keys key) key keys).Pairwise (· ≤ ·) := by
  have low := posLeBelow keys key
  have high : ∀ s ∈ keys.drop (posLe keys key), key ≤ s := by
    intro s hs
    cases e : keys.drop (posLe keys key) with
    | nil => simp [e] at hs
    | cons d ds =>
      have first : keys[posLe keys key]? = some d := by
        have := congrArg (fun l => l[0]?) e
        simpa using this
      have hd := posLeStop keys key d first
      have sorted := h.drop (i := posLe keys key)
      rw [e] at sorted hs
      rcases List.mem_cons.mp hs with rfl | hr
      · exact hd.le
      · exact hd.le.trans ((List.pairwise_cons.mp sorted).1 s hr)
  have h' : (keys.take (posLe keys key) ++ keys.drop (posLe keys key)).Pairwise (· ≤ ·) := by
    rwa [List.take_append_drop]
  obtain ⟨ht,hd,htd⟩ := List.pairwise_append.mp h'
  refine List.pairwise_append.mpr ⟨ht,List.pairwise_cons.mpr ⟨high,hd⟩,?_⟩
  intro x hx y hy
  rcases List.mem_cons.mp hy with rfl | hy
  · exact low x hx
  · exact htd x hx y hy

/-- The key at a middle position after insertion can only be `s`, which is above the inserted key,
if the key just before that position already was `s`. -/
theorem middleReaches {keys : List Int} {key x s : Int} {pos mid : Nat} (bound : pos ≤ keys.length)
    (low : ∀ k ∈ keys.take pos, k ≤ key) (above : key < s) (ne : mid = pos → x ≠ s)
    (at_ : (insertAt pos x keys)[mid]? = some s) : keys[mid - 1]? = some s := by
  rw [insertAtGet _ _ _ bound] at at_
  split at at_
  · rename_i lt
    have mem : s ∈ keys.take pos := by
      rw [List.mem_iff_getElem?]
      exact ⟨mid,by rw [List.getElem?_take,if_pos lt,at_]⟩
    have := low s mem
    omega
  · split at at_
    · rename_i eq
      exact absurd (Option.some.inj at_) (ne eq)
    · exact at_

theorem leafSplitOrdered {fresh key off : Int} {l : Leaf} (sorted : l.keys.Pairwise (· ≤ ·)) :
    Ordered Leaf.keys (leafSplit fresh key off l) ∧
      ∀ x ∈ flat Leaf.keys (leafSplit fresh key off l), x = key ∨ x ∈ l.keys := by
  have keys : (insertAt (posLe l.keys key) ⟨key,off⟩ l.ents).map LE.key =
      insertAt (posLe l.keys key) key l.keys := insertAtMap LE.key _ _ _
  have tmpSorted := insertSorted key sorted
  have tmpMem := insertAtMem (posLe l.keys key) key l.keys
  unfold leafSplit
  by_cases room : l.ents.length < leafMax
  · simp only [if_pos room,Ordered,flat]
    rw [Leaf.keys,keys]
    exact ⟨tmpSorted,fun x hx => (tmpMem x).mp hx⟩
  · have long : 128 < (insertAt (posLe l.keys key) key l.keys).length := by
      rw [insertAtLength _ (posLeBound _ _)]
      simp only [leafMax,Leaf.keys,List.length_map] at room ⊢
      omega
    simp only [if_neg room,Ordered,flat,Leaf.keys,List.map_take,List.map_drop]
    rw [← Leaf.keys,keys]
    generalize insertAt (posLe l.keys key) key l.keys = tmp at *
    have cut : tmp.take 128 ++ tmp.drop 128 = tmp := List.take_append_drop _ _
    have first : tmp.drop 128 = tmp[128] :: tmp.drop 129 := List.drop_eq_getElem_cons long
    have mk : tmp.getD 128 0 = tmp[128] := by simp [List.getD,List.getElem?_eq_getElem long]
    rw [mk]
    have sorted' := tmpSorted
    rw [← cut,first] at sorted'
    obtain ⟨hl,hr,hlr⟩ := List.pairwise_append.mp sorted'
    refine ⟨?_,?_⟩
    · rw [first]
      refine List.pairwise_append.mpr ⟨hl,List.pairwise_cons.mpr ⟨?_,hr⟩,?_⟩
      · intro y hy
        rcases List.mem_cons.mp hy with rfl | hy
        · exact le_refl _
        · exact (List.pairwise_cons.mp hr).1 y hy
      · intro x hx y hy
        rcases List.mem_cons.mp hy with rfl | hy
        · exact hlr x hx _ List.mem_cons_self
        · exact hlr x hx y (first ▸ hy)
    · intro x hx
      apply (tmpMem x).mp
      rcases List.mem_append.mp hx with h | h
      · exact List.mem_of_mem_take h
      · rcases List.mem_cons.mp h with rfl | h
        · exact List.getElem_mem long
        · exact List.mem_of_mem_drop h

def entries (ls : List Leaf) : List LE := ls.flatMap Leaf.ents

theorem leafSplitEntries (fresh key off : Int) (l : Leaf) :
    (entries (blocks (leafSplit fresh key off l))).Perm (⟨key,off⟩ :: l.ents) := by
  have perm := insertAtPerm (posLe l.keys key) (LE.mk key off) l.ents
  unfold leafSplit
  split
  · simpa [blocks,entries] using perm
  · simpa [blocks,entries,List.take_append_drop] using perm

/-- What changed in the file besides the pages of the subtree. -/
structure Step (t t' : BTree) (ps : List Int) : Prop where
  root : t'.root = t.root
  keys : t'.nkeys = t.nkeys
  pages : t.npages ≤ t'.npages
  frame : ∀ q, q < t.npages → q ∉ ps → t'.file q = t.file q

/-- Pages in use after a step: the old ones of the subtree and all that the step allocated. -/
structure Uses (t t' : BTree) (ps ps' : List Int) : Prop where
  nodup : ps'.Nodup
  origin : ∀ q ∈ ps', q ∈ ps ∨ t.npages ≤ q ∧ q < t'.npages
  covers : ∀ q, q ∈ ps ∨ t.npages ≤ q ∧ q < t'.npages → q ∈ ps'

/-- The outcome of an insertion below page `pg`, whose leaves become `spliced`. -/
def Outcome (h fuel : Nat) (t t' : BTree) (pg key : Int) (a spliced : Leaves) (ps : List Int) :
    Option Up → Prop
  | none => ∃ ps', Sub h t'.file pg spliced ps' ∧ Uses t t' ps ps'
  | some up => ∃ a1 p1 a2 p2, Sub h t'.file pg a1 p1 ∧ Sub h t'.file up.rnew a2 p2 ∧
      spliced = cat a1 up.mkey a2 ∧ Uses t t' ps (p1 ++ p2) ∧ overflows fuel t pg key = true ∧
      ∀ s, key < s → (∀ x ∈ flat Leaf.keys a, x ≤ s) → up.mkey = s → (t.rd pg).lowEnd = some s

abbrev Spliced (t : BTree) (key off : Int) (a : Leaves) : Leaves :=
  splice (fun s => decide (s ≤ key)) (leafSplit t.npages key off) a

theorem leafStep {t : BTree} {pg : Int} (key off : Int) (fuel : Nat) {ents : List LE} {next : Int}
    (page : t.file pg = .leaf ents next) (len : ents.length ≤ leafMax) (old : pg < t.npages) :
    ∃ t' up, leafIns t pg ents next key off = (t',up) ∧ Step t t' [pg] ∧
      Outcome 0 (fuel + 1) t t' pg key (.one ⟨pg,ents,next⟩)
        (Spliced t key off (.one ⟨pg,ents,next⟩)) [pg] up := by
  have bound := posLeBound (ents.map LE.key) key
  have tmpLen := insertAtLength (LE.mk key off) (by simpa using bound)
  unfold leafIns
  by_cases room : ents.length < leafMax
  · rw [if_pos room]
    refine ⟨_,_,rfl,⟨rfl,rfl,le_refl _,?_⟩,?_⟩
    · intro q _ hq
      simp only [List.mem_singleton] at hq
      simp [hq]
    · refine ⟨[pg],⟨_,next,if_pos rfl,?_,?_,rfl⟩,⟨by simp,by simp,?_⟩⟩
      · omega
      · simp [splice,leafSplit,room,Leaf.keys]
      · rintro q (h | ⟨above,below⟩)
        · exact h
        · simp only [wrPages] at below
          omega
  · rw [if_neg room]
    have full : ents.length = leafMax := by omega
    have ne : pg ≠ t.npages := by omega
    refine ⟨_,_,rfl,⟨rfl,rfl,?_,?_⟩,?_⟩
    · change t.npages ≤ t.npages + 1
      omega
    · intro q hold hq
      simp only [List.mem_singleton] at hq
      simp [hq,show q ≠ t.npages by omega]
    · refine ⟨.one ⟨pg,_,t.npages⟩,[pg],.one ⟨t.npages,_,next⟩,[t.npages],
        ⟨_,_,(if_neg ne).trans (if_pos rfl),?_,rfl,rfl⟩,⟨_,_,if_pos rfl,?_,rfl,rfl⟩,?_,⟨?_,?_,?_⟩,?_,?_⟩
      · rw [List.length_take]
        exact Nat.le_trans (Nat.min_le_left _ _) (by decide)
      · rw [List.length_drop,tmpLen,full]
        decide
      · have room' : ¬ ents.length < 255 := room
        simp [splice,leafSplit,room',Leaf.keys,cat,leafMax]
      · simp [ne]
      · simp only [List.cons_append,List.nil_append,List.mem_cons,List.not_mem_nil,or_false]
        rintro q (rfl | rfl)
        · exact .inl rfl
        · exact .inr ⟨le_refl _,by simp only [wrPages]; omega⟩
      · rintro q (h | ⟨above,below⟩)
        · exact List.mem_append_left _ h
        · have newest : q = t.npages := by simp only [wrPages] at below; omega
          simp [newest]
      · simp [overflows,BTree.rd,page,Page.full,full]
      · intro s above _ same
        have long : 128 < ((insertAt (posLe (ents.map LE.key) key) (LE.mk key off) ents).map LE.key).length := by
          rw [List.length_map,tmpLen,full]; decide
        have at_ : ((insertAt (posLe (ents.map LE.key) key) (LE.mk key off) ents).map LE.key)[128]? = some s := by
          rw [List.getElem?_eq_getElem long,← same]
          simp only [leafMax,List.getD,List.getElem?_eq_getElem long,Option.getD_some]
        rw [insertAtMap] at at_
        have hit := middleReaches bound (posLeBelow _ _) above (fun _ => ne_of_lt above) at_
        simpa [BTree.rd,page,Page.lowEnd,leafMax] using hit

theorem splicedOrdered {t : BTree} {key off : Int} {a : Leaves} (ord : Ordered Leaf.keys a) :
    Ordered Leaf.keys (Spliced t key off a) :=
  spliceOrdered ord fun b hb => leafSplitOrdered (orderedBlock ord b hb)

/-- A separator that came up under a clean hole goes to the place the descent went through. -/
theorem cleanPlace {S ch ks key a ps c ac pc a1 mk a2} (o : Hole S ch ks key a ps c ac pc)
    (ord : Ordered Leaf.keys (o.ctx (cat a1 mk a2))) (clean : ∀ s, ks[posLe ks key]? = some s → mk ≠ s) :
    posLe ks mk = posLe ks key ∧ ∀ s, ks[posLe ks key]? = some s → mk < s := by
  simp only [Ordered,o.flatCtx,flatCat,List.append_assoc] at ord
  obtain ⟨-,rest,low⟩ := List.pairwise_append.mp ord
  have high : ∀ s ∈ o.fr, mk ≤ s := by
    intro s hs
    have tail := (List.pairwise_append.mp rest).2.1
    exact (List.pairwise_cons.mp tail).1 s (by simp [hs])
  have above : ∀ s, ks[posLe ks key]? = some s → mk < s := fun s hs =>
    lt_of_le_of_ne (high s (o.after s hs)) (clean s hs)
  refine ⟨posLeUnique (posLeBound _ _) (fun k hk => low k (o.before k hk) mk (by simp)) above,above⟩

theorem usesAround {t t1 : BTree} {pg : Int} {qs left pc right pc' : List Int}
    (split : qs = left ++ pc ++ right) (nodup : (pg :: qs).Nodup) (old : ∀ q ∈ pg :: qs, q < t.npages)
    (uses : Uses t t1 pc pc') : Uses t t1 (pg :: qs) (pg :: (left ++ pc' ++ right)) := by
  subst split
  refine ⟨?_,?_,?_⟩
  · simp only [List.nodup_cons,List.nodup_append,List.mem_append,not_or] at nodup ⊢
    obtain ⟨⟨⟨pl,pp⟩,pr⟩,⟨⟨nl,nc,dlc⟩,nr,dr⟩⟩ := nodup
    have fresh : ∀ q ∈ pc', ∀ r ∈ pg :: (left ++ right), q ∈ pc ∨ q ≠ r := by
      intro q hq r hr
      rcases uses.origin q hq with h | h
      · exact .inl h
      · have := old r (by simp at hr ⊢; tauto)
        exact .inr (by omega)
    refine ⟨⟨⟨pl,?_⟩,pr⟩,⟨⟨nl,uses.nodup,?_⟩,nr,?_⟩⟩
    · intro hq
      rcases fresh pg hq pg (by simp) with h | h
      · exact pp h
      · exact h rfl
    · intro x hx y hy e
      rcases fresh y hy x (by simp [hx]) with h | h
      · exact dlc x hx y h e
      · exact h e.symm
    · intro x hx y hy e
      rcases hx with hx | hx
      · exact dr x (.inl hx) y hy e
      · rcases fresh x hx y (by simp [hy]) with h | h
        · exact dr x (.inr h) y hy e
        · exact h e
  · intro q hq
    simp only [List.mem_cons,List.mem_append] at hq ⊢
    rcases hq with rfl | (h | h) | h
    · exact .inl (.inl rfl)
    · exact .inl (.inr (.inl (.inl h)))
    · rcases uses.origin q h with h | h
      · exact .inl (.inr (.inl (.inr h)))
      · exact .inr h
    · exact .inl (.inr (.inr h))
  · intro q hq
    simp only [List.mem_cons,List.mem_append] at hq ⊢
    rcases hq with (rfl | (h | h) | h) | h
    · exact .inl rfl
    · exact .inr (.inl (.inl h))
    · exact .inr (.inl (.inr (uses.covers q (.inl h))))
    · exact .inr (.inr h)
    · exact .inr (.inl (.inr (uses.covers q (.inr h))))

/-- The new half of a split internal page goes to the page allocated last. -/
theorem usesSplit {t t1 t' : BTree} {pg : Int} {ps p1 p2 : List Int} (uses : Uses t t1 ps (pg :: (p1 ++ p2)))
    (old : ∀ q ∈ ps, q < t.npages) (step : t.npages ≤ t1.npages) (pages : t'.npages = t1.npages + 1) :
    Uses t t' ps ((pg :: p1) ++ (t1.npages :: p2)) := by
  have below : ∀ q ∈ pg :: (p1 ++ p2), q < t1.npages := by
    intro q hq
    rcases uses.origin q hq with h | h
    · have := old q h; omega
    · exact h.2
  have fresh : t1.npages ∉ pg :: (p1 ++ p2) := fun h => absurd (below _ h) (by omega)
  refine ⟨?_,?_,?_⟩
  · have perm : ((pg :: p1) ++ (t1.npages :: p2)).Perm (t1.npages :: (pg :: (p1 ++ p2))) := by
      simpa using @List.perm_middle _ t1.npages (pg :: p1) p2
    exact perm.nodup_iff.mpr (List.nodup_cons.mpr ⟨fresh,uses.nodup⟩)
  · intro q hq
    have cases : q = t1.npages ∨ q ∈ pg :: (p1 ++ p2) := by simp at hq ⊢; tauto
    rcases cases with rfl | h
    · exact .inr (by omega)
    · rcases uses.origin q h with h | h
      · exact .inl h
      · exact .inr (by omega)
  · intro q hq
    by_cases new : q = t1.npages
    · simp [new]
    · have below : q ∈ pg :: (p1 ++ p2) := uses.covers q (hq.imp_right fun h => ⟨h.1,by omega⟩)
      simp only [List.mem_append,List.mem_cons] at below ⊢
      tauto

section Descend
variable {fuel : Nat} {t t1 : BTree} {pg key off c : Int} {ch keys : List Int} {up : Up}
  (page : t.file pg = .int ch keys) (child : ch[posLe keys key]?.getD 0 = c)
include page child

theorem doInsertKeep (run : doInsert fuel t c key off = some (t1,none)) :
    doInsert (fuel + 1) t pg key off = some (t1,none) := by
  simp [doInsert,BTree.rd,page,child,run]

theorem doInsertGrow (run : doInsert fuel t c key off = some (t1,some up)) (kept : t1.file pg = .int ch keys)
    (room : keys.length < intMax) (place : posLe keys up.mkey = posLe keys key) :
    doInsert (fuel + 1) t pg key off =
      some (t1.wr pg (.int (insertAt (posLe keys key + 1) up.rnew ch) (insertAt (posLe keys key) up.mkey keys)),none) := by
  simp [doInsert,BTree.rd,page,child,run,kept,intIns,place,room]

theorem doInsertSplit (run : doInsert fuel t c key off = some (t1,some up)) (kept : t1.file pg = .int ch keys)
    (full : keys.length = 340) (place : posLe keys up.mkey = posLe keys key) (pgOld : pg < t1.npages) {mk : Int}
    (middle : (insertAt (posLe keys key) up.mkey keys)[170]? = some mk) :
    ∃ t2 : BTree, doInsert (fuel + 1) t pg key off = some (t2,some ⟨mk,t1.npages⟩) ∧
      t2.file pg = .int ((insertAt (posLe keys key + 1) up.rnew ch).take 171)
        ((insertAt (posLe keys key) up.mkey keys).take 170) ∧
      t2.file t1.npages = .int ((insertAt (posLe keys key + 1) up.rnew ch).drop 171)
        ((insertAt (posLe keys key) up.mkey keys).drop 171) ∧
      (∀ q, q ≠ pg → q < t1.npages → t2.file q = t1.file q) ∧ t2.root = t1.root ∧
      t2.nkeys = t1.nkeys ∧ t2.npages = t1.npages + 1 := by
  refine ⟨(t1.wr pg (.int ((insertAt (posLe keys key + 1) up.rnew ch).take 171)
    ((insertAt (posLe keys key) up.mkey keys).take 170))).allocPg.1.wr t1.npages
      (.int ((insertAt (posLe keys key + 1) up.rnew ch).drop 171)
        ((insertAt (posLe keys key) up.mkey keys).drop 171)),?_,?_,?_,?_,rfl,rfl,rfl⟩
  · simp [doInsert,BTree.rd,page,child,run,kept,intIns,place,full,intMax,middle,BTree.allocPg]
  · simp [BTree.allocPg,show pg ≠ t1.npages by omega]
  · simp
  · intro q hq lt
    simp [BTree.allocPg,hq,show q ≠ t1.npages by omega]

end Descend

theorem insertStep (key off : Int) : ∀ (h fuel : Nat) {t : BTree} {pg : Int} {a : Leaves} {ps : List Int},
    h < fuel → Sub h t.file pg a ps → ps.Nodup → (∀ q ∈ ps, q < t.npages) → Ordered Leaf.keys a →
    misfiles fuel t pg key = false →
    ∃ t' up, doInsert fuel t pg key off = some (t',up) ∧ Step t t' ps ∧
      Outcome h fuel t t' pg key a (Spliced t key off a) ps up := by
  intro h
  induction h with
  | zero =>
    intro fuel t pg a ps enough sub _ old _ _
    obtain ⟨ents,next,page,len,rfl,rfl⟩ := sub
    cases fuel with
    | zero => omega
    | succ fuel =>
      obtain ⟨t',up,run,step,out⟩ := leafStep key off fuel page len (old pg (by simp))
      exact ⟨t',up,by simp [doInsert,BTree.rd,page,run],step,out⟩
  | succ h ih =>
    intro fuel t pg a ps enough sub nodup old ord clean
    obtain ⟨ch,keys,qs,page,len,kids,rfl⟩ := sub
    cases fuel with
    | zero => omega
    | succ fuel =>
      obtain ⟨c,ac,pc,⟨o⟩⟩ := kidsHole kids key ord
      have child : ch[posLe keys key]?.getD 0 = c := by simp [o.child]
      simp only [misfiles,BTree.rd,page,List.getD_eq_getElem?_getD,child,Bool.or_eq_false_iff] at clean
      have pgOut : pg ∉ qs := (List.nodup_cons.mp nodup).1
      have qsNodup : qs.Nodup := (List.nodup_cons.mp nodup).2
      have ordA := ord
      rw [Ordered,o.chain,o.flatCtx,List.append_assoc] at ordA
      obtain ⟨-,ordA,-⟩ := List.pairwise_append.mp ordA
      obtain ⟨ordC,-,ordCR⟩ := List.pairwise_append.mp ordA
      have pcNodup : pc.Nodup := by
        have := o.pages ▸ qsNodup
        exact ((List.nodup_append.mp (List.nodup_append.mp this).1).2.1)
      have inPs : ∀ q ∈ pc, q ∈ qs := fun q hq => by rw [o.pages]; simp [hq]
      obtain ⟨t1,up,run,step,out⟩ := ih fuel (by omega) o.own pcNodup
        (fun q hq => old q (by simp [inPs q hq])) ordC clean.1
      have kept : t1.file pg = .int ch keys := by
        rw [step.frame pg (old pg (by simp)) (fun hq => pgOut (inPs pg hq)),page]
      -- the subtrees beside the child keep their pages, whatever is written to `pg` and to new pages
      have beside : ∀ file : Int → Page, (∀ q, q ≠ pg → q < t1.npages → file q = t1.file q) →
          ∀ d b rs, (∀ q ∈ rs, q ∈ o.left ∨ q ∈ o.right) → Sub h t.file d b rs → Sub h file d b rs := by
        intro file same d b rs inside hs
        refine subFrame hs fun q hq => ?_
        have mem : q ∈ qs := by rw [o.pages]; rcases inside q hq with h | h <;> simp [h]
        have ne : q ≠ pg := by rintro rfl; exact pgOut mem
        have lt := old q (List.mem_cons_of_mem _ mem)
        have out : q ∉ pc := by
          have nd := o.pages ▸ qsNodup
          rw [List.nodup_append,List.nodup_append] at nd
          rcases inside q hq with h | h
          · exact fun hp => nd.1.2.2 q h q hp rfl
          · exact fun hp => nd.2.2 q (by simp [hp]) q h rfl
        rw [same q ne (by have := step.pages; omega),step.frame q lt out]
      have within : ∀ {t2 : BTree}, (∀ q, q ≠ pg → q < t1.npages → t2.file q = t1.file q) →
          ∀ q, q < t.npages → q ∉ pg :: qs → t2.file q = t.file q := by
        intro t2 same q lt out
        simp only [List.mem_cons,not_or] at out
        rw [same q out.1 (by have := step.pages; omega),step.frame q lt fun hq => out.2 (inPs q hq)]
      have spliced : Spliced t key off a = o.ctx (Spliced t key off ac) := o.splices _
      cases up with
      | none =>
        obtain ⟨pc',sub',uses⟩ := out
        refine ⟨t1,none,doInsertKeep page child run,⟨step.root,step.keys,step.pages,within fun _ _ _ => rfl⟩,?_⟩
        · refine ⟨pg :: (o.left ++ pc' ++ o.right),⟨ch,keys,_,kept,len,?_,rfl⟩,?_⟩
          · rw [spliced]
            exact o.keep (beside t1.file fun _ _ _ => rfl) sub'
          · exact usesAround o.pages nodup old uses
      | some up =>
        obtain ⟨a1,p1,a2,p2,sub1,sub2,cut,uses,overOk,reach⟩ := out
        have ordNew : Ordered Leaf.keys (o.ctx (cat a1 up.mkey a2)) := by
          rw [← cut,← spliced]; exact splicedOrdered ord
        have childBelow : ∀ s, keys[posLe keys key]? = some s → ∀ x ∈ flat Leaf.keys ac, x ≤ s :=
          fun s hs x hx => ordCR x hx s (o.after s hs)
        obtain ⟨place,above⟩ := cleanPlace o ordNew fun s hs e => by
          have low := reach s (posLeStop keys key s hs) (childBelow s hs) e
          rw [BTree.rd] at low
          simp [overOk,low,hs] at clean
        have around := usesAround o.pages nodup old uses
        have grown : ∀ file : Int → Page, (∀ q, q ≠ pg → q < t1.npages → file q = t1.file q) →
            Kids (Sub h file) (insertAt (posLe keys key + 1) up.rnew ch) (insertAt (posLe keys key) up.mkey keys)
              (Spliced t key off a) (o.left ++ (p1 ++ p2) ++ o.right) := by
          intro file same
          have fresh : ∀ q ∈ p1 ++ p2, file q = t1.file q := by
            intro q hq
            rcases uses.origin q hq with h | h
            · have lt := old q (by simp [inPs q h])
              refine same q ?_ (by have := step.pages; omega)
              rintro rfl; exact pgOut (inPs q h)
            · exact same q (by have := old pg (by simp); omega) h.2
          rw [spliced,cut]
          exact o.grow _ (beside file same) (subFrame sub1 fun q hq => fresh q (by simp [hq]))
            (subFrame sub2 fun q hq => fresh q (by simp [hq]))
        by_cases room : keys.length < intMax
        · refine ⟨t1.wr pg (.int (insertAt (posLe keys key + 1) up.rnew ch)
            (insertAt (posLe keys key) up.mkey keys)),none,doInsertGrow page child run kept room place,⟨step.root,step.keys,step.pages,
              within fun q hq _ => if_neg hq⟩,?_⟩
          · refine ⟨pg :: (o.left ++ (p1 ++ p2) ++ o.right),⟨_,_,_,if_pos rfl,?_,grown _ fun q hq _ => if_neg hq,rfl⟩,?_⟩
            · rw [insertAtLength _ (posLeBound _ _)]; omega
            · exact ⟨around.nodup,around.origin,around.covers⟩
        · have full : keys.length = 340 := by simp only [intMax] at len room; omega
          have tlen : (insertAt (posLe keys key) up.mkey keys).length = 341 := by
            rw [insertAtLength _ (posLeBound _ _),full]
          obtain ⟨mk,hmk⟩ : ∃ mk, (insertAt (posLe keys key) up.mkey keys)[170]? = some mk :=
            ⟨_,List.getElem?_eq_getElem (by omega)⟩
          have pgOld : pg < t1.npages := by have := old pg (by simp); have := step.pages; omega
          obtain ⟨t2,run2,low2,high2,same2,root2,keys2,pages2⟩ := doInsertSplit page child run kept full place pgOld hmk
          obtain ⟨l1,q1,l2,q2,left,right,split,pages⟩ := kidsCut (grown t2.file same2) 170 mk hmk
          refine ⟨t2,_,run2,⟨?_,?_,?_,within same2⟩,l1,pg :: q1,l2,t1.npages :: q2,
            ⟨_,_,_,low2,?_,left,rfl⟩,⟨_,_,_,high2,?_,right,rfl⟩,split,?_,?_,?_⟩
          · rw [root2,step.root]
          · rw [keys2,step.keys]
          · have := step.pages; omega
          · rw [List.length_take]
            exact Nat.le_trans (Nat.min_le_left _ _) (by decide)
          · rw [List.length_drop,tlen]; decide
          · rw [pages] at around
            exact usesSplit around old step.pages pages2
          · simp [overflows,BTree.rd,page,Page.full,full,intMax,child,overOk]
          · intro s higher bound same
            subst same
            have reachMid := middleReaches (posLeBound keys key) (posLeBelow keys key) higher (fun mid e => by
              obtain ⟨d,hd⟩ : ∃ d, keys[170]? = some d := ⟨_,List.getElem?_eq_getElem (by omega)⟩
              have hd' : keys[posLe keys key]? = some d := mid ▸ hd
              have lt := above d hd'
              have le := bound d (by rw [o.chain,o.flatCtx]; simp [o.after d hd'])
              omega) hmk
            simpa [BTree.rd,page,Page.lowEnd,intMax] using reachMid

end Napastak.Btree
