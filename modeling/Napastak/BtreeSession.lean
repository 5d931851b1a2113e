import Napastak.BtreeRange

/-! Whole sessions with an index: insertions, with the file closed and opened again anywhere in
between. Page 0 is the header, from which the next handle takes root and counters. -/
namespace Napastak.Btree
open SepChain

def magic : Nat := 0x44464F42545245FF
def version : Nat := 1

structure FHdr where
  magic : Nat
  version : Nat
  root : Int
  nkeys : Nat
  npages : Int
  deriving DecidableEq, Repr

/-- A file that no handle has open: page 0 and the pages of the tree. -/
structure IndexFile where
  hdr : FHdr
  pages : Int → Page

def flushHdr (t : BTree) : FHdr := ⟨magic,version,t.root,t.nkeys,t.npages⟩

def btreeClose (t : BTree) : IndexFile := ⟨flushHdr t,t.file⟩

def btreeOpen (f : IndexFile) : Option BTree :=
  if f.hdr.magic ≠ magic then none else some ⟨f.pages,f.hdr.root,f.hdr.npages,f.hdr.nkeys⟩

def btreeCount (t : BTree) : Nat := t.nkeys

inductive Call where
  | insert (e : LE)
  | reopen
  deriving DecidableEq, Repr

def Call.run (t : BTree) : Call → Option BTree
  | .insert e => btreeInsert t e.key e.off
  | .reopen => btreeOpen (btreeClose t)

def session (t : BTree) : List Call → Option BTree
  | [] => some t
  | c :: cs => do session (← c.run t) cs

def Call.pair : Call → Option LE
  | .insert e => some e
  | .reopen => none

def inserted (cs : List Call) : List LE := cs.filterMap Call.pair

/-- The leaves met from `pg` on along the `next` pointers. -/
def followNext : Nat → (Int → Page) → Int → Option (List Leaf)
  | 0, _, _ => none
  | fuel + 1, file, pg =>
    if pg < 0 then some []
    else match file pg with
      | .int _ _ => none
      | .leaf ents next => (followNext fuel file next).map (⟨pg,ents,next⟩ :: ·)

/-- The tree below the root has height `h`, the leaves `a` from left to right and the pages `ps`, a
page listed once for every path to it; `Sub` bounds every page. -/
structure SoundAs (t : BTree) (es : List LE) (h : Nat) (a : Leaves) (ps : List Int) : Prop where
  tree : Sub h t.file t.root a ps
  once : ps.Nodup
  every : ∀ q, q ∈ ps ↔ 1 ≤ q ∧ q < t.npages
  chain : followNext t.fuel t.file 1 = some (blocks a)
  sorted : ((entries (blocks a)).map LE.key).Pairwise (· ≤ ·)
  content : (entries (blocks a)).Perm es
  count : btreeCount t = es.length

def Sound (t : BTree) (es : List LE) : Prop := ∃ h a ps, SoundAs t es h a ps

def cleanCall (t : BTree) : Call → Bool
  | .insert e => !misfiles t.fuel t t.root e.key
  | .reopen => true

def cleanSession (t : BTree) : List Call → Bool
  | [] => true
  | c :: cs => cleanCall t c && match c.run t with
    | none => true
    | some t' => cleanSession t' cs

theorem reopenSame (t : BTree) : Call.run t .reopen = some t := by
  simp [Call.run,btreeOpen,btreeClose,flushHdr]

theorem sessionInserts (t : BTree) (es : List LE) : session t (es.map .insert) = inserts t es := by
  induction es generalizing t with
  | nil => rfl
  | cons e es ih =>
    cases h : btreeInsert t e.key e.off <;> simp [session,inserts,Call.run,h,ih]

theorem insertedInserts (es : List LE) : inserted (es.map .insert) = es := by
  rw [inserted,List.filterMap_map]
  exact List.filterMap_some

theorem cleanBefore {t : BTree} {before calls : List Call} (first : before <+: calls)
    (clean : cleanSession t calls = true) : cleanSession t before = true := by
  induction before generalizing t calls with
  | nil => rfl
  | cons c before ih =>
    obtain ⟨rest,rfl⟩ := first
    simp only [List.cons_append,cleanSession,Bool.and_eq_true] at clean ⊢
    refine ⟨clean.1,?_⟩
    cases h : c.run t with
    | none => rfl
    | some t' =>
      simp only [h] at clean
      exact ih (List.prefix_append _ _) clean.2

/-- What holds of a handle after any clean session. -/
structure Whole (t : BTree) (a : Leaves) (es : List LE) : Prop where
  tree : ∃ h ps, Sub h t.file t.root a ps ∧ ps.Nodup ∧ ∀ q, q ∈ ps ↔ 1 ≤ q ∧ q < t.npages
  first : (head a).pg = 1
  ordered : Ordered Leaf.keys a
  linked : Linked (blocks a)
  content : (entries (blocks a)).Perm es
  count : t.nkeys = es.length

theorem leafSplitHead (fresh key off : Int) (l : Leaf) : (head (leafSplit fresh key off l)).pg = l.pg := by
  unfold leafSplit
  split <;> rfl

theorem createWhole : Whole btreeCreate (.one ⟨1,[],-1⟩) [] := by
  refine ⟨⟨0,[1],⟨[],-1,rfl,by decide,rfl,rfl⟩,by decide,fun q => ?_⟩,rfl,by simp [Ordered,flat,Leaf.keys],rfl,.refl _,rfl⟩
  change q ∈ [1] ↔ 1 ≤ q ∧ q < 2
  rw [List.mem_singleton]
  omega

theorem insertWhole {t : BTree} {a : Leaves} {es : List LE} (key off : Int) (w : Whole t a es)
    (clean : misfiles t.fuel t t.root key = false) :
    ∃ t', btreeInsert t key off = some t' ∧ Whole t' (Spliced t key off a) (es ++ [⟨key,off⟩]) := by
  obtain ⟨h,ps,sub,nodup,every⟩ := w.tree
  obtain ⟨t',h',ps',run,sub',uses,count,grows⟩ := insertTree off sub nodup
    (fun q hq => by have := (every q).mp hq; omega) w.ordered clean
  refine ⟨t',run,⟨h',ps',sub',uses.nodup,fun q => ?_⟩,?_,splicedOrdered w.ordered,splicedLinked w.linked,?_,?_⟩
  · have root := (every t.root).mp (subRoot sub)
    constructor
    · intro hq
      rcases uses.origin q hq with old | new
      · have := (every q).mp old
        omega
      · omega
    · intro hq
      refine uses.covers q ?_
      by_cases old : q < t.npages
      · exact .inl ((every q).mpr ⟨hq.1,old⟩)
      · exact .inr ⟨by omega,hq.2⟩
  · exact (headSplice _ Leaf.pg _ (leafSplitHead t.npages key off) a).trans w.first
  · refine ((splicedEntries t key off a).trans (w.content.cons _)).trans ?_
    simpa using (@List.perm_middle _ (LE.mk key off) es []).symm
  · simp [count,w.count]

theorem runWhole {t : BTree} {a : Leaves} {es : List LE} (w : Whole t a es) (calls : List Call)
    (clean : cleanSession t calls = true) :
    ∃ t' a', session t calls = some t' ∧ Whole t' a' (es ++ inserted calls) := by
  induction calls generalizing t a es with
  | nil => exact ⟨t,a,rfl,by simpa [inserted] using w⟩
  | cons c calls ih =>
    simp only [cleanSession,Bool.and_eq_true] at clean
    cases c with
    | reopen =>
      rw [reopenSame] at clean
      exact ih w clean.2
    | insert e =>
      obtain ⟨t1,run,w1⟩ := insertWhole e.key e.off w (by simpa [cleanCall] using clean.1)
      have run' : Call.run t (.insert e) = some t1 := run
      rw [run'] at clean
      obtain ⟨t',a',more,w'⟩ := ih w1 clean.2
      refine ⟨t',a',by simp [session,run',more],?_⟩
      simpa [inserted,Call.pair] using w'

/-- The pointers lead along linked leaves to the end. -/
theorem followLinked {file : Int → Page} {l : Leaf} {ls : List Leaf} {fuel : Nat} (linked : Linked (l :: ls))
    (page : ∀ m ∈ l :: ls, file m.pg = .leaf m.ents m.next ∧ 0 ≤ m.pg) (enough : (l :: ls).length < fuel) :
    followNext fuel file l.pg = some (l :: ls) := by
  induction ls generalizing l fuel with
  | nil =>
    obtain ⟨fuel,rfl⟩ : ∃ f, fuel = f + 2 := ⟨fuel - 2,by simp at enough; omega⟩
    obtain ⟨here,old⟩ := page l List.mem_cons_self
    have last : l.next = -1 := linked
    simp only [followNext,here,if_neg (show ¬ l.pg < 0 by omega)]
    rw [last,if_pos (by decide),Option.map_some,← last]
  | cons m ls ih =>
    obtain ⟨fuel,rfl⟩ : ∃ f, fuel = f + 1 := ⟨fuel - 1,by simp at enough; omega⟩
    obtain ⟨here,old⟩ := page l List.mem_cons_self
    have rest := ih linked.2 (fun x hx => page x (List.mem_cons_of_mem _ hx)) (by simp at enough ⊢; omega)
    simp only [followNext,here,if_neg (show ¬ l.pg < 0 by omega)]
    rw [linked.1,rest,Option.map_some,← linked.1]

theorem wholeSound {t : BTree} {a : Leaves} {es : List LE} (w : Whole t a es) : Sound t es := by
  obtain ⟨h,ps,sub,nodup,every⟩ := w.tree
  obtain ⟨pgs,file⟩ := subLeaves sub
  have count := pagesBound (n := t.npages) nodup fun q hq => by have := (every q).mp hq; omega
  refine ⟨h,a,ps,sub,nodup,every,?_,w.ordered.sublist (entriesFlat a),w.content,w.count⟩
  obtain ⟨ls,hls⟩ : ∃ ls, blocks a = head a :: ls := by cases a <;> exact ⟨_,rfl⟩
  rw [← w.first,hls]
  refine followLinked (hls ▸ w.linked) (fun m hm => ?_) ?_
  · rw [← hls] at hm
    have := (every m.pg).mp (pgs.subset (List.mem_map_of_mem hm))
    exact ⟨file m hm,by omega⟩
  · have := pgs.length_le
    rw [List.length_map,hls] at this
    simp only [BTree.fuel]
    omega

/-- In a session none of whose insertions files a new page away from the page it came from, every
handle reached holds a tree in good shape with exactly the pairs inserted so far. -/
theorem cleanSound (calls : List Call) (clean : cleanSession btreeCreate calls = true) :
    ∀ before, before <+: calls → ∃ t, session btreeCreate before = some t ∧ Sound t (inserted before) := by
  intro before first
  obtain ⟨t,a,run,w⟩ := runWhole createWhole before (cleanBefore first clean)
  exact ⟨t,run,wholeSound (by simpa using w)⟩

/-- Three inserts with a close and open between them. -/
def reopened : List Call := [.insert ⟨7,0⟩,.reopen,.insert ⟨-3,24⟩,.insert ⟨7,48⟩]

theorem cleanSoundReopened : ∃ t, session btreeCreate reopened = some t ∧ Sound t (inserted reopened) :=
  cleanSound reopened (by decide) reopened (List.prefix_refl _)

/-- 256 rows with key 5 and 128 with key 4: the leaf chain is 1, 4, 2 and the tree has the leaves
1, 2, 4. -/
theorem behindUnsound : ∃ t, session btreeCreate (behindRun.map .insert) = some t ∧
    ¬ Sound t (inserted (behindRun.map .insert)) := by
  obtain ⟨t,run,root,pages,-,top,left,right,new⟩ := filedBehind
  refine ⟨t,(sessionInserts _ _).trans run,?_⟩
  rintro ⟨h,a,ps,s⟩
  cases h with
  | zero =>
    obtain ⟨ents,next,page,-⟩ := s.tree
    rw [root,top] at page
    cases page
  | succ h =>
    obtain ⟨ch,keys,qs,page,-,kids,-⟩ := s.tree
    rw [root,top] at page
    cases page
    cases kids with
    | cons own1 rest =>
      cases rest with
      | cons own2 rest =>
        cases rest with
        | last own3 =>
          cases h with
          | succ h =>
            obtain ⟨_,_,_,page,-⟩ := own1
            rw [left] at page
            cases page
          | zero =>
            obtain ⟨_,_,-,-,rfl,-⟩ := own1
            obtain ⟨_,_,-,-,rfl,-⟩ := own2
            obtain ⟨_,_,-,-,rfl,-⟩ := own3
            have chain := s.chain
            simp only [BTree.fuel,pages] at chain
            simp [followNext,left,right,new,cat,blocks,-List.reduceReplicate] at chain

end Napastak.Btree
