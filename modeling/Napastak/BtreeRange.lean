import Napastak.BtreeInsert
import Mathlib.Data.List.Perm.Subperm

/-! Runs of insertions and what range search returns after them. -/
namespace Napastak.Btree
open SepChain

def Linked : List Leaf → Prop
  | [] => True
  | [l] => l.next = -1
  | l :: m :: rest => l.next = m.pg ∧ Linked (m :: rest)

/-- A leaf may be replaced by leaves that are entered and left where it was. -/
theorem linkedReplace {l : Leaf} {pre post : List Leaf} (h : Linked (pre ++ l :: post)) :
    (∀ ents, Linked (pre ++ {l with ents := ents} :: post)) ∧
    ∀ ents fresh ents', Linked (pre ++ ⟨l.pg,ents,fresh⟩ :: ⟨fresh,ents',l.next⟩ :: post) := by
  induction pre with
  | nil =>
    cases post with
    | nil => exact ⟨fun _ => h,fun _ _ _ => ⟨rfl,h⟩⟩
    | cons m rest => exact ⟨fun _ => h,fun _ _ _ => ⟨rfl,h.1,h.2⟩⟩
  | cons p pre ih =>
    cases pre with
    | nil =>
      obtain ⟨here,tail⟩ := h
      exact ⟨fun ents => ⟨here,(ih tail).1 ents⟩,fun ents fresh ents' => ⟨here,(ih tail).2 ents fresh ents'⟩⟩
    | cons q pre =>
      obtain ⟨here,tail⟩ := h
      exact ⟨fun ents => ⟨here,(ih tail).1 ents⟩,fun ents fresh ents' => ⟨here,(ih tail).2 ents fresh ents'⟩⟩

theorem splicedLinked {t : BTree} {key off : Int} {a : Leaves} (h : Linked (blocks a)) :
    Linked (blocks (Spliced t key off a)) := by
  obtain ⟨-,b,-,bpre,bpost,-,hb,-,hs,-⟩ :=
    spliceSplit (fun s => decide (s ≤ key)) Leaf.keys (leafSplit t.npages key off) a
  rw [hb] at h
  rw [Spliced,hs]
  unfold leafSplit
  split
  · simpa [blocks] using (linkedReplace h).1 _
  · simpa [blocks] using (linkedReplace h).2 _ t.npages _

theorem splicedEntries (t : BTree) (key off : Int) (a : Leaves) :
    (entries (blocks (Spliced t key off a))).Perm (⟨key,off⟩ :: entries (blocks a)) := by
  obtain ⟨-,b,-,bpre,bpost,-,hb,-,hs,-⟩ :=
    spliceSplit (fun s => decide (s ≤ key)) Leaf.keys (leafSplit t.npages key off) a
  rw [Spliced,hs,hb]
  simp only [entries,List.flatMap_append,List.flatMap_cons,List.append_assoc]
  have leaf := leafSplitEntries t.npages key off b
  have place : (bpre.flatMap Leaf.ents ++ ((⟨key,off⟩ :: b.ents) ++ bpost.flatMap Leaf.ents)).Perm
      (⟨key,off⟩ :: (bpre.flatMap Leaf.ents ++ (b.ents ++ bpost.flatMap Leaf.ents))) := List.perm_middle
  exact ((leaf.append_right _).append_left _).trans place

/-- The whole tree, as the leaves under its root. -/
def Shape (t : BTree) (a : Leaves) : Prop :=
  ∃ h ps, Sub h t.file t.root a ps ∧ ps.Nodup ∧ ∀ q ∈ ps, 0 ≤ q ∧ q < t.npages

theorem subHeight {h file pg a ps} (sub : Sub h file pg a ps) : h < ps.length := by
  induction h generalizing pg a ps with
  | zero => obtain ⟨ents,next,-,-,-,rfl⟩ := sub; simp
  | succ h ih =>
    obtain ⟨ch,keys,qs,-,-,kids,rfl⟩ := sub
    cases kids with
    | last own => have := ih own; simp; omega
    | cons own rest => have := ih own; simp; omega

theorem subLeaves {h file pg a ps} (sub : Sub h file pg a ps) :
    ((blocks a).map Leaf.pg).Sublist ps ∧ ∀ l ∈ blocks a, file l.pg = .leaf l.ents l.next := by
  induction h generalizing pg a ps with
  | zero =>
    obtain ⟨ents,next,page,-,rfl,rfl⟩ := sub
    exact ⟨by simp [blocks],by simpa [blocks] using page⟩
  | succ h ih =>
    obtain ⟨ch,keys,qs,-,-,kids,rfl⟩ := sub
    have under : ((blocks a).map Leaf.pg).Sublist qs ∧ ∀ l ∈ blocks a, file l.pg = .leaf l.ents l.next := by
      induction kids with
      | last own => exact ih own
      | cons own rest ihk =>
        obtain ⟨s1,l1⟩ := ih own
        obtain ⟨s2,l2⟩ := ihk
        refine ⟨by simpa using s1.append s2,?_⟩
        intro l hl
        rcases List.mem_append.mp (blocksCat _ _ _ ▸ hl) with h | h
        · exact l1 l h
        · exact l2 l h
    exact ⟨under.1.cons _,under.2⟩

theorem subRoot {h file pg a ps} (sub : Sub h file pg a ps) : pg ∈ ps := by
  cases h with
  | zero => obtain ⟨_,_,-,-,-,rfl⟩ := sub; simp
  | succ h => obtain ⟨_,_,_,-,-,-,rfl⟩ := sub; simp

theorem pagesBound {ps : List Int} {n : Int} (nodup : ps.Nodup) (range : ∀ q ∈ ps, 0 ≤ q ∧ q < n) :
    ps.length ≤ n.toNat := by
  have inj : (ps.map Int.toNat).Nodup := by
    refine nodup.map_on fun x hx y hy e => ?_
    have := range x hx
    have := range y hy
    omega
  have sub : ps.map Int.toNat ⊆ List.range n.toNat := by
    intro k hk
    obtain ⟨q,hq,rfl⟩ := List.mem_map.mp hk
    have := range q hq
    simp only [List.mem_range]
    omega
  simpa using (inj.subperm sub).length_le

/-- One insertion below the root, which may put a new root on top. -/
theorem insertTree {t : BTree} {a : Leaves} {key : Int} {h : Nat} {ps : List Int} (off : Int)
    (sub : Sub h t.file t.root a ps) (nodup : ps.Nodup) (range : ∀ q ∈ ps, 0 ≤ q ∧ q < t.npages)
    (ord : Ordered Leaf.keys a) (clean : misfiles t.fuel t t.root key = false) :
    ∃ t' h' ps', btreeInsert t key off = some t' ∧ Sub h' t'.file t'.root (Spliced t key off a) ps' ∧
      Uses t t' ps ps' ∧ t'.nkeys = t.nkeys + 1 ∧ t.npages ≤ t'.npages := by
  have height := subHeight sub
  have count := pagesBound nodup range
  obtain ⟨t1,up,run,step,out⟩ := insertStep key off h t.fuel (by simp only [BTree.fuel]; omega) sub nodup
    (fun q hq => (range q hq).2) ord clean
  cases up with
  | none =>
    obtain ⟨ps',sub',uses⟩ := out
    refine ⟨{t1 with nkeys := t1.nkeys + 1},h,ps',by simp [btreeInsert,run],?_,
      ⟨uses.nodup,uses.origin,uses.covers⟩,by simp [step.keys],step.pages⟩
    rw [← step.root] at sub'; exact sub'
  | some up =>
    obtain ⟨a1,p1,a2,p2,sub1,sub2,cut,uses,-,-⟩ := out
    have below : ∀ q ∈ p1 ++ p2, q < t1.npages := by
      intro q hq
      have := step.pages
      rcases uses.origin q hq with h | h
      · have := range q h; omega
      · exact h.2
    have fresh : t1.npages ∉ p1 ++ p2 := fun hm => absurd (below _ hm) (by omega)
    have same : ∀ q ∈ p1 ++ p2, (if q = t1.npages then Page.int [t.root,up.rnew] [up.mkey]
        else if q = t1.npages then blank else t1.file q) = t1.file q := by
      intro q hq
      have := below q hq
      simp [show q ≠ t1.npages by omega]
    refine ⟨{t1.allocPg.1.wr t1.npages (.int [t.root,up.rnew] [up.mkey]) with
        root := t1.npages, nkeys := t1.nkeys + 1},h + 1,t1.npages :: (p1 ++ p2),by simp [btreeInsert,run,BTree.allocPg],
      ⟨_,_,_,if_pos rfl,by simp [intMax],?_,rfl⟩,⟨?_,?_,?_⟩,by simp [step.keys],?_⟩
    · rw [cut]
      exact .cons (subFrame sub1 fun q hq => same q (by simp [hq]))
        (.last (subFrame sub2 fun q hq => same q (by simp [hq])))
    · exact List.nodup_cons.mpr ⟨fresh,uses.nodup⟩
    · intro q hq
      have := step.pages
      change q ∈ ps ∨ t.npages ≤ q ∧ q < t1.npages + 1
      rcases List.mem_cons.mp hq with rfl | hq
      · exact .inr (by omega)
      · exact (uses.origin q hq).imp_right fun h => by omega
    · intro q hq
      change q ∈ ps ∨ t.npages ≤ q ∧ q < t1.npages + 1 at hq
      by_cases new : q = t1.npages
      · simp [new]
      · exact List.mem_cons_of_mem _ (uses.covers q (hq.imp_right fun h => by omega))
    · change t.npages ≤ t1.npages + 1
      have := step.pages
      omega

theorem insertShape {t : BTree} {a : Leaves} {key : Int} (off : Int) (shape : Shape t a) (ord : Ordered Leaf.keys a)
    (clean : misfiles t.fuel t t.root key = false) :
    ∃ t', btreeInsert t key off = some t' ∧ Shape t' (Spliced t key off a) ∧ t'.nkeys = t.nkeys + 1 := by
  obtain ⟨h,ps,sub,nodup,range⟩ := shape
  obtain ⟨t',h',ps',run,sub',uses,count,grows⟩ := insertTree off sub nodup range ord clean
  refine ⟨t',run,⟨h',ps',sub',uses.nodup,fun q hq => ?_⟩,count⟩
  rcases uses.origin q hq with h | h
  · have := range q h; omega
  · have := range t.root (subRoot sub); omega

theorem kidsSeek {S ch ks a ps} (h : Kids S ch ks a ps) (target : Int) (ord : Ordered Leaf.keys a) :
    ∃ c ac pc, ch[posLt ks target]? = some c ∧ S c ac pc ∧ Ordered Leaf.keys ac ∧
      head (seek (fun s => decide (s < target)) a) = head (seek (fun s => decide (s < target)) ac) := by
  revert ord
  induction h with
  | @last c a ps own => exact fun ord => ⟨c,a,ps,rfl,own,ord,rfl⟩
  | @cons c a ps k cs ks b qs own rest ih =>
    intro ord
    obtain ⟨ordA,ordB,lowA,-⟩ := orderedCat ord
    by_cases hk : k < target
    · obtain ⟨d,ac,pc,child,own',ord',same⟩ := ih ordB
      refine ⟨d,ac,pc,by simpa [posLt,hk] using child,own',ord',?_⟩
      rw [seekRight _ (fun s hs => decide_eq_true ((lowA s (sepsFlat _ _ s hs)).trans_lt hk)) (decide_eq_true hk),same]
    · exact ⟨c,a,ps,by simp [posLt,hk],own,ordA,by rw [seekLeft (fun s => decide (s < target)) (decide_eq_false hk),headCat]⟩

theorem findLeaf (target : Int) : ∀ {h : Nat} (fuel : Nat) {t : BTree} {pg : Int} {a : Leaves} {ps : List Int}, h < fuel →
    Sub h t.file pg a ps → Ordered Leaf.keys a →
    findLeafGe fuel t pg target = some (head (seek (fun s => decide (s < target)) a)).pg := by
  intro h
  induction h with
  | zero =>
    intro fuel t pg a ps enough sub _
    obtain ⟨ents,next,page,-,rfl,-⟩ := sub
    cases fuel with
    | zero => omega
    | succ fuel => simp [findLeafGe,BTree.rd,page,seek,head]
  | succ h ih =>
    intro fuel t pg a ps enough sub ord
    obtain ⟨ch,keys,qs,page,-,kids,-⟩ := sub
    cases fuel with
    | zero => omega
    | succ fuel =>
      obtain ⟨c,ac,pc,child,own,ordC,same⟩ := kidsSeek kids target ord
      simp [findLeafGe,BTree.rd,page,child,ih fuel (show h < fuel by omega) own ordC,same]

def within (lo hi : Int) (e : LE) : Bool := lo ≤ e.key && e.key ≤ hi

def hits (lo hi : Int) (es : List LE) : List Int := (es.filter (within lo hi)).map LE.off

@[simp] theorem hitsAppend (lo hi : Int) (es fs : List LE) : hits lo hi (es ++ fs) = hits lo hi es ++ hits lo hi fs := by
  simp [hits]

theorem hitsNone {lo hi : Int} {es : List LE} (h : ∀ e ∈ es, hi < e.key ∨ e.key < lo) : hits lo hi es = [] := by
  simp only [hits,List.map_eq_nil_iff,List.filter_eq_nil_iff,within,Bool.and_eq_true,decide_eq_true_eq]
  intro e he
  have := h e he
  omega

/-- One leaf adds its hits, and stops the walk only at a key above the range. -/
theorem rangeLeafHits (lo hi : Int) {es : List LE} (offs : List Int)
    (sorted : (es.map LE.key).Pairwise (· ≤ ·)) (cap : offs.length + (hits lo hi es).length ≤ maxOffsets) :
    ∃ stop, rangeLeaf lo hi es offs = (offs ++ hits lo hi es,stop) ∧ (stop = true → ∃ e ∈ es, hi < e.key) := by
  induction es generalizing offs with
  | nil => exact ⟨false,by simp [rangeLeaf,hits],by simp⟩
  | cons e es ih =>
    simp only [List.map_cons,List.pairwise_cons,List.mem_map,forall_exists_index,and_imp,
      forall_apply_eq_imp_iff₂] at sorted
    by_cases room : offs.length < maxOffsets
    · by_cases above : hi < e.key
      · have none : hits lo hi (e :: es) = [] := hitsNone fun x hx => by
          rcases List.mem_cons.mp hx with rfl | hx
          · exact .inl above
          · exact .inl (above.trans_le (sorted.1 x hx))
        exact ⟨true,by simp [rangeLeaf,room,above,none],fun _ => ⟨e,by simp,above⟩⟩
      · have step : hits lo hi (e :: es) = (if lo ≤ e.key then [e.off] else []) ++ hits lo hi es := by
          by_cases low : lo ≤ e.key <;> simp [hits,within,low,show e.key ≤ hi by omega]
        rw [step,List.length_append] at cap
        by_cases low : lo ≤ e.key
        · simp only [low,if_true,List.length_singleton] at cap step
          obtain ⟨stop,run,why⟩ := ih (offs ++ [e.off]) sorted.2 (by simp; omega)
          refine ⟨stop,by simp [rangeLeaf,room,above,low,run,step],fun h => ?_⟩
          obtain ⟨x,hx,hk⟩ := why h
          exact ⟨x,by simp [hx],hk⟩
        · simp only [low,if_false,List.length_nil] at cap step
          obtain ⟨stop,run,why⟩ := ih offs sorted.2 (by omega)
          refine ⟨stop,by simp [rangeLeaf,room,above,low,run,step],fun h => ?_⟩
          obtain ⟨x,hx,hk⟩ := why h
          exact ⟨x,by simp [hx],hk⟩
    · have empty : hits lo hi (e :: es) = [] := List.eq_nil_of_length_eq_zero (by omega)
      exact ⟨false,by simp [rangeLeaf,room,empty],by simp⟩

/-- The walk along the chain of leaves collects the hits of all of them. -/
theorem rangeWalkHits {t : BTree} (lo hi : Int) {l : Leaf} {ls : List Leaf} (offs : List Int) (fuel : Nat)
    (linked : Linked (l :: ls)) (pages : ∀ m ∈ l :: ls, t.file m.pg = .leaf m.ents m.next ∧ 0 ≤ m.pg ∧ m.pg < t.npages)
    (sorted : ((entries (l :: ls)).map LE.key).Pairwise (· ≤ ·)) (enough : ls.length + 1 < fuel)
    (cap : offs.length + (hits lo hi (entries (l :: ls))).length ≤ maxOffsets) :
    rangeWalk fuel t l.pg lo hi offs = some (offs ++ hits lo hi (entries (l :: ls))) := by
  induction ls generalizing l offs fuel with
  | nil =>
    obtain ⟨fuel,rfl⟩ : ∃ f, fuel = f + 2 := ⟨fuel - 2,by simp at enough; omega⟩
    obtain ⟨page,pos,lt⟩ := pages l (by simp)
    have one : entries [l] = l.ents := by simp [entries]
    rw [one] at sorted cap ⊢
    by_cases room : offs.length < maxOffsets
    · obtain ⟨stop,run,-⟩ := rangeLeafHits lo hi offs sorted cap
      have last : l.next = -1 := linked
      cases stop <;> simp [rangeWalk,room,pos,lt,BTree.rd,page,run,last]
    · have empty : hits lo hi l.ents = [] := List.eq_nil_of_length_eq_zero (by omega)
      simp [rangeWalk,room,empty]
  | cons m ls ih =>
    obtain ⟨fuel,rfl⟩ : ∃ f, fuel = f + 1 := ⟨fuel - 1,by omega⟩
    obtain ⟨page,pos,lt⟩ := pages l (by simp)
    have cut : entries (l :: m :: ls) = l.ents ++ entries (m :: ls) := by simp [entries]
    rw [cut,List.map_append] at sorted
    rw [cut,hitsAppend,List.length_append] at cap
    obtain ⟨own,rest,across⟩ := List.pairwise_append.mp sorted
    by_cases room : offs.length < maxOffsets
    · obtain ⟨stop,run,why⟩ := rangeLeafHits lo hi offs own (by omega)
      cases stop with
      | true =>
        obtain ⟨e,he,above⟩ := why rfl
        have none : hits lo hi (entries (m :: ls)) = [] := hitsNone fun x hx => .inl
          (above.trans_le (across _ (List.mem_map_of_mem he) _ (List.mem_map_of_mem hx)))
        simp [rangeWalk,room,pos,lt,BTree.rd,page,run,cut,none]
      | false =>
        have tail := ih (offs ++ hits lo hi l.ents) fuel linked.2
          (fun x hx => pages x (List.mem_cons_of_mem _ hx)) rest (by simp at enough ⊢; omega) (by simp; omega)
        simp [rangeWalk,room,pos,lt,BTree.rd,page,run,linked.1,tail,cut]
    · have empty : hits lo hi (entries (l :: m :: ls)) = [] :=
        List.eq_nil_of_length_eq_zero (by rw [cut,hitsAppend,List.length_append]; omega)
      simp [rangeWalk,room,empty]

theorem entriesFlat (a : Leaves) : ((entries (blocks a)).map LE.key).Sublist (flat Leaf.keys a) := by
  induction a with
  | one l => simp [blocks,entries,flat,Leaf.keys]
  | cons l k r ih =>
    simp only [blocks,entries,List.flatMap_cons,List.map_append,flat]
    exact (List.Sublist.refl _).append (ih.cons k)

/-- What holds of a tree after any clean run of insertions. -/
structure Holds (t : BTree) (a : Leaves) (es : List LE) : Prop where
  shape : Shape t a
  ordered : Ordered Leaf.keys a
  linked : Linked (blocks a)
  content : (entries (blocks a)).Perm es
  count : t.nkeys = es.length

theorem createHolds : Holds btreeCreate (.one ⟨1,[],-1⟩) [] :=
  ⟨⟨0,[1],⟨[],-1,rfl,by decide,rfl,rfl⟩,by decide,by decide⟩,by simp [Ordered,flat,Leaf.keys],rfl,.refl _,rfl⟩

theorem insertHolds {t : BTree} {a : Leaves} {es : List LE} (key off : Int) (h : Holds t a es)
    (clean : misfiles t.fuel t t.root key = false) :
    ∃ t', btreeInsert t key off = some t' ∧ Holds t' (Spliced t key off a) (⟨key,off⟩ :: es) := by
  obtain ⟨t',run,shape,count⟩ := insertShape off h.shape h.ordered clean
  exact ⟨t',run,shape,splicedOrdered h.ordered,splicedLinked h.linked,
    (splicedEntries t key off a).trans (h.content.cons _),by simp [count,h.count]⟩

theorem runHolds {t : BTree} {a : Leaves} {es : List LE} (h : Holds t a es) (more : List LE)
    (clean : cleanRun t more = true) :
    ∃ t' a' es', inserts t more = some t' ∧ Holds t' a' es' ∧ es'.Perm (es ++ more) := by
  induction more generalizing t a es with
  | nil => exact ⟨t,a,es,rfl,h,by simp⟩
  | cons e more ih =>
    simp only [cleanRun,Bool.and_eq_true,Bool.not_eq_true'] at clean
    obtain ⟨t1,run,h1⟩ := insertHolds e.key e.off h clean.1
    rw [run] at clean
    obtain ⟨t',a',es',run',h',perm⟩ := ih h1 clean.2
    refine ⟨t',a',es',by simp [inserts,run,run'],h',perm.trans ?_⟩
    simpa using (@List.perm_middle _ e es more).symm

theorem rangeHolds {t : BTree} {a : Leaves} {es : List LE} (h : Holds t a es) (lo hi : Int)
    (cap : (es.filter (within lo hi)).length ≤ maxOffsets) :
    ∃ found : List LE, found.Perm (es.filter (within lo hi)) ∧ (found.map LE.key).Pairwise (· ≤ ·) ∧
      btreeRange t lo hi = some (found.map LE.off) := by
  have perm := h.content.filter (within lo hi)
  have sorted := h.ordered.sublist (entriesFlat a)
  refine ⟨(entries (blocks a)).filter (within lo hi),perm,sorted.sublist (List.filter_sublist.map LE.key),?_⟩
  unfold btreeRange
  by_cases empty : t.nkeys = 0
  · have nil : es = [] := List.eq_nil_of_length_eq_zero (h.count ▸ empty)
    subst nil
    rw [if_pos empty,List.Perm.eq_nil perm]
    rfl
  · obtain ⟨hgt,ps,sub,nodup,range⟩ := h.shape
    have height := subHeight sub
    have count := pagesBound nodup range
    obtain ⟨pgs,file⟩ := subLeaves sub
    obtain ⟨bpre,split,below,ordSeek⟩ := seekBelow lo h.ordered
    have found := findLeaf lo t.fuel (by simp only [BTree.fuel]; omega) sub h.ordered
    have dropped : hits lo hi (entries bpre) = [] := hitsNone fun e he => by
      obtain ⟨l,hl,hel⟩ := List.mem_flatMap.mp he
      exact .inr (below l hl e.key (List.mem_map_of_mem hel))
    have whole : hits lo hi (entries (blocks a)) =
        hits lo hi (entries (blocks (seek (fun s => decide (s < lo)) a))) := by
      rw [split,entries,List.flatMap_append,hitsAppend]
      simpa [entries] using dropped
    have first : ∃ ls, blocks (seek (fun s => decide (s < lo)) a) = head (seek (fun s => decide (s < lo)) a) :: ls := by
      cases seek (fun s => decide (s < lo)) a <;> exact ⟨_,rfl⟩
    obtain ⟨ls,hls⟩ := first
    have tail : Linked (blocks (seek (fun s => decide (s < lo)) a)) := by
      have := split ▸ h.linked
      clear split whole below dropped
      induction bpre with
      | nil => exact this
      | cons b bpre ih =>
        apply ih
        cases hb : bpre ++ blocks (seek (fun s => decide (s < lo)) a) with
        | nil => trivial
        | cons c rest => rw [List.cons_append,hb] at this; exact this.2
    have mem : ∀ m ∈ blocks (seek (fun s => decide (s < lo)) a), m ∈ blocks a := fun m hm => by
      rw [split]; simp [hm]
    have walk := rangeWalkHits lo hi [] t.fuel (hls ▸ tail)
      (fun m hm => by
        have inA := mem m (hls ▸ hm)
        exact ⟨file m inA,range m.pg (pgs.subset (List.mem_map_of_mem inA))⟩)
      (by rw [← hls]; exact ordSeek.sublist (entriesFlat _))
      (by
        have l1 := congrArg List.length split
        have l2 := pgs.length_le
        rw [hls] at l1
        simp only [List.length_append,List.length_cons,List.length_map] at l1 l2
        simp only [BTree.fuel]; omega)
      (by
        rw [← hls,← whole]
        simpa [hits] using perm.length_eq ▸ cap)
    rw [if_neg empty,found]
    simp only [Option.bind_eq_bind,Option.bind_some,walk,List.nil_append,← hls,← whole]
    rfl

/-- After a clean run from an empty file, every range within the result limit is answered with
exactly the pairs inserted in it, in key order; a lookup is the range of one key. -/
theorem rangeExact (es : List LE) (clean : cleanRun btreeCreate es = true) :
    ∃ t, inserts btreeCreate es = some t ∧
      (∀ lo hi, lo ≤ hi → (es.filter (within lo hi)).length ≤ maxOffsets →
        ∃ found : List LE, found.Perm (es.filter (within lo hi)) ∧ (found.map LE.key).Pairwise (· ≤ ·) ∧
          btreeRange t lo hi = some (found.map LE.off)) ∧
      ∀ k, btreeLookup t k = btreeRange t k k := by
  obtain ⟨t,a,es',run,h,perm⟩ := runHolds createHolds es clean
  refine ⟨t,run,fun lo hi _ cap => ?_,fun k => rfl⟩
  have same : (es'.filter (within lo hi)).Perm (es.filter (within lo hi)) := perm.filter _
  obtain ⟨found,hp,sorted,range⟩ := rangeHolds h lo hi (by rw [same.length_eq]; exact cap)
  exact ⟨found,hp.trans same,sorted,range⟩

theorem rangeExactTwoRows : ∃ t, inserts btreeCreate [⟨7,0⟩,⟨-3,24⟩,⟨7,48⟩] = some t ∧
    ((∀ lo hi, lo ≤ hi → (([⟨7,0⟩,⟨-3,24⟩,⟨7,48⟩] : List LE).filter (within lo hi)).length ≤ maxOffsets →
      ∃ found : List LE, found.Perm (([⟨7,0⟩,⟨-3,24⟩,⟨7,48⟩] : List LE).filter (within lo hi)) ∧
        (found.map LE.key).Pairwise (· ≤ ·) ∧ btreeRange t lo hi = some (found.map LE.off)) ∧
      ∀ k, btreeLookup t k = btreeRange t k k) :=
  rangeExact _ (by decide)

/-- Copies of one pair fill the room of the leaf they all reach. -/
theorem pour (q key off next : Int) (xs ys : List LE) (n : Nat) {t : BTree}
    (reach : ∀ t' : BTree, t'.root = t.root → t'.npages = t.npages → (∀ p, p ≠ q → t'.file p = t.file p) →
      ∀ ents, t'.file q = .leaf ents next → ents.length < leafMax →
        doInsert t'.fuel t' t'.root key off = some (leafIns t' q ents next key off))
    (page : t.file q = .leaf (xs ++ ys) next) (low : ∀ x ∈ xs, x.key ≤ key) (high : ∀ y ∈ ys, key < y.key)
    (room : xs.length + ys.length + n ≤ leafMax) :
    ∃ t', inserts t (List.replicate n ⟨key,off⟩) = some t' ∧
      t'.file q = .leaf (xs ++ List.replicate n ⟨key,off⟩ ++ ys) next ∧ (∀ p, p ≠ q → t'.file p = t.file p) ∧
      t'.root = t.root ∧ t'.npages = t.npages ∧ t'.nkeys = t.nkeys + n := by
  induction n generalizing t xs with
  | zero => exact ⟨t,rfl,by simpa using page,fun _ _ => rfl,rfl,rfl,rfl⟩
  | succ n ih =>
    have pos : posLe ((xs ++ ys).map LE.key) key = xs.length := by
      refine posLeUnique (by simp) ?_ ?_
      · intro k hk
        have hk' : k ∈ xs.map LE.key := by simpa using hk
        obtain ⟨x,hx,rfl⟩ := List.mem_map.mp hk'
        exact low x hx
      · intro s hs
        have hs' : s ∈ ys.map LE.key := by
          rw [List.map_append,List.getElem?_append_right (by simp)] at hs
          exact List.mem_of_getElem? hs
        obtain ⟨y,hy,rfl⟩ := List.mem_map.mp hs'
        exact high y hy
    have small : (xs ++ ys).length < leafMax := by simp; omega
    have put : insertAt xs.length (LE.mk key off) (xs ++ ys) = (xs ++ [⟨key,off⟩]) ++ ys := by simp [insertAt]
    have run : btreeInsert t key off = some {t.wr q (.leaf ((xs ++ [⟨key,off⟩]) ++ ys) next) with
        nkeys := t.nkeys + 1} := by
      rw [btreeInsert,reach t rfl rfl (fun _ _ => rfl) _ page small,leafIns,pos,put,if_pos small]
      rfl
    obtain ⟨t',more,page',frame,root,pages,count⟩ := ih (xs ++ [⟨key,off⟩]) (t := {t.wr q (.leaf ((xs ++ [⟨key,off⟩]) ++ ys) next) with
        nkeys := t.nkeys + 1})
      (fun t' hr hn hf => reach t' hr hn fun p hp => (hf p hp).trans (if_neg hp)) (by simp)
      (fun x hx => by
        rcases List.mem_append.mp hx with h | h
        · exact low x h
        · simp only [List.mem_singleton] at h; rw [h])
      (by simp; omega)
    refine ⟨t',?_,?_,fun p hp => (frame p hp).trans (if_neg hp),root,pages,?_⟩
    · rw [List.replicate_succ,inserts,run]
      exact more
    · rw [page',List.replicate_succ]; simp
    · rw [count]; simp; omega

theorem insertsAppend (t : BTree) (xs ys : List LE) :
    inserts t (xs ++ ys) = (inserts t xs).bind fun t' => inserts t' ys := by
  induction xs generalizing t with
  | nil => rfl
  | cons x xs ih => cases h : btreeInsert t x.key x.off <;> simp [inserts,h,ih]

theorem leafInsHalves (t : BTree) (q key off next : Int) (ents l r : List LE) (e : LE)
    (full : ¬ ents.length < leafMax)
    (tmp : insertAt (posLe (ents.map LE.key) key) ⟨key,off⟩ ents = l ++ e :: r) (half : l.length = 128) :
    leafIns t q ents next key off =
      ((t.allocPg.1.wr q (.leaf l t.npages)).wr t.npages (.leaf (e :: r) next),some ⟨e.key,t.npages⟩) := by
  have mid : (leafMax + 1) / 2 = l.length := half.symm
  simp only [leafIns,tmp,if_neg full,mid,List.take_left,List.drop_left]
  simp [BTree.allocPg]

/-- 256 rows with key 5, 128 with key 4, one with key 6. The last 4 splits the left leaf after its
fours; the fives cut off are promoted under the key 5, go right of the other fives in the parent,
and receive the 6. -/
def lostRun : List LE := List.replicate 255 ⟨5,0⟩ ++ ⟨5,0⟩ :: (List.replicate 127 ⟨4,24⟩ ++ [⟨4,24⟩,⟨6,48⟩])

/-- That run up to the last 4, which files the upper half of the left leaf behind its right
neighbour. -/
def behindRun : List LE := List.replicate 255 ⟨5,0⟩ ++ ⟨5,0⟩ :: (List.replicate 127 ⟨4,24⟩ ++ [⟨4,24⟩])

theorem filedBehind : ∃ t, inserts btreeCreate behindRun = some t ∧ t.root = 3 ∧ t.npages = 5 ∧ t.nkeys = 384 ∧
    t.file 3 = .int [1,2,4] [5,5] ∧ t.file 1 = .leaf (List.replicate 128 ⟨4,24⟩) 4 ∧
    t.file 2 = .leaf (⟨5,0⟩ :: List.replicate 127 ⟨5,0⟩) (-1) ∧
    t.file 4 = .leaf (⟨5,0⟩ :: List.replicate 127 ⟨5,0⟩) 2 := by
  obtain ⟨fives,hfives⟩ : ∃ fives, fives = List.replicate 127 (LE.mk 5 0) := ⟨_,rfl⟩
  obtain ⟨fours,hfours⟩ : ∃ fours, fours = List.replicate 128 (LE.mk 4 24) := ⟨_,rfl⟩
  -- the root leaf fills up with fives
  obtain ⟨t1,run1,leaf1,-,root1,pages1,keys1⟩ := pour 1 5 0 (-1) [] [] 255 (t := btreeCreate)
    (fun t' hr hn hf ents hp room => by
      simp only [BTree.fuel,hr,hn]
      simp [doInsert,BTree.rd,btreeCreate,hp])
    rfl (by simp) (by simp) (by simp [leafMax])
  replace root1 : t1.root = 1 := root1
  replace pages1 : t1.npages = 2 := pages1
  replace keys1 : t1.nkeys = 255 := keys1
  simp only [List.nil_append,List.append_nil] at leaf1
  -- the 256th splits it under a new root
  obtain ⟨t2,run2,root2,pages2,keys2,top2,left2,right2⟩ : ∃ t2, btreeInsert t1 5 0 = some t2 ∧ t2.root = 3 ∧
      t2.npages = 4 ∧ t2.nkeys = 256 ∧ t2.file 3 = .int [1,2] [5] ∧
      t2.file 1 = .leaf (⟨5,0⟩ :: fives) 2 ∧ t2.file 2 = .leaf (⟨5,0⟩ :: fives) (-1) := by
    have step := leafInsHalves t1 1 5 0 (-1) (List.replicate 255 ⟨5,0⟩) (⟨5,0⟩ :: fives) fives ⟨5,0⟩
      (by rw [List.length_replicate]; decide) (by rw [hfives]; decide +kernel)
      (by rw [hfives,List.length_cons,List.length_replicate])
    refine ⟨_,by simp only [btreeInsert,BTree.fuel,doInsert,BTree.rd,root1,leaf1,step]; rfl,?_⟩
    simp [pages1,keys1]
  -- the left leaf fills up with fours and splits after them
  obtain ⟨t3,run3,left3,frame3,root3,pages3,keys3⟩ := pour 1 4 24 2 [] (⟨5,0⟩ :: fives) 127 (t := t2)
    (fun t' hr hn hf ents hp room => by
      have top : t'.file 3 = .int [1,2] [5] := (hf 3 (by decide)).trans top2
      simp only [BTree.fuel,hr,hn,root2,pages2]
      simp [doInsert,BTree.rd,top,posLe,hp,leafIns,room])
    left2 (by simp) (by simp [hfives]) (by simp [hfives,leafMax])
  obtain ⟨full,hfull⟩ : ∃ full, full = List.replicate 127 (LE.mk 4 24) ++ ⟨5,0⟩ :: fives := ⟨_,rfl⟩
  rw [List.nil_append,← hfull] at left3
  rw [root2] at root3
  rw [pages2] at pages3
  rw [keys2] at keys3
  replace top3 := (frame3 3 (by decide)).trans top2
  replace right3 := (frame3 2 (by decide)).trans right2
  -- the upper half goes to page 4, which the parent puts right of page 2
  obtain ⟨t4,run4,root4,pages4,keys4,top4,left4,right4,new4⟩ : ∃ t4, btreeInsert t3 4 24 = some t4 ∧ t4.root = 3 ∧
      t4.npages = 5 ∧ t4.nkeys = 384 ∧ t4.file 3 = .int [1,2,4] [5,5] ∧ t4.file 1 = .leaf fours 4 ∧
      t4.file 2 = .leaf (⟨5,0⟩ :: fives) (-1) ∧ t4.file 4 = .leaf (⟨5,0⟩ :: fives) 2 := by
    have step := leafInsHalves t3 1 4 24 2 full fours fives ⟨5,0⟩
      (by simp only [hfull,hfives,leafMax,List.length_append,List.length_cons,List.length_replicate]; omega)
      (by rw [hfull,hfives,hfours]; decide +kernel)
      (by rw [hfours,List.length_replicate])
    rw [pages3] at step
    refine ⟨_,by simp [btreeInsert,BTree.fuel,doInsert,BTree.rd,root3,pages3,top3,left3,step,intIns,posLe,
      insertAt,intMax]; rfl,?_⟩
    simp [pages3,keys3,right3]
  refine ⟨t4,?_,root4,pages4,keys4,top4,hfours ▸ left4,hfives ▸ right4,hfives ▸ new4⟩
  rw [behindRun,insertsAppend,run1,Option.bind_some,inserts]
  simp only [run2,Option.bind_eq_bind,Option.bind_some,insertsAppend,run3,inserts,run4]

theorem rangeLosesHalf : ∃ t, inserts btreeCreate lostRun = some t ∧
    btreeRange t 5 5 = some (List.replicate 128 0) ∧ (lostRun.filter (within 5 5)).length = 256 ∧
    ¬ ∃ found : List LE, found.Perm (lostRun.filter (within 5 5)) ∧ btreeRange t 5 5 = some (found.map LE.off) := by
  have all : (lostRun.filter (within 5 5)).length = 256 := by decide +kernel
  suffices h : ∃ t, inserts btreeCreate lostRun = some t ∧ btreeRange t 5 5 = some (List.replicate 128 0) by
    obtain ⟨t,run,range⟩ := h
    refine ⟨t,run,range,all,?_⟩
    rintro ⟨found,perm,same⟩
    have len := congrArg List.length (Option.some.inj (range.symm.trans same))
    rw [List.length_map,perm.length_eq,all,List.length_replicate] at len
    omega
  obtain ⟨fives,hfives⟩ : ∃ fives, fives = List.replicate 127 (LE.mk 5 0) := ⟨_,rfl⟩
  obtain ⟨fours,hfours⟩ : ∃ fours, fours = List.replicate 128 (LE.mk 4 24) := ⟨_,rfl⟩
  obtain ⟨t4,run4,root4,pages4,keys4,top4,left4,-,new4⟩ := filedBehind
  rw [← hfours] at left4
  rw [← hfives] at new4
  -- the 6 lands there and hides page 2 from the range
  obtain ⟨t5,run5,root5,pages5,keys5,top5,left5,new5⟩ : ∃ t5, btreeInsert t4 6 48 = some t5 ∧ t5.root = 3 ∧
      t5.npages = 5 ∧ t5.nkeys = 385 ∧ t5.file 3 = .int [1,2,4] [5,5] ∧ t5.file 1 = .leaf fours 4 ∧
      t5.file 4 = .leaf (⟨5,0⟩ :: fives ++ [⟨6,48⟩]) 2 := by
    have room : ¬ leafMax ≤ (LE.mk 5 0 :: fives).length := by simp [hfives,leafMax]
    have put : insertAt (posLe ((LE.mk 5 0 :: fives).map LE.key) 6) (LE.mk 6 48) (⟨5,0⟩ :: fives) =
        ⟨5,0⟩ :: fives ++ [⟨6,48⟩] := by rw [hfives]; decide +kernel
    have step : leafIns t4 4 (⟨5,0⟩ :: fives) 2 6 48 = (t4.wr 4 (.leaf (⟨5,0⟩ :: fives ++ [⟨6,48⟩]) 2),none) := by
      rw [leafIns,put,if_pos (Nat.lt_of_not_le room)]
    refine ⟨{t4.wr 4 (.leaf (⟨5,0⟩ :: fives ++ [⟨6,48⟩]) 2) with nkeys := t4.nkeys + 1},?_,?_⟩
    · simp [btreeInsert,BTree.fuel,doInsert,BTree.rd,root4,pages4,top4,new4,step,posLe]
    · simp [root4,pages4,keys4,top4,left4]
  refine ⟨t5,?_,?_⟩
  · rw [show lostRun = behindRun ++ [⟨6,48⟩] by simp [lostRun,behindRun,-List.reduceReplicate],insertsAppend,run4]
    simp only [Option.bind_some,inserts,run5,Option.bind_eq_bind]
  · have skip : rangeLeaf 5 5 fours [] = ([],false) := by rw [hfours]; decide +kernel
    have take : rangeLeaf 5 5 (⟨5,0⟩ :: fives ++ [⟨6,48⟩]) [] = (List.replicate 128 0,true) := by
      rw [hfives]; decide +kernel
    simp only [btreeRange,keys5,BTree.fuel,pages5,root5]
    rw [List.cons_append] at take new5
    simp [findLeafGe,BTree.rd,top5,posLt,left5,rangeWalk,pages5,new5,skip,take,maxOffsets,-List.reduceReplicate]

end Napastak.Btree
