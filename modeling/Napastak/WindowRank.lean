import Napastak.Lib.Ranks
import Napastak.OrderBy

/-! ROW_NUMBER, RANK and DENSE_RANK as `apply_windows` computes them, and the ranks that were asked for. -/
namespace Napastak.WindowRank
open Query Access Grouping Project OrderBy InsertSort

/-- A row as a window sees it: its values of PARTITION BY and of ORDER BY. -/
structure WinRow (F : Type) where
  part : List (Val F)
  ord : List (Val F)
  deriving DecidableEq

/-- A row and its place in the result set. -/
abbrev Numbered (F : Type) := WinRow F × Nat

inductive RankFn
  | rowNumber | rank | denseRank
  deriving DecidableEq, Repr

section
variable {F : Type} [Doubles F]

def winRow (env : Env F (Node F)) (partitionBy : List (SqlExpr F)) (orderBy : List (OrderItem F)) (ctx : JoinCtx) : WinRow F :=
  ⟨partitionBy.map (evalVal env (some ctx)),orderBy.map fun o => evalVal env (some ctx) o.expr⟩

def partFrom (kbuf : Bytes) (first : Bool) : List (Val F) → Bytes
  | [] => kbuf
  | v :: vs => partFrom (kbufCat (if first then kbuf else kbufCat kbuf [1]) (valStr v)) false vs

/-- The texts of PARTITION BY with `0x01` between them, in `kbuf[4096]`. -/
def partKey (row : WinRow F) : Bytes := partFrom [] true row.part

def ordKeys (row : WinRow F) : List Bytes := row.ord.map valStr

/-- `win_ord_cmp` on two rows. -/
def winOrdCmp (orderBy : List (OrderItem F)) (a b : WinRow F) : Int := ordCmp orderBy (ordKeys a) (ordKeys b)

def winCmp (orderBy : List (OrderItem F)) (a b : WinRow F) : Int :=
  let c := strcmp (partKey a) (partKey b)
  if c = 0 ∧ 0 < orderBy.length then winOrdCmp orderBy a b else c

def sortedRows (orderBy : List (OrderItem F)) (rows : List (WinRow F)) : List (Numbered F) :=
  sort (fun e x => decide (0 < winCmp orderBy e.1 x.1)) rows.zipIdx

/-- The texts that the walk compares, one for each item of ORDER BY. -/
def keyTexts (norder : Nat) (row : Numbered F) : List Bytes := (List.range norder).map fun k => (ordKeys row.1).getD k []

def runValues (fn : RankFn) (norder : Nat) (run : List (Numbered F)) : List (Numbered F × Nat) :=
  match fn with
  | .rowNumber => Ranks.numbers run
  | .rank => Ranks.ranks (fun _ pi => pi + 1) (keyTexts norder) run
  | .denseRank => Ranks.ranks (fun dr _ => dr + 1) (keyTexts norder) run

/-- The value that each row is given. -/
def winValues (fn : RankFn) (orderBy : List (OrderItem F)) (rows : List (WinRow F)) : List (Numbered F × Nat) :=
  (Ranks.runs (fun row : Numbered F => partKey row.1) (sortedRows orderBy rows)).flatMap (runValues fn orderBy.length)

/-! ### The ranks that were asked for -/

/-- NULL is none. -/
def known (v : Val F) : Option Bytes := if v.isNull then none else some (valStr v)

/-- What rows of one partition share. -/
def partition_ (row : WinRow F) : List (Option Bytes) := row.part.map known

def members (rows : List (WinRow F)) (x : WinRow F) : List (Numbered F) :=
  rows.zipIdx.filter fun e => partition_ e.1 = partition_ x

/-- The rows of the partition that sort strictly before. -/
def before (orderBy : List (OrderItem F)) (rows : List (WinRow F)) (x : WinRow F) : List (Numbered F) :=
  (members rows x).filter fun e => winOrdCmp orderBy e.1 x < 0

structure Ranked (orderBy : List (OrderItem F)) (rows : List (WinRow F)) : Prop where
  each : ∀ fn, ((winValues fn orderBy rows).map Prod.fst).Perm rows.zipIdx
  rank : ∀ p ∈ winValues .rank orderBy rows, p.2 = 1 + (before orderBy rows p.1.1).length
  denseRank : ∀ p ∈ winValues .denseRank orderBy rows,
    p.2 = 1 + ((before orderBy rows p.1.1).map (keyTexts orderBy.length)).toFinset.card
  number : ∀ x ∈ rows, Set.BijOn Prod.snd {p | p ∈ winValues .rowNumber orderBy rows ∧ partition_ p.1.1 = partition_ x}
    (Set.Icc 1 (members rows x).length)
  follows : ∀ p ∈ winValues .rowNumber orderBy rows, ∀ q ∈ winValues .rowNumber orderBy rows,
    partition_ p.1.1 = partition_ q.1.1 → winOrdCmp orderBy p.1.1 q.1.1 < 0 → p.2 < q.2
  peers : ∀ p ∈ winValues .rank orderBy rows, ∀ q ∈ winValues .rank orderBy rows,
    partition_ p.1.1 = partition_ q.1.1 → (p.2 = q.2 ↔ winOrdCmp orderBy p.1.1 q.1.1 = 0)

/-- One partition key for one partition, and in a partition one order whose equals have one text. -/
structure Apart (orderBy : List (OrderItem F)) (rows : List (WinRow F)) : Prop where
  keys : ∀ a ∈ rows, ∀ b ∈ rows, partKey a = partKey b → partition_ a = partition_ b
  texts : ∀ a ∈ rows, ∀ b ∈ rows, partition_ a = partition_ b → winOrdCmp orderBy a b = 0 →
    ∀ k < orderBy.length, (ordKeys a).getD k [] = (ordKeys b).getD k []
  trans : ∀ a ∈ rows, ∀ b ∈ rows, ∀ c ∈ rows, partition_ a = partition_ b → partition_ b = partition_ c →
    winOrdCmp orderBy a b ≤ 0 → winOrdCmp orderBy b c ≤ 0 → winOrdCmp orderBy a c ≤ 0

/-! ### Comparisons -/

theorem keyCmpSign (ieee : ValOrder.Ieee F) (o : OrderItem F) (s t : Bytes) : (keyCmp o s t).sign = -(keyCmp o t s).sign := by
  have flip : ∀ c d : Int, c.sign = -d.sign → (if o.desc then -c else c).sign = -(if o.desc then -d else d).sign := by
    intro c d is
    split <;> simp [is]
  rw [keyCmp,keyCmp]
  refine flip _ _ ?_
  cases (pnum (some s) : Option F) <;> cases (pnum (some t) : Option F) <;> dsimp only
  case some.some x y => rw [ValOrder.numCmpFlip ieee y x,Int.sign_neg]
  all_goals rw [strcmpFlip s t,Int.sign_neg,Int.neg_neg]

theorem winOrdCmpOver (ieee : ValOrder.Ieee F) (orderBy : List (OrderItem F)) (a b : WinRow F) :
    winOrdCmp orderBy a b < 0 ↔ 0 < winOrdCmp orderBy b a := by
  have flip : (winOrdCmp orderBy a b).sign = -(winOrdCmp orderBy b a).sign :=
    lexFlip (keyCmpSign ieee) orderBy (ordKeys a) (ordKeys b)
  rw [← Int.sign_eq_one_iff_pos,← Int.sign_eq_neg_one_iff_neg]
  omega

theorem winOrdCmpSelf (ieee : ValOrder.Ieee F) (orderBy : List (OrderItem F)) (a : WinRow F) : winOrdCmp orderBy a a = 0 :=
  lexSelf (keyCmpSelf ieee) orderBy (ordKeys a)

omit [Doubles F] in
theorem lexCongr {κ α : Type} {cmp : κ → α → α → Int} {dflt : α} {keys : List κ} {as as' bs : List α}
    (same : ∀ k < keys.length, as.getD k dflt = as'.getD k dflt) : lexCmp cmp dflt keys as bs = lexCmp cmp dflt keys as' bs := by
  have head (l : List α) : l.headD dflt = l.getD 0 dflt := by cases l <;> rfl
  have tail (l : List α) (k : Nat) : l.tail.getD k dflt = l.getD (k + 1) dflt := by cases l <;> rfl
  induction keys generalizing as as' bs with
  | nil => rfl
  | cons k keys ih =>
    rw [lexCmp,lexCmp,head as,head as',same 0 (Nat.succ_pos _),ih fun k lt => ?_]
    rw [tail,tail,same (k + 1) (Nat.succ_lt_succ lt)]

theorem keyTextsIff {norder : Nat} {a b : Numbered F} :
    keyTexts norder a = keyTexts norder b ↔ ∀ k < norder, (ordKeys a.1).getD k [] = (ordKeys b.1).getD k [] := by
  rw [keyTexts,keyTexts,List.map_inj_left]
  exact forall_congr' fun k => by rw [List.mem_range]

theorem keyTextsZero (ieee : ValOrder.Ieee F) {orderBy : List (OrderItem F)} {a b : Numbered F}
    (same : keyTexts orderBy.length a = keyTexts orderBy.length b) : winOrdCmp orderBy a.1 b.1 = 0 := by
  have texts : ∀ k < orderBy.length, (ordKeys a.1).getD k [] = (ordKeys b.1).getD k [] := keyTextsIff.1 same
  rw [winOrdCmp,ordCmp,lexCongr texts]
  exact winOrdCmpSelf ieee orderBy b.1

theorem knownText (v : Val F) : valStr v = (known v).getD [] := by
  rw [known]
  cases null : v.isNull <;> simp [valStr,null]

theorem partFromKnown {vs ws : List (Val F)} (same : vs.map known = ws.map known) (kbuf : Bytes) (first : Bool) :
    partFrom kbuf first vs = partFrom kbuf first ws := by
  induction vs generalizing ws kbuf first with
  | nil =>
    cases ws with
    | nil => rfl
    | cons w ws => cases same
  | cons v vs ih =>
    cases ws with
    | nil => cases same
    | cons w ws =>
      obtain ⟨own,rest_⟩ := List.cons.inj same
      rw [partFrom,partFrom,knownText v,own,← knownText w,ih rest_]

theorem partitionKey {a b : WinRow F} (same : partition_ a = partition_ b) : partKey a = partKey b :=
  partFromKnown same [] true

/-! ### The sorted rows -/

theorem strcmpAntisymm (s t : Bytes) (le : strcmp s t ≤ 0) (ge : strcmp t s ≤ 0) : s = t := by
  rw [strcmpFlip s t] at ge
  exact strcmpZero (by omega)

theorem winCmpIs (orderBy : List (OrderItem F)) (a b : WinRow F) :
    winCmp orderBy a b = if partKey a = partKey b then winOrdCmp orderBy a b else strcmp (partKey a) (partKey b) := by
  rw [winCmp]
  by_cases same : partKey a = partKey b
  · rw [if_pos same,same,strcmpSelf]
    cases orderBy with
    | nil => rfl
    | cons o orderBy => exact if_pos ⟨rfl,Nat.succ_pos _⟩
  · rw [if_neg same]
    exact if_neg fun zero => same (strcmpZero zero.1)

theorem sortedPerm (orderBy : List (OrderItem F)) (rows : List (WinRow F)) : (sortedRows orderBy rows).Perm rows.zipIdx :=
  sortPerm _ _

theorem keysSorted (orderBy : List (OrderItem F)) (rows : List (WinRow F)) :
    (sortedRows orderBy rows).Pairwise fun a b => strcmp (partKey a.1) (partKey b.1) ≤ 0 := by
  refine sortWeak _ (fun a _ b _ c _ first second => ValOrder.strcmpLeTrans first second) (fun e _ x _ greater => ?_)
    fun e _ x _ notGreater => ?_
  · have greater := of_decide_eq_true greater
    rw [winCmpIs] at greater
    rw [strcmpFlip (partKey e.1)]
    split at greater
    · rename_i same
      rw [same,strcmpSelf]
      exact le_refl _
    · omega
  · have le := of_decide_eq_false notGreater
    rw [winCmpIs] at le
    split at le
    · rename_i same
      rw [same,strcmpSelf]
    · omega

/-- The rows of one partition key, in their order. -/
def run (orderBy : List (OrderItem F)) (rows : List (WinRow F)) (key : Bytes) : List (Numbered F) :=
  (sortedRows orderBy rows).filter fun y => partKey y.1 = key

theorem memRun {orderBy : List (OrderItem F)} {rows : List (WinRow F)} {key : Bytes} {x : Numbered F} :
    x ∈ run orderBy rows key ↔ x ∈ rows.zipIdx ∧ partKey x.1 = key := by
  rw [run,List.mem_filter,(sortedPerm orderBy rows).mem_iff,decide_eq_true_iff]

theorem runValuesFst (fn : RankFn) (norder : Nat) (l : List (Numbered F)) : (runValues fn norder l).map Prod.fst = l := by
  cases fn with
  | rowNumber => exact Ranks.numbersFst l
  | rank | denseRank => exact Ranks.ranksFst _ _ l

theorem memValues {fn : RankFn} {orderBy : List (OrderItem F)} {rows : List (WinRow F)} {p : Numbered F × Nat} :
    p ∈ winValues fn orderBy rows ↔ p ∈ runValues fn orderBy.length (run orderBy rows (partKey p.1.1)) := by
  have sorted := keysSorted orderBy rows
  rw [winValues,List.mem_flatMap]
  constructor
  · rintro ⟨l,runIn,mem⟩
    have inside : p.1 ∈ l := by
      rw [← runValuesFst fn orderBy.length l]
      exact List.mem_map_of_mem mem
    rw [Ranks.runFilter (fun row : Numbered F => partKey row.1) strcmpAntisymm sorted runIn inside] at mem
    exact mem
  · intro mem
    have inside : p.1 ∈ run orderBy rows (partKey p.1.1) := by
      rw [← runValuesFst fn orderBy.length (run orderBy rows (partKey p.1.1))]
      exact List.mem_map_of_mem mem
    exact ⟨_,Ranks.runOf (fun row : Numbered F => partKey row.1) strcmpAntisymm sorted (List.mem_filter.1 inside).1,mem⟩

theorem valuesEach (fn : RankFn) (orderBy : List (OrderItem F)) (rows : List (WinRow F)) :
    ((winValues fn orderBy rows).map Prod.fst).Perm rows.zipIdx := by
  have all : (winValues fn orderBy rows).map Prod.fst = sortedRows orderBy rows := by
    rw [winValues,List.map_flatMap]
    simp only [runValuesFst]
    rw [List.flatMap_id']
    exact List.flatten_splitBy _ _
  rw [all]
  exact sortedPerm orderBy rows

omit [Doubles F] in
theorem memZip {rows : List (WinRow F)} {x : WinRow F} (mem : x ∈ rows) : ∃ i, (x,i) ∈ rows.zipIdx := by
  rw [← List.zipIdx_map_fst 0 rows] at mem
  obtain ⟨⟨y,i⟩,inside,rfl⟩ := List.mem_map.1 mem
  exact ⟨i,inside⟩

omit [Doubles F] in
theorem zipMem {rows : List (WinRow F)} {x : Numbered F} (mem : x ∈ rows.zipIdx) : x.1 ∈ rows := by
  rw [← List.zipIdx_map_fst 0 rows]
  exact List.mem_map_of_mem mem

/-! ### One order in each partition -/

section
variable {orderBy : List (OrderItem F)} {rows : List (WinRow F)}

theorem rowsSorted (ieee : ValOrder.Ieee F) (apart : Apart orderBy rows) :
    (sortedRows orderBy rows).Pairwise fun a b => partKey a.1 = partKey b.1 → winOrdCmp orderBy a.1 b.1 ≤ 0 := by
  let le (a b : Numbered F) : Prop :=
    strcmp (partKey a.1) (partKey b.1) < 0 ∨ partKey a.1 = partKey b.1 ∧ winOrdCmp orderBy a.1 b.1 ≤ 0
  have sorted : (sortedRows orderBy rows).Pairwise le := by
    refine sortWeak _ (fun a ha b hb c hc first second => ?_) (fun e _ x _ greater => ?_) fun e _ x _ notGreater => ?_
    · rcases first with less | ⟨same,ab⟩ <;> rcases second with less' | ⟨same',bc⟩
      · exact .inl (strcmpTrans less less')
      · exact .inl (same' ▸ less)
      · exact .inl (same ▸ less')
      · have ha := zipMem ha
        have hb := zipMem hb
        have hc := zipMem hc
        exact .inr ⟨same.trans same',apart.trans _ ha _ hb _ hc (apart.keys _ ha _ hb same) (apart.keys _ hb _ hc same') ab bc⟩
    · have greater := of_decide_eq_true greater
      rw [winCmpIs] at greater
      split at greater
      · rename_i same
        exact .inr ⟨same.symm,Int.le_of_lt ((winOrdCmpOver ieee orderBy x.1 e.1).2 greater)⟩
      · refine .inl ?_
        rw [strcmpFlip (partKey e.1)]
        omega
    · have le := of_decide_eq_false notGreater
      rw [winCmpIs] at le
      split at le
      · rename_i same
        exact .inr ⟨same,by omega⟩
      · rename_i differ
        have nonzero : strcmp (partKey e.1) (partKey x.1) ≠ 0 := fun zero => differ (strcmpZero zero)
        refine .inl ?_
        omega
  exact sorted.imp fun both same => by
    rcases both with less | ⟨-,ordered⟩
    · rw [same,strcmpSelf] at less
      omega
    · exact ordered

theorem runOrdered (ieee : ValOrder.Ieee F) (apart : Apart orderBy rows) (key : Bytes) :
    Ranks.Ordered (fun e x : Numbered F => winOrdCmp orderBy e.1 x.1 < 0) (keyTexts orderBy.length) (run orderBy rows key) where
  irrefl a _ less := by
    rw [winOrdCmpSelf ieee] at less
    exact Int.lt_irrefl 0 less
  trans a ha b hb c hc first second := by
    obtain ⟨ha,keyA⟩ := memRun.1 ha
    obtain ⟨hb,keyB⟩ := memRun.1 hb
    obtain ⟨hc,keyC⟩ := memRun.1 hc
    have through {p q r : Numbered F} (hp : p ∈ rows.zipIdx) (hq : q ∈ rows.zipIdx) (hr : r ∈ rows.zipIdx)
        (pq : partKey p.1 = partKey q.1) (qr : partKey q.1 = partKey r.1) :=
      apart.trans _ (zipMem hp) _ (zipMem hq) _ (zipMem hr) (apart.keys _ (zipMem hp) _ (zipMem hq) pq)
        (apart.keys _ (zipMem hq) _ (zipMem hr) qr)
    have flip := winOrdCmpOver ieee orderBy a.1 b.1
    have flip' := winOrdCmpOver ieee orderBy c.1 b.1
    have flip'' := winOrdCmpOver ieee orderBy a.1 c.1
    by_contra notLess
    -- otherwise `b` would not be behind `a`
    have ba := through hb hc ha (keyB.trans keyC.symm) (keyC.trans keyA.symm) (by omega) (by omega)
    omega
  apart := by
    have sorted : (run orderBy rows key).Pairwise fun a b => partKey a.1 = partKey b.1 → winOrdCmp orderBy a.1 b.1 ≤ 0 :=
      (rowsSorted ieee apart).filter _
    refine sorted.imp_of_mem fun {a b} ha hb le => ?_
    obtain ⟨ha,keyA⟩ := memRun.1 ha
    obtain ⟨hb,keyB⟩ := memRun.1 hb
    have same := keyA.trans keyB.symm
    have le := le same
    have flip := winOrdCmpOver ieee orderBy b.1 a.1
    have texts := apart.texts _ (zipMem ha) _ (zipMem hb) (apart.keys _ (zipMem ha) _ (zipMem hb) same)
    have zero : winOrdCmp orderBy a.1 b.1 = 0 ↔ keyTexts orderBy.length a = keyTexts orderBy.length b :=
      ⟨fun zero => keyTextsIff.2 (texts zero),keyTextsZero ieee⟩
    rw [Ne,← zero]
    omega

theorem runMembers (keys : ∀ a ∈ rows, ∀ b ∈ rows, partKey a = partKey b → partition_ a = partition_ b) {x : WinRow F}
    (mem : x ∈ rows) : (run orderBy rows (partKey x)).Perm (members rows x) := by
  have filters : members rows x = rows.zipIdx.filter fun y => partKey y.1 = partKey x :=
    List.filter_congr fun y inside => decide_eq_decide.2 ⟨partitionKey,keys y.1 (zipMem inside) x mem⟩
  rw [filters,run]
  exact (sortedPerm orderBy rows).filter _

theorem aheadBefore (keys : ∀ a ∈ rows, ∀ b ∈ rows, partKey a = partKey b → partition_ a = partition_ b) {x : Numbered F}
    (mem : x.1 ∈ rows) :
    (Ranks.ahead (fun e x : Numbered F => winOrdCmp orderBy e.1 x.1 < 0) (run orderBy rows (partKey x.1)) x).Perm
      (before orderBy rows x.1) := (runMembers keys mem).filter _

theorem valueRow {fn : RankFn} {p : Numbered F × Nat} (mem : p ∈ winValues fn orderBy rows) : p.1.1 ∈ rows :=
  zipMem ((valuesEach fn orderBy rows).mem_iff.1 (List.mem_map_of_mem mem))

theorem runNumbers (keys : ∀ a ∈ rows, ∀ b ∈ rows, partKey a = partKey b → partition_ a = partition_ b) {x : WinRow F}
    (xIn : x ∈ rows) (p : Numbered F × Nat) :
    p ∈ winValues .rowNumber orderBy rows ∧ partition_ p.1.1 = partition_ x ↔
      p ∈ Ranks.numbers (run orderBy rows (partKey x)) := by
  constructor
  · rintro ⟨mem,same⟩
    have mem := memValues.1 mem
    rwa [partitionKey same] at mem
  · intro mem
    have inside : p.1 ∈ run orderBy rows (partKey x) := by
      rw [← Ranks.numbersFst (run orderBy rows (partKey x))]
      exact List.mem_map_of_mem mem
    obtain ⟨pIn,key⟩ := memRun.1 inside
    exact ⟨memValues.2 (key ▸ mem),keys _ (zipMem pIn) _ xIn key⟩

/-- Equal ranks have equal texts. -/
theorem rankTexts {p q : Numbered F × Nat} (mem : p ∈ winValues .rank orderBy rows) (mem' : q ∈ winValues .rank orderBy rows)
    (key : partKey p.1.1 = partKey q.1.1) (same : p.2 = q.2) : keyTexts orderBy.length p.1 = keyTexts orderBy.length q.1 := by
  have grow := Ranks.ranksGrow (keyTexts orderBy.length) (run orderBy rows (partKey p.1.1))
  have symm : Std.Symm fun p q : Numbered F × Nat => p.2 = q.2 → keyTexts orderBy.length p.1 = keyTexts orderBy.length q.1 :=
    ⟨fun _ _ texts same => (texts same.symm).symm⟩
  have texts := List.Pairwise.forall_of_forall (fun _ _ _ => rfl) (grow.imp fun both => both.2)
  exact texts (memValues.1 mem) (key ▸ memValues.1 mem') same

theorem rankedOfApart (ieee : ValOrder.Ieee F) (apart : Apart orderBy rows) : Ranked orderBy rows where
  each fn := valuesEach fn orderBy rows
  rank p mem := by
    have value := Ranks.ranksLength (runOrdered ieee apart _) p (memValues.1 mem)
    rw [value,(aheadBefore apart.keys (valueRow mem)).length_eq]
  denseRank p mem := by
    have value := Ranks.ranksKeys (runOrdered ieee apart _) p (memValues.1 mem)
    rw [value,List.toFinset_eq_of_perm _ _ ((aheadBefore apart.keys (valueRow mem)).map _)]
  number x xIn := by
    have bij := Ranks.numbersBij (run orderBy rows (partKey x))
    rw [(runMembers apart.keys xIn).length_eq] at bij
    have same : {p | p ∈ winValues .rowNumber orderBy rows ∧ partition_ p.1.1 = partition_ x} =
        {p | p ∈ Ranks.numbers (run orderBy rows (partKey x))} := Set.ext (runNumbers apart.keys xIn)
    rw [same]
    exact bij
  follows p mem q mem' same less := by
    have ordered := runOrdered ieee apart (partKey p.1.1)
    have qKey := partitionKey same
    obtain ⟨i,at_,is⟩ := Ranks.memNumbers.1 (memValues.1 mem)
    obtain ⟨j,at',js⟩ := Ranks.memNumbers.1 (qKey ▸ memValues.1 mem')
    rcases Nat.lt_trichotomy i j with lt | rfl | gt
    · omega
    · rw [Option.some.inj (at_.symm.trans at'),winOrdCmpSelf ieee] at less
      exact absurd less (Int.lt_irrefl 0)
    · obtain ⟨iLt,iIs⟩ := List.getElem?_eq_some_iff.1 at_
      obtain ⟨jLt,jIs⟩ := List.getElem?_eq_some_iff.1 at'
      have notLess := (List.pairwise_iff_getElem.1 ordered.apart j i jLt iLt gt).1
      rw [iIs,jIs] at notLess
      exact absurd less notLess
  peers p mem q mem' same := by
    have key := partitionKey same
    refine ⟨fun equal => keyTextsZero ieee (rankTexts mem mem' key equal),fun zero => ?_⟩
    have ordered := runOrdered ieee apart (partKey p.1.1)
    have value := Ranks.ranksLength ordered p (memValues.1 mem)
    have value' := Ranks.ranksLength ordered q (key ▸ memValues.1 mem')
    have inside {r : Numbered F × Nat} (mem : r ∈ winValues .rank orderBy rows) (key : partKey p.1.1 = partKey r.1.1) :
        r.1 ∈ run orderBy rows (partKey p.1.1) :=
      memRun.2 ⟨(valuesEach .rank orderBy rows).mem_iff.1 (List.mem_map_of_mem mem),key.symm⟩
    have flip := winOrdCmpOver ieee orderBy q.1.1 p.1.1
    -- as many rows are in front of equals
    have alike : Ranks.ahead (fun e x : Numbered F => winOrdCmp orderBy e.1 x.1 < 0) (run orderBy rows (partKey p.1.1)) p.1 =
        Ranks.ahead (fun e x : Numbered F => winOrdCmp orderBy e.1 x.1 < 0) (run orderBy rows (partKey p.1.1)) q.1 := by
      refine List.filter_congr fun e eIn => decide_eq_decide.2 ⟨fun less => ?_,fun less => ?_⟩
      · exact ordered.trans e eIn _ (inside mem rfl) _ (inside mem' key) less (by omega)
      · exact ordered.trans e eIn _ (inside mem' key) _ (inside mem rfl) less (by omega)
    rw [value,value',alike]

/-! ### What right ranks show -/

theorem rankAt (ranked : Ranked orderBy rows) {x : Numbered F} (mem : x ∈ rows.zipIdx) :
    (x,1 + (before orderBy rows x.1).length) ∈ winValues .rank orderBy rows := by
  obtain ⟨p,inside,rfl⟩ := List.mem_map.1 ((ranked.each .rank).mem_iff.2 mem)
  rw [← ranked.rank p inside]
  exact inside

theorem keysApart (ranked : Ranked orderBy rows) :
    ∀ a ∈ rows, ∀ b ∈ rows, partKey a = partKey b → partition_ a = partition_ b := by
  intro a ha b hb same
  have first {x : WinRow F} (mem : x ∈ rows) : ∃ p, p ∈ winValues .rowNumber orderBy rows ∧ partition_ p.1.1 = partition_ x ∧ p.2 = 1 := by
    obtain ⟨i,inside⟩ := memZip mem
    have some_ : 1 ≤ (members rows x).length :=
      List.length_pos_of_mem (List.mem_filter.2 ⟨inside,decide_eq_true rfl⟩)
    obtain ⟨p,⟨pIn,part⟩,one⟩ := (ranked.number x mem).surjOn ⟨le_refl 1,some_⟩
    exact ⟨p,pIn,part,one⟩
  obtain ⟨p,pIn,partP,oneP⟩ := first ha
  obtain ⟨q,qIn,partQ,oneQ⟩ := first hb
  -- both are the first row of the same run
  have pRun := memValues.1 pIn
  have qRun := memValues.1 qIn
  rw [partitionKey partP] at pRun
  rw [partitionKey partQ,← same] at qRun
  obtain ⟨i,at_,is⟩ := Ranks.memNumbers.1 pRun
  obtain ⟨j,at',js⟩ := Ranks.memNumbers.1 qRun
  obtain rfl : i = j := by omega
  rw [← partP,← partQ,Option.some.inj (at_.symm.trans at')]

theorem runRanks (ranked : Ranked orderBy rows) (key : Bytes) :
    runValues .rank orderBy.length (run orderBy rows key) =
      (run orderBy rows key).map fun x => (x,1 + (before orderBy rows x.1).length) := by
  have fst := runValuesFst .rank orderBy.length (run orderBy rows key)
  have value : ∀ p ∈ runValues .rank orderBy.length (run orderBy rows key), p = (p.1,1 + (before orderBy rows p.1.1).length) := by
    intro p mem
    have inside : p.1 ∈ run orderBy rows key := fst ▸ List.mem_map_of_mem mem
    have pIn : p ∈ winValues .rank orderBy rows := memValues.2 (by rw [(memRun.1 inside).2]; exact mem)
    exact Prod.ext rfl (ranked.rank p pIn)
  calc
    runValues .rank orderBy.length (run orderBy rows key) =
        (runValues .rank orderBy.length (run orderBy rows key)).map fun p => (p.1,1 + (before orderBy rows p.1.1).length) :=
      (List.map_id' _).symm.trans (List.map_congr_left value)
    _ = ((runValues .rank orderBy.length (run orderBy rows key)).map Prod.fst).map fun x =>
        (x,1 + (before orderBy rows x.1).length) := by
      rw [List.map_map]
      rfl
    _ = _ := by rw [fst]

/-- Where the ranks are right, a row in front of another has fewer rows in front. -/
theorem rankLess (ranked : Ranked orderBy rows) {x y : Numbered F} (xIn : x ∈ rows.zipIdx) (yIn : y ∈ rows.zipIdx)
    (same : partition_ x.1 = partition_ y.1) (less : winOrdCmp orderBy x.1 y.1 < 0) :
    (before orderBy rows x.1).length < (before orderBy rows y.1).length := by
  have key := partitionKey same
  have peers := ranked.peers _ (rankAt ranked xIn) _ (rankAt ranked yIn) same
  have differ : (before orderBy rows x.1).length ≠ (before orderBy rows y.1).length := fun equal =>
    absurd (peers.1 (congrArg (1 + ·) equal)) (Int.ne_of_lt less)
  obtain ⟨i,iLt,iIs⟩ := List.getElem_of_mem (memRun.2 ⟨xIn,rfl⟩ : x ∈ run orderBy rows (partKey x.1))
  obtain ⟨j,jLt,jIs⟩ := List.getElem_of_mem (memRun.2 ⟨yIn,key.symm⟩ : y ∈ run orderBy rows (partKey x.1))
  have number {z : Numbered F} {k : Nat} (at_ : (run orderBy rows (partKey x.1))[k]? = some z) (own : partKey z.1 = partKey x.1) :
      (z,k + 1) ∈ winValues .rowNumber orderBy rows := memValues.2 (by rw [own]; exact Ranks.memNumbers.2 ⟨k,at_,rfl⟩)
  have xAt := (List.getElem?_eq_getElem iLt).trans (congrArg some iIs)
  have yAt := (List.getElem?_eq_getElem jLt).trans (congrArg some jIs)
  have follows : i + 1 < j + 1 := ranked.follows _ (number xAt rfl) _ (number yAt key.symm) same less
  have grow := Ranks.ranksGrow (keyTexts orderBy.length) (run orderBy rows (partKey x.1))
  have ranks := runRanks ranked (partKey x.1)
  rw [runValues] at ranks
  rw [ranks,List.pairwise_map] at grow
  have le := (List.pairwise_iff_getElem.1 grow i j iLt jLt (Nat.lt_of_succ_lt_succ follows)).1
  rw [iIs,jIs] at le
  omega

theorem apartOfRanked (ieee : ValOrder.Ieee F) (ranked : Ranked orderBy rows) : Apart orderBy rows where
  keys := keysApart ranked
  texts a ha b hb same zero := by
    obtain ⟨i,aIn⟩ := memZip ha
    obtain ⟨j,bIn⟩ := memZip hb
    have rankA := rankAt ranked aIn
    have rankB := rankAt ranked bIn
    exact keyTextsIff.1 (rankTexts rankA rankB (partitionKey same) ((ranked.peers _ rankA _ rankB same).2 zero))
  trans a ha b hb c hc ab bc leAB leBC := by
    obtain ⟨i,aIn⟩ := memZip ha
    obtain ⟨j,bIn⟩ := memZip hb
    obtain ⟨k,cIn⟩ := memZip hc
    have monotone {x y : Numbered F} (xIn : x ∈ rows.zipIdx) (yIn : y ∈ rows.zipIdx) (same : partition_ x.1 = partition_ y.1)
        (le : winOrdCmp orderBy x.1 y.1 ≤ 0) : (before orderBy rows x.1).length ≤ (before orderBy rows y.1).length := by
      rcases Int.lt_or_eq_of_le le with less | zero
      · exact Nat.le_of_lt (rankLess ranked xIn yIn same less)
      · have := (ranked.peers _ (rankAt ranked xIn) _ (rankAt ranked yIn) same).2 zero
        exact Nat.le_of_eq (Nat.add_left_cancel this)
    have first := monotone aIn bIn ab leAB
    have second := monotone bIn cIn bc leBC
    by_contra over_
    have back := rankLess ranked cIn aIn (ab.trans bc).symm ((winOrdCmpOver ieee orderBy c a).2 (Int.not_le.1 over_))
    omega

end

/-- The ranks are those of the partitions just where no two partitions share a key and, in each partition, the sort's own
comparison is an order whose equals have one text. -/
theorem rankedIff (ieee : ValOrder.Ieee F) (orderBy : List (OrderItem F)) (rows : List (WinRow F)) :
    Ranked orderBy rows ↔ Apart orderBy rows := ⟨apartOfRanked ieee,rankedOfApart ieee⟩

end

/-- Two partitions, the first one with equals. -/
theorem rankedInts : Ranked [(⟨.col none [110],false,true⟩ : OrderItem Int)]
    [⟨[vstrS [97]],[vstrS [57]]⟩,⟨[vstrS [98]],[vstrS [49,48]]⟩,⟨[vstrS [97]],[vstrS [57]]⟩] :=
  (rankedIff ValOrder.ieeeInt _ _).2 ⟨by decide,by decide,by decide⟩

/-- `01` is as large as `1` and has the next rank. -/
theorem rankPeersDiffer : ¬Ranked [(⟨.col none [110],false,true⟩ : OrderItem Int)] [⟨[],[vstrS [49]]⟩,⟨[],[vstrS [48,49]]⟩] := by
  intro ranked
  have value := ranked.rank ((⟨[],[vstrS [48,49]]⟩,1),2) (by decide)
  have none_ : (before [(⟨.col none [110],false,true⟩ : OrderItem Int)] [⟨[],[vstrS [49]]⟩,⟨[],[vstrS [48,49]]⟩]
      ⟨[],[vstrS [48,49]]⟩).length = 0 := by decide
  rw [none_] at value
  cases value

end Napastak.WindowRank
