import Napastak.Grouping
import Mathlib.Data.Multiset.Basic
import Mathlib.Algebra.BigOperators.Ring.Finset

/-! Which rows GROUP BY puts together, and what COUNT(*) counts of them. -/
namespace Napastak.Grouping
open Query Access

section
variable {F : Type} [Doubles F]

/-! ### Keys -/

/-- The texts with `0x1F` between them. -/
def joined (vals : List (Val F)) : Bytes := List.intercalate [31] (vals.map valStr)

theorem kbufTake (a s : Bytes) : kbufCat (a.take 4095) s = (a ++ s).take 4095 := by
  rw [kbufCat,List.take_append,List.length_take]
  congr 2
  omega

theorem keyRest (vals : List (Val F)) (a : Bytes) :
    keyFrom (a.take 4095) false vals = (a ++ vals.flatMap fun v => 31 :: valStr v).take 4095 := by
  induction vals generalizing a with
  | nil => rw [keyFrom,List.flatMap_nil,List.append_nil]
  | cons v vals ih =>
    rw [keyFrom,if_neg Bool.false_ne_true,kbufTake,kbufTake,ih,List.flatMap_cons,List.append_assoc,List.append_assoc]
    rfl

theorem joinedCons (v : Val F) (vals : List (Val F)) : joined (v :: vals) = valStr v ++ vals.flatMap fun v => 31 :: valStr v := by
  induction vals generalizing v with
  | nil => simp [joined,List.intercalate]
  | cons w vals ih =>
    have split : joined (v :: w :: vals) = valStr v ++ ([31] ++ joined (w :: vals)) := by simp [joined,List.intercalate]
    rw [split,ih,List.flatMap_cons]
    rfl

/-- The key is the first 4095 bytes of the joined texts. -/
theorem groupKeyIs (ev : Evaluator F) (sel : AggSelect F) (ctx : JoinCtx) :
    groupKey ev sel ctx = (joined (groupVals ev sel ctx)).take 4095 := by
  rw [groupKey]
  cases groupVals ev sel ctx with
  | nil => rfl
  | cons v vals =>
    have first := kbufTake [] (valStr v)
    rw [keyFrom,if_pos rfl]
    rw [List.take_nil,List.nil_append] at first
    rw [first,keyRest,joinedCons]

/-! ### The run -/

/-- The keys in the order of their first rows. -/
def addKey (ks : List Bytes) (k : Bytes) : List Bytes := if k ∈ ks then ks else ks ++ [k]

def kept (ev : Evaluator F) (sel : AggSelect F) (rows : List JoinCtx) : List JoinCtx := rows.filter fun r => passes ev.row r sel.where_

def keysOf (ev : Evaluator F) (sel : AggSelect F) (rows : List JoinCtx) : List Bytes :=
  ((kept ev sel rows).map (groupKey ev sel)).foldl addKey []

/-- The rows of a group. -/
def rowsOf (ev : Evaluator F) (sel : AggSelect F) (rows : List JoinCtx) (k : Bytes) : List JoinCtx :=
  (kept ev sel rows).filter fun r => groupKey ev sel r = k

/-- A group after its rows. -/
def groupOf (ev : Evaluator F) (sel : AggSelect F) (rows : List JoinCtx) (k : Bytes) : Grp F :=
  (rowsOf ev sel rows k).foldl (fun g r => aggRow ev sel r g) (newGrp sel k)

def groupsAfter (ev : Evaluator F) (sel : AggSelect F) (rows : List JoinCtx) : List (Grp F) :=
  (keysOf ev sel rows).map (groupOf ev sel rows)

theorem addKeyNodup {ks : List Bytes} (nodup : ks.Nodup) (k : Bytes) : (addKey ks k).Nodup := by
  rw [addKey]
  split
  · exact nodup
  · rename_i new
    exact List.nodup_append.mpr ⟨nodup,List.nodup_singleton k,fun a mem b mem' same => new (List.mem_singleton.mp mem' ▸ same ▸ mem)⟩

theorem addKeysNodup (more : List Bytes) {ks : List Bytes} (nodup : ks.Nodup) : (more.foldl addKey ks).Nodup := by
  induction more generalizing ks with
  | nil => exact nodup
  | cons k more ih => exact ih (addKeyNodup nodup k)

theorem memAddKey {ks : List Bytes} {k x : Bytes} : x ∈ addKey ks k ↔ x ∈ ks ∨ x = k := by
  rw [addKey]
  split
  · rename_i old
    exact ⟨.inl,fun or => or.elim id fun same => same ▸ old⟩
  · rw [List.mem_append,List.mem_singleton]

theorem memAddKeys (more : List Bytes) {ks : List Bytes} {x : Bytes} : x ∈ more.foldl addKey ks ↔ x ∈ ks ∨ x ∈ more := by
  induction more generalizing ks with
  | nil => simp
  | cons k more ih => rw [List.foldl_cons,ih,memAddKey,List.mem_cons,or_assoc]

theorem memKeysOf {ev : Evaluator F} {sel : AggSelect F} {rows : List JoinCtx} {k : Bytes} :
    k ∈ keysOf ev sel rows ↔ ∃ r ∈ kept ev sel rows, groupKey ev sel r = k := by
  rw [keysOf,memAddKeys]
  simp

theorem aggRowKey (ev : Evaluator F) (sel : AggSelect F) (ctx : JoinCtx) (g : Grp F) : (aggRow ev sel ctx g).key = g.key := rfl

theorem groupOfKey (ev : Evaluator F) (sel : AggSelect F) (rows : List JoinCtx) (k : Bytes) : (groupOf ev sel rows k).key = k := by
  have folds : ∀ (rs : List JoinCtx) (g : Grp F), (rs.foldl (fun g r => aggRow ev sel r g) g).key = g.key := fun rs => by
    induction rs with
    | nil => exact fun _ => rfl
    | cons r rs ih => exact fun g => ih (aggRow ev sel r g)
  exact folds _ _

theorem keptSnoc (ev : Evaluator F) (sel : AggSelect F) (rows : List JoinCtx) (ctx : JoinCtx) :
    kept ev sel (rows ++ [ctx]) = kept ev sel rows ++ if passes ev.row ctx sel.where_ then [ctx] else [] := by
  rw [kept,List.filter_append]
  congr 1
  cases pass : passes ev.row ctx sel.where_ <;> simp [pass]

theorem findKey (ev : Evaluator F) (sel : AggSelect F) (rows : List JoinCtx) (ks : List Bytes) (k : Bytes) :
    ((ks.map (groupOf ev sel rows)).findIdx? fun g => g.key = k) = if k ∈ ks then some (ks.idxOf k) else none := by
  rw [List.findIdx?_map]
  have same : (fun g : Grp F => decide (g.key = k)) ∘ groupOf ev sel rows = fun x => x == k := by
    funext x
    rw [Function.comp,groupOfKey]
    exact Bool.eq_iff_iff.mpr ⟨fun h => beq_iff_eq.mpr (of_decide_eq_true h),fun h => decide_eq_true (beq_iff_eq.mp h)⟩
  rw [same]
  split
  · rename_i mem
    rw [List.idxOf,List.findIdx?_eq_some_iff_findIdx_eq]
    exact ⟨List.idxOf_lt_length_iff.mpr mem,rfl⟩
  · rename_i out
    rw [List.findIdx?_eq_none_iff]
    exact fun x mem => beq_eq_false_iff_ne.mpr fun same => out (same ▸ mem)

theorem rowsSnoc {ev : Evaluator F} {sel : AggSelect F} {ctx : JoinCtx} (pass : passes ev.row ctx sel.where_ = true) (rows : List JoinCtx)
    (k : Bytes) : rowsOf ev sel (rows ++ [ctx]) k = rowsOf ev sel rows k ++ if groupKey ev sel ctx = k then [ctx] else [] := by
  rw [rowsOf,keptSnoc,if_pos pass,List.filter_append,rowsOf]
  congr 1
  by_cases same : groupKey ev sel ctx = k <;> simp [same]

theorem groupSnoc {ev : Evaluator F} {sel : AggSelect F} {ctx : JoinCtx} (pass : passes ev.row ctx sel.where_ = true) (rows : List JoinCtx)
    (k : Bytes) : groupOf ev sel (rows ++ [ctx]) k =
      if k = groupKey ev sel ctx then aggRow ev sel ctx (groupOf ev sel rows k) else groupOf ev sel rows k := by
  rw [groupOf,rowsSnoc pass,List.foldl_append]
  by_cases same : k = groupKey ev sel ctx
  · rw [if_pos same,if_pos same.symm]
    rfl
  · rw [if_neg same,if_neg (Ne.symm same)]
    rfl

theorem modifyKey {α : Type} (f : Bytes → α) (h : α → α) {ks : List Bytes} (nodup : ks.Nodup) {k : Bytes} (mem : k ∈ ks) :
    (ks.map f).modify (ks.idxOf k) h = ks.map fun x => if x = k then h (f x) else f x := by
  induction ks with
  | nil => cases mem
  | cons x ks ih =>
    obtain ⟨new,rest⟩ := List.nodup_cons.mp nodup
    by_cases same : x = k
    · subst same
      have others : (ks.map fun y => if y = x then h (f y) else f y) = ks.map f :=
        List.map_congr_left fun y mem => if_neg fun same : y = x => new (same ▸ mem)
      rw [List.idxOf_cons_self,List.map_cons,List.map_cons,if_pos rfl,others]
      rfl
    · have mem' : k ∈ ks := (List.mem_cons.mp mem).resolve_left (Ne.symm same)
      rw [List.idxOf_cons_ne _ same,List.map_cons,List.map_cons,if_neg same,← ih rest mem']
      rfl

theorem modifyLast {α : Type} (h : α → α) (x : α) (xs : List α) {n : Nat} (last : n = xs.length) : (xs ++ [x]).modify n h = xs ++ [h x] := by
  subst last
  induction xs with
  | nil => rfl
  | cons y xs ih => exact congrArg (y :: ·) ih

theorem keysSnoc {ev : Evaluator F} {sel : AggSelect F} {ctx : JoinCtx} (pass : passes ev.row ctx sel.where_ = true) (rows : List JoinCtx) :
    keysOf ev sel (rows ++ [ctx]) = addKey (keysOf ev sel rows) (groupKey ev sel ctx) := by
  rw [keysOf,keptSnoc,if_pos pass,List.map_append,List.foldl_append]
  rfl

theorem keysNodup (ev : Evaluator F) (sel : AggSelect F) (rows : List JoinCtx) : (keysOf ev sel rows).Nodup := addKeysNodup _ List.nodup_nil

theorem groupNew {ev : Evaluator F} {sel : AggSelect F} {rows : List JoinCtx} {k : Bytes} (new : k ∉ keysOf ev sel rows) :
    groupOf ev sel rows k = newGrp sel k := by
  have none_ : rowsOf ev sel rows k = [] :=
    List.filter_eq_nil_iff.mpr fun r mem same => new (memKeysOf.mpr ⟨r,mem,of_decide_eq_true same⟩)
  rw [groupOf,none_]
  rfl

theorem collectStep (ev : Evaluator F) (sel : AggSelect F) (rows : List JoinCtx) (ctx : JoinCtx) :
    collectRow ev sel (groupsAfter ev sel rows) ctx = (groupsAfter ev sel (rows ++ [ctx]),
      if passes ev.row ctx sel.where_ then some ((keysOf ev sel (rows ++ [ctx])).idxOf (groupKey ev sel ctx)) else none) := by
  rw [collectRow]
  cases pass : passes ev.row ctx sel.where_ with
  | false =>
    have same : kept ev sel (rows ++ [ctx]) = kept ev sel rows := by simp [keptSnoc,pass]
    rw [if_neg Bool.false_ne_true,if_neg Bool.false_ne_true]
    simp only [groupsAfter,keysOf,same]
    have groups : groupOf ev sel (rows ++ [ctx]) = groupOf ev sel rows := by
      funext k
      rw [groupOf,groupOf,rowsOf,rowsOf,same]
    rw [groups]
  | true =>
    have keys := keysSnoc pass rows
    have groups : groupOf ev sel (rows ++ [ctx]) = _ := funext (groupSnoc pass rows)
    rw [if_pos rfl,if_pos rfl,findOrCreateGrp,groupsAfter,findKey,groupsAfter,keys,groups]
    by_cases old : groupKey ev sel ctx ∈ keysOf ev sel rows
    · rw [if_pos old,addKey,if_pos old]
      dsimp only
      rw [modifyKey _ _ (keysNodup ev sel rows) old]
    · have fresh : (keysOf ev sel rows).map (fun x => if x = groupKey ev sel ctx then aggRow ev sel ctx (groupOf ev sel rows x)
          else groupOf ev sel rows x) = (keysOf ev sel rows).map (groupOf ev sel rows) :=
        List.map_congr_left fun x mem => if_neg fun same : x = groupKey ev sel ctx => old (same ▸ mem)
      rw [if_neg old,addKey,if_neg old,List.map_append,fresh,List.map_singleton,if_pos rfl,groupNew old]
      dsimp only
      rw [List.idxOf_append_of_notMem old]
      rw [modifyLast _ _ _ rfl,List.length_map,List.idxOf_cons_self]
      rfl

/-- All rows: each passing row falls in the group of its key. -/
theorem collectRun (ev : Evaluator F) (sel : AggSelect F) (rows before : List JoinCtx) :
    collectRows ev sel (groupsAfter ev sel before) rows = (groupsAfter ev sel (before ++ rows),
      rows.map fun r => if passes ev.row r sel.where_ then some ((keysOf ev sel (before ++ rows)).idxOf (groupKey ev sel r)) else none) := by
  induction rows generalizing before with
  | nil => simp [collectRows]
  | cons ctx rows ih =>
    rw [collectRows,collectStep]
    dsimp only
    rw [ih,List.append_assoc,List.singleton_append,List.map_cons]
    refine congrArg (Prod.mk _) (congrArg (· :: _) ?_)
    split
    · rename_i pass
      -- a key keeps its place when more rows come
      have mem : groupKey ev sel ctx ∈ keysOf ev sel (before ++ [ctx]) :=
        memKeysOf.mpr ⟨ctx,by rw [keptSnoc,if_pos pass]; exact List.mem_append_right _ (List.mem_singleton_self _),rfl⟩
      have grows : ∀ (more : List Bytes) (ks : List Bytes) (k : Bytes), k ∈ ks → (more.foldl addKey ks).idxOf k = ks.idxOf k := by
        intro more
        induction more with
        | nil => exact fun _ _ _ => rfl
        | cons m more ih =>
          intro ks k mem
          rw [List.foldl_cons,ih _ k (memAddKey.mpr (.inl mem)),addKey]
          split
          · rfl
          · exact List.idxOf_append_of_mem mem
      have whole : keysOf ev sel (before ++ ctx :: rows) =
          ((kept ev sel rows).map (groupKey ev sel)).foldl addKey (keysOf ev sel (before ++ [ctx])) := by
        rw [keysOf,keysOf,← List.foldl_append,← List.map_append,kept,kept,kept,← List.filter_append,List.append_assoc]
        rfl
      rw [whole,grows _ _ _ mem]
    · rfl

theorem collectAll (ev : Evaluator F) (sel : AggSelect F) (rows : List JoinCtx) :
    collectRows ev sel [] rows = (groupsAfter ev sel rows,
      rows.map fun r => if passes ev.row r sel.where_ then some ((keysOf ev sel rows).idxOf (groupKey ev sel r)) else none) :=
  collectRun ev sel rows []

/-! ### Together -/

/-- The same value: both NULL, or neither and the same text. -/
def SameVal (v w : Val F) : Prop := v.isNull = w.isNull ∧ valStr v = valStr w

def SameVals (vs ws : List (Val F)) : Prop := List.Forall₂ SameVal vs ws

/-- Passing rows, and only these, fall in a group; two of them in the same one just when their values are. -/
def Together (ev : Evaluator F) (sel : AggSelect F) (rows : List JoinCtx) : Prop :=
  let places := (collectRows ev sel [] rows).2
  (∀ (i : Nat) (r : JoinCtx), rows[i]? = some r → ∃ p, places[i]? = some p ∧ p.isSome = passes ev.row r sel.where_) ∧
    ∀ (i j : Nat) (r r' : JoinCtx) (p p' : Nat), rows[i]? = some r → rows[j]? = some r' → places[i]? = some (some p) →
      places[j]? = some (some p') → (p = p' ↔ SameVals (groupVals ev sel r) (groupVals ev sel r'))

/-- Passing rows with different values have different texts within 4095 bytes. -/
def KeysApart (ev : Evaluator F) (sel : AggSelect F) (rows : List JoinCtx) : Prop :=
  ∀ r ∈ kept ev sel rows, ∀ r' ∈ kept ev sel rows,
    (joined (groupVals ev sel r)).take 4095 = (joined (groupVals ev sel r')).take 4095 → SameVals (groupVals ev sel r) (groupVals ev sel r')

theorem joinedSame {vs ws : List (Val F)} (same : SameVals vs ws) : joined vs = joined ws := by
  rw [joined,joined]
  congr 1
  induction same with
  | nil => rfl
  | cons own _ ih => rw [List.map_cons,List.map_cons,own.2,ih]

theorem togetherApart (ev : Evaluator F) (sel : AggSelect F) (rows : List JoinCtx) : Together ev sel rows ↔ KeysApart ev sel rows := by
  have place : ∀ {i : Nat} {r : JoinCtx}, rows[i]? = some r → (collectRows ev sel [] rows).2[i]? =
      some (if passes ev.row r sel.where_ then some ((keysOf ev sel rows).idxOf (groupKey ev sel r)) else none) := fun {i r} is => by
    rw [collectAll,List.getElem?_map,is]
    rfl
  have key : ∀ {r : JoinCtx}, r ∈ kept ev sel rows → groupKey ev sel r ∈ keysOf ev sel rows := fun mem => memKeysOf.mpr ⟨_,mem,rfl⟩
  constructor
  · rintro ⟨_,together⟩ r mem r' mem' same
    obtain ⟨inRows,pass⟩ := List.mem_filter.mp mem
    obtain ⟨inRows',pass'⟩ := List.mem_filter.mp mem'
    obtain ⟨i,is⟩ := List.mem_iff_getElem?.mp inRows
    obtain ⟨j,js⟩ := List.mem_iff_getElem?.mp inRows'
    refine (together i j r r' _ _ is js ((place is).trans (congrArg some (if_pos pass))) ((place js).trans (congrArg some (if_pos pass')))).mp ?_
    rw [groupKeyIs,groupKeyIs,same]
  · refine fun apart => ⟨fun i r is => ⟨_,place is,by split <;> simp_all⟩,fun i j r r' p p' is js pIs pIs' => ?_⟩
    rw [place is] at pIs
    rw [place js] at pIs'
    split at pIs
    · split at pIs'
      · rename_i pass pass'
        cases pIs
        cases pIs'
        have mem : r ∈ kept ev sel rows := List.mem_filter.mpr ⟨List.mem_of_getElem? is,pass⟩
        have mem' : r' ∈ kept ev sel rows := List.mem_filter.mpr ⟨List.mem_of_getElem? js,pass'⟩
        rw [List.idxOf_inj (key mem),groupKeyIs,groupKeyIs]
        exact ⟨apart r mem r' mem',fun same => by rw [joinedSame same]⟩
      · cases pIs'
    · cases pIs

/-- Texts without the separator can be told apart. -/
theorem restInjective {vs ws : List (Val F)} (length : vs.length = ws.length) (left : ∀ v ∈ vs, (31 : UInt8) ∉ valStr v)
    (right : ∀ w ∈ ws, (31 : UInt8) ∉ valStr w)
    (same : (vs.flatMap fun v => 31 :: valStr v) = ws.flatMap fun w => 31 :: valStr w) : vs.map valStr = ws.map valStr := by
  have cut : ∀ {t : Bytes} (us : List (Val F)), (31 : UInt8) ∉ t → (t ++ us.flatMap fun u => 31 :: valStr u).takeWhile (· ≠ 31) = t :=
    fun {t} us out => by
      have plain : ∀ c ∈ t, decide (c ≠ 31) = true := fun c mem => decide_eq_true fun same => out (same ▸ mem)
      rw [List.takeWhile_append_of_pos plain]
      cases us <;> simp
  induction vs generalizing ws with
  | nil => rw [List.length_eq_zero_iff.mp length.symm]
  | cons v vs ih =>
    cases ws with
    | nil => cases length
    | cons w ws =>
      rw [List.flatMap_cons,List.flatMap_cons,List.cons_append,List.cons_append] at same
      have body := (List.cons.inj same).2
      have first : valStr v = valStr w := by
        rw [← cut vs (left v List.mem_cons_self),← cut ws (right w List.mem_cons_self),body]
      rw [first] at body
      have rest := ih (Nat.succ.inj length) (fun u mem => left u (List.mem_cons_of_mem _ mem)) (fun u mem => right u (List.mem_cons_of_mem _ mem))
        (List.append_cancel_left body)
      rw [List.map_cons,List.map_cons,first,rest]

/-- The values of the rows have no separator, fit in the buffer, and no column has both NULL and an empty text. -/
structure Ordinary (ev : Evaluator F) (sel : AggSelect F) (rows : List JoinCtx) : Prop where
  noSeparator : ∀ r ∈ kept ev sel rows, ∀ v ∈ groupVals ev sel r, (31 : UInt8) ∉ valStr v
  fits : ∀ r ∈ kept ev sel rows, (joined (groupVals ev sel r)).length ≤ 4095
  oneEmpty : ∀ r ∈ kept ev sel rows, ∀ r' ∈ kept ev sel rows, ∀ e ∈ sel.groupBy,
    valStr (evalVal ev.row (some r) e) = [] → valStr (evalVal ev.row (some r') e) = [] →
      (evalVal ev.row (some r) e).isNull = (evalVal ev.row (some r') e).isNull

theorem ordinaryApart {ev : Evaluator F} {sel : AggSelect F} {rows : List JoinCtx} (ordinary : Ordinary ev sel rows) : KeysApart ev sel rows := by
  intro r mem r' mem' same
  rw [List.take_of_length_le (ordinary.fits r mem),List.take_of_length_le (ordinary.fits r' mem')] at same
  have texts : (groupVals ev sel r).map valStr = (groupVals ev sel r').map valStr := by
    have left := ordinary.noSeparator r mem
    have right := ordinary.noSeparator r' mem'
    have length : (groupVals ev sel r).length = (groupVals ev sel r').length := by rw [groupVals,groupVals,List.length_map,List.length_map]
    refine restInjective length left right ?_
    cases first : groupVals ev sel r with
    | nil =>
      rw [first] at length
      rw [List.length_eq_zero_iff.mp length.symm]
    | cons v vs =>
      cases second : groupVals ev sel r' with
      | nil =>
        rw [first,second] at length
        cases length
      | cons w ws =>
        rw [first,second,joinedCons,joinedCons] at same
        rw [List.flatMap_cons,List.flatMap_cons,List.cons_append,List.cons_append,same]
  rw [SameVals,groupVals,groupVals,List.forall₂_map_left_iff,List.forall₂_map_right_iff,List.forall₂_same]
  rw [groupVals,groupVals,List.map_map,List.map_map] at texts
  intro e inKeys
  have text : valStr (evalVal ev.row (some r) e) = valStr (evalVal ev.row (some r') e) := List.map_inj_left.mp texts e inKeys
  refine ⟨?_,text⟩
  by_cases empty : valStr (evalVal ev.row (some r) e) = []
  · exact ordinary.oneEmpty r mem r' mem' e inKeys empty (text ▸ empty)
  · -- NULL has the empty text
    have solid : ∀ {v : Val F}, valStr v ≠ [] → v.isNull = false := fun {v} some_ => by
      cases null : v.isNull with
      | false => rfl
      | true => exact absurd (by simp [valStr,null]) some_
    rw [solid empty,solid (text ▸ empty)]

/-! ### Counting -/

theorem slotRun (ev : Evaluator F) {sel : AggSelect F} {j : Nat} {f : JoinCtx → Slot F → Slot F}
    (step : ∀ r, (slotSteps ev sel r)[j]? = some (f r)) (rs : List JoinCtx) {g : Grp F} {s : Slot F} (own : g.slots[j]? = some s) :
    (rs.foldl (fun g r => aggRow ev sel r g) g).slots[j]? = some (rs.foldl (fun s r => f r s) s) := by
  induction rs generalizing g s with
  | nil => exact own
  | cons r rs ih =>
    refine ih ?_
    show (List.zipWith (fun f s => f s) (slotSteps ev sel r) g.slots)[j]? = _
    rw [List.getElem?_zipWith,step,own]

theorem newSlot (sel : AggSelect F) {j : Nat} (less : j < sel.items.length + sel.xagg.length) (k : Bytes) :
    (newGrp sel k).slots[j]? = some emptySlot := by
  rw [newGrp,List.getElem?_replicate,if_pos less]

theorem itemSlot (ev : Evaluator F) {sel : AggSelect F} {j : Nat} {item : SqlExpr F} (is : sel.items[j]? = some item) (rs : List JoinCtx)
    (k : Bytes) : (rs.foldl (fun g r => aggRow ev sel r g) (newGrp sel k)).slots[j]? =
      some (rs.foldl (fun s r => slotStep ev r item s) emptySlot) := by
  have less := (List.getElem?_eq_some_iff.mp is).1
  refine slotRun ev (fun r => ?_) rs (newSlot sel (by omega) k)
  rw [slotSteps,List.getElem?_append_left (by rw [List.length_map]; exact less),List.getElem?_map,is]
  rfl

omit [Doubles F] in
theorem plainFirst {item : SqlExpr F} {c : AggCall F} (plain : plainAgg item = some c) : findFirstAgg item = some c := by
  cases item with
  | func name args distinct =>
    rw [plainAgg] at plain
    rw [findFirstAgg]
    split at plain
    · rename_i agg
      rw [if_pos agg]
      exact plain
    · cases plain
  | _ => cases plain

/-- The item is COUNT(*). -/
def CountStar (sel : AggSelect F) (s : Nat) : Prop :=
  ∃ item c, sel.items[s]? = some item ∧ plainAgg item = some c ∧ named c.name "COUNT" = true ∧ c.isStar = true

/-- The value of an item of a group that is COUNT(*). -/
def starCount (g : Grp F) (s : Nat) : Int := (g.slots[s]?.getD emptySlot).cnt.toInt

def Counted (ev : Evaluator F) (sel : AggSelect F) (rows : List JoinCtx) (s : Nat) : Prop :=
  ((collectRows ev sel [] rows).1.map fun g => starCount g s).sum = (kept ev sel rows).length

/-- No `2^31` passing rows have the same first 4095 bytes. -/
def FewEach (ev : Evaluator F) (sel : AggSelect F) (rows : List JoinCtx) : Prop :=
  ∀ r ∈ kept ev sel rows,
    ((kept ev sel rows).filter fun r' => (joined (groupVals ev sel r')).take 4095 = (joined (groupVals ev sel r)).take 4095).length < 2 ^ 31

theorem int32Nat (n : Nat) : (Int32.ofNat n).toInt ≤ n ∧ ((Int32.ofNat n).toInt = n ↔ n < 2 ^ 31) := by
  rw [Int32.toInt_ofNat',Int.bmod]
  have size : Int32.size = 2 ^ 32 := rfl
  rw [size]
  split <;> omega

theorem starSlot (ev : Evaluator F) {item : SqlExpr F} {c : AggCall F} (plain : plainAgg item = some c) (count : named c.name "COUNT" = true)
    (star : c.isStar = true) (rs : List JoinCtx) (s : Slot F) :
    (rs.foldl (fun s r => slotStep ev r item s) s).cnt = s.cnt + Int32.ofNat rs.length := by
  induction rs generalizing s with
  | nil => simp
  | cons r rs ih =>
    have step : slotStep ev r item s = {s with cnt := s.cnt + 1} := by
      rw [slotStep,plainFirst plain]
      dsimp only
      rw [aggAccumulate,if_pos count,if_pos star]
    rw [List.foldl_cons,step,ih,List.length_cons,Int32.ofNat_add,Int32.add_assoc,Int32.add_comm 1]
    rfl

theorem starCountIs (ev : Evaluator F) {sel : AggSelect F} {s : Nat} (star : CountStar sel s) (rows : List JoinCtx) (k : Bytes) :
    starCount (groupOf ev sel rows k) s = (Int32.ofNat (rowsOf ev sel rows k).length).toInt := by
  obtain ⟨item,c,is,plain,count,star⟩ := star
  rw [starCount,groupOf,itemSlot ev is,Option.getD_some,starSlot ev plain count star]
  congr 1
  exact Int32.zero_add _

theorem sumOnce {ks : List Bytes} (nodup : ks.Nodup) {x : Bytes} (mem : x ∈ ks) : (ks.map fun k => if x = k then 1 else 0).sum = 1 := by
  induction ks with
  | nil => cases mem
  | cons k ks ih =>
    obtain ⟨new,rest⟩ := List.nodup_cons.mp nodup
    rw [List.map_cons,List.sum_cons]
    by_cases same : x = k
    · subst same
      have none_ : (ks.map fun k => if x = k then 1 else 0) = ks.map fun _ => 0 :=
        List.map_congr_left fun y mem => if_neg fun same : x = y => new (same ▸ mem)
      rw [if_pos rfl,none_]
      simp
    · rw [if_neg same,ih rest ((List.mem_cons.mp mem).resolve_left same)]

theorem sumRows {α : Type} (key : α → Bytes) {ks : List Bytes} (nodup : ks.Nodup) (xs : List α) (all : ∀ x ∈ xs, key x ∈ ks) :
    (ks.map fun k => (xs.filter fun x => key x = k).length).sum = xs.length := by
  induction xs with
  | nil => simp
  | cons x xs ih =>
    have split : (ks.map fun k => ((x :: xs).filter fun x => key x = k).length) =
        ks.map fun k => (if key x = k then 1 else 0) + (xs.filter fun x => key x = k).length := by
      refine List.map_congr_left fun k _ => ?_
      by_cases same : key x = k <;> simp [same,Nat.add_comm]
    rw [split,List.sum_map_add,sumOnce nodup (all x List.mem_cons_self),ih fun y mem => all y (List.mem_cons_of_mem _ mem),List.length_cons,
      Nat.add_comm]

/-- Sums of smaller numbers are equal just when the numbers are. -/
theorem sumSame {ks : List Bytes} {a b : Bytes → Int} (le : ∀ k, a k ≤ b k) :
    (ks.map a).sum ≤ (ks.map b).sum ∧ ((ks.map a).sum = (ks.map b).sum ↔ ∀ k ∈ ks, a k = b k) := by
  induction ks with
  | nil => simp
  | cons k ks ih =>
    obtain ⟨less,same⟩ := ih
    have own := le k
    rw [List.map_cons,List.map_cons,List.sum_cons,List.sum_cons]
    refine ⟨by omega,fun eq => ?_,fun all => ?_⟩
    · have first : a k = b k := by omega
      have rest := same.mp (by omega)
      exact fun x mem => (List.mem_cons.mp mem).elim (fun e => e ▸ first) (rest x)
    · have rest := same.mpr fun x mem => all x (List.mem_cons_of_mem _ mem)
      have first := all k List.mem_cons_self
      omega

theorem countedFew (ev : Evaluator F) {sel : AggSelect F} {s : Nat} (star : CountStar sel s) (rows : List JoinCtx) :
    Counted ev sel rows s ↔ FewEach ev sel rows := by
  have total := sumRows (groupKey ev sel) (keysNodup ev sel rows) (kept ev sel rows) fun r mem => memKeysOf.mpr ⟨r,mem,rfl⟩
  have cast : ((kept ev sel rows).length : Int) = ((keysOf ev sel rows).map fun k => ((rowsOf ev sel rows k).length : Int)).sum := by
    rw [← total,Nat.cast_list_sum,List.map_map]
    rfl
  have few : FewEach ev sel rows ↔ ∀ k ∈ keysOf ev sel rows, (rowsOf ev sel rows k).length < 2 ^ 31 := by
    simp only [FewEach,← groupKeyIs]
    exact ⟨fun all k mem => by obtain ⟨r,inRows,rfl⟩ := memKeysOf.mp mem; exact all r inRows,
      fun all r mem => all _ (memKeysOf.mpr ⟨r,mem,rfl⟩)⟩
  rw [Counted,collectAll,cast,few,groupsAfter,List.map_map]
  have counts : (fun g => starCount g s) ∘ groupOf ev sel rows = fun k => (Int32.ofNat (rowsOf ev sel rows k).length).toInt :=
    funext fun k => starCountIs ev star rows k
  rw [counts]
  refine (@sumSame (keysOf ev sel rows) _ _ fun k => (int32Nat (rowsOf ev sel rows k).length).1).2.trans ?_
  exact forall₂_congr fun k _ => (int32Nat _).2

/-- Rows fall together just as their values say, and COUNT(*) of the groups sums to the passing rows, exactly then. -/
theorem groupsKept (ev : Evaluator F) (sel : AggSelect F) (rows : List JoinCtx) :
    (Together ev sel rows ↔ KeysApart ev sel rows) ∧ ∀ s, CountStar sel s → (Counted ev sel rows s ↔ FewEach ev sel rows) :=
  ⟨togetherApart ev sel rows,fun _ star => countedFew ev star rows⟩

end

/-! ### One column -/

/-- An evaluator without functions. -/
def plainEvaluator : Evaluator Int :=
  ⟨fun _ => ⟨none,fun _ _ _ _ => vnull,fun _ _ _ => vnull,fun _ => vnull,fun _ _ => vnull⟩,fun a b => a + b,fun a b => a / b,
    fun n => ascii (toString n)⟩

def oneColumn (cell : Bytes) : JoinCtx := [⟨some [ascii "a"],some [some cell],none,none⟩]

/-- `SELECT COUNT(*) ... GROUP BY a`. -/
def countByA : AggSelect Int := ⟨[.func (ascii "COUNT") [.star] false],none,[.col none (ascii "a")],none,[]⟩

theorem twoGroups : Together plainEvaluator countByA [oneColumn [120],oneColumn [121],oneColumn [120]] ∧
    Counted plainEvaluator countByA [oneColumn [120],oneColumn [121],oneColumn [120]] 0 := by
  obtain ⟨together,counted⟩ := groupsKept plainEvaluator countByA [oneColumn [120],oneColumn [121],oneColumn [120]]
  refine ⟨together.mpr (ordinaryApart ⟨by decide,by decide,by decide⟩),(counted 0 ⟨_,_,rfl,rfl,rfl,rfl⟩).mpr fun r _ => ?_⟩
  exact Nat.lt_of_le_of_lt (List.length_filter_le ..) (by decide)

/-- NULL and the empty text are one group, and so are `a, 0x1F, b` with `c` and `a` with `b, 0x1F, c`. -/
theorem groupsMix : ¬Together plainEvaluator countByA [oneColumn nullSentinel,oneColumn []] ∧
    joined [(vstrS [97,31,98] : Val Int),vstrS [99]] = joined [(vstrS [97] : Val Int),vstrS [98,31,99]] := by
  refine ⟨fun together => ?_,by decide⟩
  have apart := (togetherApart plainEvaluator countByA [oneColumn nullSentinel,oneColumn []]).mp together
  have same := apart (oneColumn nullSentinel) (List.mem_filter.mpr ⟨List.mem_cons_self,rfl⟩) (oneColumn [])
    (List.mem_filter.mpr ⟨List.mem_cons_of_mem _ List.mem_cons_self,rfl⟩) (by decide)
  cases same with
  | cons own _ => exact absurd own.1 (by decide)

end Napastak.Grouping
