import Napastak.Exec
import Mathlib.Data.List.Perm.Basic
import Mathlib.Data.List.Flatten

/-! The rows of `join_recurse` against the joins of FROM one after the other, from the left. -/
namespace Napastak.LeftDeep
open Query Access

def keepsLeft (j : JoinType) : Bool := j = .left ∨ j = .full

def keepsRight (j : JoinType) : Bool := j = .right ∨ j = .full

def nulls (tables : List TblData) : JoinCtx := tables.map fun t => t.joined none

def firstRows (t : TblData) : List JoinCtx := t.rows.map fun row => [t.joined (some row)]

section
variable {F : Type} [Doubles F] (env : Env F (Node F))

/-- What ON lets stand behind `l`. -/
def hits (l : JoinCtx) (t : TblData × FromItem F) : List JoinCtx :=
  (t.1.rows.filter fun row => passes env (l ++ [t.1.joined (some row)]) t.2.on).map fun row => l ++ [t.1.joined (some row)]

/-- What one join makes of a row of its left side. -/
def extend (l : JoinCtx) (t : TblData × FromItem F) : List JoinCtx :=
  if (hits env l t).isEmpty && keepsLeft t.2.joinType then [l ++ [t.1.joined none]] else hits env l t

/-- The rows of the right side that no row of the left side finds. -/
def leftOver (L : List JoinCtx) (t : TblData × FromItem F) : List (List Cell) :=
  t.1.rows.filter fun row => !L.any fun l => passes env (l ++ [t.1.joined (some row)]) t.2.on

def keptRight (prev : List TblData) (L : List JoinCtx) (t : TblData × FromItem F) : List JoinCtx :=
  if keepsRight t.2.joinType then (leftOver env L t).map fun row => nulls prev ++ [t.1.joined (some row)] else []

def joinNext (prev : List TblData) (L : List JoinCtx) (t : TblData × FromItem F) : List JoinCtx :=
  L.flatMap (extend env · t) ++ keptRight env prev L t

def joinAll (prev : List TblData) (L : List JoinCtx) : List (TblData × FromItem F) → List JoinCtx
  | [] => L
  | t :: rest => joinAll (prev ++ [t.1]) (joinNext env prev L t) rest

/-- The join that SQL asks for. -/
def leftDeep : List (TblData × FromItem F) → List JoinCtx
  | [] => [[]]
  | t :: rest => joinAll env [t.1] (firstRows t.1) rest

/-- The joins behind leave nothing of `l`. -/
def Dropped (l : JoinCtx) : List (TblData × FromItem F) → Prop
  | [] => False
  | t :: rest => ∀ m ∈ extend env l t, Dropped m rest

/-- The joins behind keep `l` and find no row for it. -/
def Unmatched (l : JoinCtx) : List (TblData × FromItem F) → Prop
  | [] => True
  | t :: rest => keepsLeft t.2.joinType = true ∧ hits env l t = [] ∧ Unmatched (l ++ [t.1.joined none]) rest

/-- From `l` on, a row without a match at LEFT finds none at any later join, and one without a match at FULL is dropped. -/
def Carried (l : JoinCtx) : List (TblData × FromItem F) → Prop
  | [] => True
  | t :: rest => (∀ m ∈ hits env l t, Carried m rest) ∧ (hits env l t = [] →
      (t.2.joinType = .left → Unmatched env (l ++ [t.1.joined none]) rest) ∧
        (t.2.joinType = .full → Dropped env (l ++ [t.1.joined none]) rest))

/-- What comes of `l` in the joins behind. -/
def descend (l : JoinCtx) : List (TblData × FromItem F) → List JoinCtx
  | [] => [l]
  | t :: rest => (extend env l t).flatMap fun m => descend m rest

/-- What comes of the right sides' own rows. -/
def rightOnly (prev : List TblData) (L : List JoinCtx) : List (TblData × FromItem F) → List JoinCtx
  | [] => []
  | t :: rest =>
    (keptRight env prev L t).flatMap (fun u => descend env u rest) ++ rightOnly (prev ++ [t.1]) (joinNext env prev L t) rest

end

/-! ### Lists -/

section
variable {α β : Type}

/-- Parts that show what they came from have their own share of the whole. -/
theorem flatMapPerm (origin : β → α) {f g : α → List β} {l : List α} (left : ∀ a ∈ l, ∀ b ∈ f a, origin b = a)
    (right : ∀ a ∈ l, ∀ b ∈ g a, origin b = a) : (l.flatMap f).Perm (l.flatMap g) ↔ ∀ a ∈ l, (f a).Perm (g a) := by
  classical
  have count {h : α → List β} (own : ∀ a ∈ l, ∀ b ∈ h a, origin b = a) (b : β) :
      (l.flatMap h).count b = l.count (origin b) * (h (origin b)).count b := by
    induction l with
    | nil => simp
    | cons a l ih =>
      rw [List.flatMap_cons,List.count_append,ih (fun a mem => left a (List.mem_cons_of_mem _ mem))
        (fun a mem => right a (List.mem_cons_of_mem _ mem)) fun a mem => own a (List.mem_cons_of_mem _ mem),List.count_cons]
      by_cases same : a = origin b
      · rw [same]
        simp [Nat.add_mul,Nat.add_comm]
      · rw [List.count_eq_zero.2 fun mem => same (own a List.mem_cons_self b mem).symm]
        simp [same]
  constructor
  · intro perm a mem
    refine List.perm_iff_count.2 fun b => ?_
    by_cases own : origin b = a
    · have counts := List.perm_iff_count.1 perm b
      rw [count left,count right,own] at counts
      exact Nat.eq_of_mul_eq_mul_left (List.count_pos_iff.2 mem) counts
    · rw [List.count_eq_zero.2 fun inside => own (left a mem b inside),
        List.count_eq_zero.2 fun inside => own (right a mem b inside)]
  · exact fun same => List.Perm.flatMap_left l same

theorem appendPerm (p : β → Bool) {a b rest_ : List β} (left : ∀ x ∈ a, p x = true) (right : ∀ x ∈ b, p x = true)
    (other : ∀ x ∈ rest_, p x = false) : (a ++ rest_).Perm b ↔ a.Perm b ∧ rest_ = [] := by
  constructor
  · intro perm
    have only := perm.filter p
    rw [List.filter_append,List.filter_eq_self.2 left,List.filter_eq_self.2 right,
      List.filter_eq_nil_iff.2 fun x mem => by simp [other x mem],List.append_nil] at only
    have length := perm.length_eq
    rw [List.length_append,only.length_eq] at length
    exact ⟨only,List.length_eq_zero_iff.1 (by omega)⟩
  · rintro ⟨perm,rfl⟩
    rwa [List.append_nil]

end

/-! ### One row of the left side -/

section
variable {F : Type} [Doubles F] {env : Env F (Node F)}

theorem hitsForm {l m : JoinCtx} {t : TblData × FromItem F} (mem : m ∈ hits env l t) : ∃ row, m = l ++ [t.1.joined (some row)] := by
  obtain ⟨row,-,rfl⟩ := List.mem_map.1 mem
  exact ⟨row,rfl⟩

theorem extendForm {l m : JoinCtx} {t : TblData × FromItem F} (mem : m ∈ extend env l t) : ∃ row, m = l ++ [t.1.joined row] := by
  rw [extend] at mem
  split at mem
  · exact ⟨none,List.mem_singleton.1 mem⟩
  · obtain ⟨row,is⟩ := hitsForm mem
    exact ⟨some row,is⟩

theorem descendPrefix {l m : JoinCtx} {rest : List (TblData × FromItem F)} (mem : m ∈ descend env l rest) : l <+: m := by
  induction rest generalizing l with
  | nil =>
    rw [descend,List.mem_singleton] at mem
    exact mem ▸ List.prefix_rfl
  | cons t rest ih =>
    rw [descend] at mem
    obtain ⟨next,nextIn,inside⟩ := List.mem_flatMap.1 mem
    obtain ⟨row,rfl⟩ := extendForm nextIn
    exact (List.prefix_append l _).trans (ih inside)

theorem recurseCons (l : JoinCtx) (t : TblData × FromItem F) (rest : List (TblData × FromItem F)) :
    joinRecurse env false l (t :: rest) = (hits env l t).flatMap (fun m => joinRecurse env false m rest) ++
      if (hits env l t).isEmpty && t.2.joinType = .left then [l ++ nulls (t.1 :: rest.map (·.1))] else [] := by
  have ends : nulls (t.1 :: rest.map (·.1)) = t.1.joined none :: rest.map fun t => t.1.joined none := by
    rw [nulls,List.map_cons,List.map_map]
    rfl
  rw [joinRecurse,ends]
  simp only [Bool.false_eq_true,if_false,hits,List.flatMap_map,List.isEmpty_map,Bool.and_false]
  split
  · rename_i empty
    obtain ⟨none_,cross⟩ := Bool.and_eq_true_iff.1 empty
    rw [List.isEmpty_iff.1 none_,of_decide_eq_true cross]
    rfl
  · rfl

theorem recursePrefix {l m : JoinCtx} {rest : List (TblData × FromItem F)} (mem : m ∈ joinRecurse env false l rest) : l <+: m := by
  induction rest generalizing l with
  | nil =>
    rw [joinRecurse,List.mem_singleton] at mem
    exact mem ▸ List.prefix_rfl
  | cons t rest ih =>
    rw [recurseCons] at mem
    rcases List.mem_append.1 mem with matched | unmatched
    · obtain ⟨next,nextIn,inside⟩ := List.mem_flatMap.1 matched
      obtain ⟨row,rfl⟩ := hitsForm nextIn
      exact (List.prefix_append l _).trans (ih inside)
    · split at unmatched
      · rw [List.mem_singleton.1 unmatched]
        exact List.prefix_append l _
      · cases unmatched

theorem droppedIff {l : JoinCtx} {rest : List (TblData × FromItem F)} : Dropped env l rest ↔ descend env l rest = [] := by
  induction rest generalizing l with
  | nil => exact iff_of_false id (List.cons_ne_nil l [])
  | cons t rest ih =>
    rw [Dropped,descend,List.flatMap_eq_nil_iff]
    exact forall₂_congr fun m _ => ih

theorem unmatchedIff {l : JoinCtx} {rest : List (TblData × FromItem F)} :
    Unmatched env l rest ↔ descend env l rest = [l ++ nulls (rest.map (·.1))] := by
  induction rest generalizing l with
  | nil => exact iff_of_true trivial (by rw [descend,List.map_nil,nulls,List.map_nil,List.append_nil])
  | cons t rest ih =>
    have ends : l ++ nulls ((t :: rest).map (·.1)) = l ++ [t.1.joined none] ++ nulls (rest.map (·.1)) := by
      rw [List.append_assoc]
      rfl
    rw [Unmatched,descend,ends]
    constructor
    · rintro ⟨keeps,none_,behind⟩
      rw [extend,none_,keeps,List.isEmpty_nil,Bool.true_and,if_pos rfl,List.flatMap_singleton]
      exact ih.1 behind
    · intro is
      have mem : l ++ [t.1.joined none] ++ nulls (rest.map (·.1)) ∈ (extend env l t).flatMap fun m => descend env m rest := by
        rw [is]
        exact List.mem_singleton_self _
      obtain ⟨next,nextIn,inside⟩ := List.mem_flatMap.1 mem
      have none_ : hits env l t = [] := by
        by_contra some_
        rw [extend,List.isEmpty_eq_false_iff.2 some_,Bool.false_and,if_neg Bool.false_ne_true] at nextIn
        obtain ⟨row,rfl⟩ := hitsForm nextIn
        -- a row found would stand where the NULLs are
        obtain ⟨more,same⟩ := descendPrefix inside
        rw [List.append_assoc,List.append_assoc] at same
        have := List.append_cancel_left same
        cases this
      have keeps : keepsLeft t.2.joinType = true := by
        by_contra drops
        rw [extend,none_,Bool.eq_false_iff.2 drops] at nextIn
        cases nextIn
      rw [extend,none_,keeps,List.isEmpty_nil,Bool.true_and,if_pos rfl,List.flatMap_singleton] at is
      exact ⟨keeps,none_,ih.2 is⟩

theorem originOf {l m : JoinCtx} (before : l <+: m) : m.take l.length = l := (List.prefix_iff_eq_take.1 before).symm

theorem carriedIff {l : JoinCtx} {rest : List (TblData × FromItem F)} :
    Carried env l rest ↔ (descend env l rest).Perm (joinRecurse env false l rest) := by
  induction rest generalizing l with
  | nil => exact iff_of_true trivial (.refl _)
  | cons t rest ih =>
    rw [Carried,descend,recurseCons]
    by_cases none_ : hits env l t = []
    · rw [extend,none_,List.isEmpty_nil,Bool.true_and,Bool.true_and,List.flatMap_nil,List.nil_append]
      have all (p : JoinCtx → Prop) : ∀ m ∈ ([] : List JoinCtx), p m := fun _ mem => (List.not_mem_nil mem).elim
      cases join : t.2.joinType with
      | left =>
        have ends : l ++ nulls (t.1 :: rest.map (·.1)) = l ++ [t.1.joined none] ++ nulls (rest.map (·.1)) := by
          rw [List.append_assoc]
          rfl
        rw [if_pos (by rfl),if_pos (by rfl),List.flatMap_singleton,ends,List.perm_singleton,← unmatchedIff]
        exact ⟨fun carried => (carried.2 rfl).1 rfl,fun behind => ⟨all _,fun _ => ⟨fun _ => behind,nofun⟩⟩⟩
      | full =>
        rw [if_pos (by rfl),if_neg (by decide),List.flatMap_singleton,List.perm_nil,← droppedIff]
        exact ⟨fun carried => (carried.2 rfl).2 rfl,fun gone => ⟨all _,fun _ => ⟨nofun,fun _ => gone⟩⟩⟩
      | inner | right | cross =>
        refine iff_of_true ⟨all _,fun _ => ⟨nofun,nofun⟩⟩ ?_
        rw [if_neg (by decide),if_neg (by decide)]
        exact .refl _
    · have origin {m : JoinCtx} (mem : m ∈ hits env l t) {b : JoinCtx} (before : m <+: b) : b.take (l.length + 1) = m := by
        obtain ⟨row,rfl⟩ := hitsForm mem
        simpa using originOf before
      rw [extend,List.isEmpty_eq_false_iff.2 none_,Bool.false_and,Bool.false_and,if_neg Bool.false_ne_true,
        if_neg Bool.false_ne_true,List.append_nil,flatMapPerm (fun b => b.take (l.length + 1))
          (fun m mem b inside => origin mem (descendPrefix inside)) fun m mem b inside => origin mem (recursePrefix inside)]
      constructor
      · rintro ⟨all,-⟩ m mem
        exact ih.1 (all m mem)
      · exact fun all => ⟨fun m mem => ih.2 (all m mem),fun empty => absurd empty none_⟩

/-! ### The whole join -/

theorem joinAllParts (prev : List TblData) (L : List JoinCtx) (rest : List (TblData × FromItem F)) :
    (joinAll env prev L rest).Perm (L.flatMap (fun l => descend env l rest) ++ rightOnly env prev L rest) := by
  induction rest generalizing prev L with
  | nil =>
    simp only [joinAll,descend,rightOnly,List.append_nil]
    rw [List.flatMap_singleton']
  | cons t rest ih =>
    have next : (joinNext env prev L t).flatMap (fun m => descend env m rest) =
        L.flatMap (fun l => descend env l (t :: rest)) ++ (keptRight env prev L t).flatMap fun u => descend env u rest := by
      rw [joinNext,List.flatMap_append,List.flatMap_assoc]
      rfl
    have all := ih (prev ++ [t.1]) (joinNext env prev L t)
    rw [next,List.append_assoc] at all
    exact all

theorem rightOnlyNil {prev : List TblData} {L : List JoinCtx} {rest : List (TblData × FromItem F)} :
    rightOnly env prev L rest = [] ↔ ∀ mid t post, rest = mid ++ t :: post →
      ∀ u ∈ keptRight env (prev ++ mid.map (·.1)) (joinAll env prev L mid) t, Dropped env u post := by
  induction rest generalizing prev L with
  | nil => exact iff_of_true rfl fun mid t post is => absurd is (by simp)
  | cons x rest ih =>
    rw [rightOnly,List.append_eq_nil_iff,List.flatMap_eq_nil_iff,ih]
    constructor
    · rintro ⟨here,behind⟩ mid t post is
      cases mid with
      | nil =>
        obtain ⟨rfl,rfl⟩ := List.cons.inj is
        intro u mem
        rw [List.map_nil,List.append_nil] at mem
        exact droppedIff.2 (here u mem)
      | cons y mid =>
        obtain ⟨rfl,rest_⟩ := List.cons.inj is
        have dropped := behind mid t post rest_
        rw [List.append_assoc] at dropped
        exact dropped
    · intro all
      constructor
      · intro u mem
        have dropped := all [] x rest rfl u
        rw [List.map_nil,List.append_nil] at dropped
        exact droppedIff.1 (dropped mem)
      · intro mid t post is
        have dropped := all (x :: mid) t post (by rw [is]; rfl)
        rw [List.append_assoc]
        exact dropped

/-- The first table has a row. -/
def rooted (m : JoinCtx) : Bool := (m.head?.bind (·.row)).isSome

omit [Doubles F] in
theorem rootedPrefix {l m : JoinCtx} (some_ : l ≠ []) (before : l <+: m) : rooted m = rooted l := by
  obtain ⟨more,rfl⟩ := before
  cases l with
  | nil => exact absurd rfl some_
  | cons x l => rfl

theorem rightOnlyRoot {prev : List TblData} (some_ : prev ≠ []) {L : List JoinCtx} {rest : List (TblData × FromItem F)} :
    ∀ m ∈ rightOnly env prev L rest, rooted m = false := by
  induction rest generalizing prev L with
  | nil => exact fun _ mem => (List.not_mem_nil mem).elim
  | cons t rest ih =>
    intro m mem
    rw [rightOnly] at mem
    rcases List.mem_append.1 mem with here | behind
    · obtain ⟨u,uIn,inside⟩ := List.mem_flatMap.1 here
      rw [keptRight] at uIn
      split at uIn
      · obtain ⟨row,-,rfl⟩ := List.mem_map.1 uIn
        rw [rootedPrefix (by simp) (descendPrefix inside)]
        cases prev with
        | nil => exact absurd rfl some_
        | cons t prev => rfl
      · cases uIn
    · exact ih (by simp) m behind

theorem recurseFirst (t : TblData × FromItem F) (rest : List (TblData × FromItem F)) :
    joinRecurse env true [] (t :: rest) =
      (firstRows t.1).flatMap fun l => joinRecurse env false l rest := by
  have all : t.1.rows.filter (fun row => passes env [t.1.joined (some row)] none) = t.1.rows :=
    List.filter_eq_self.2 fun _ _ => rfl
  rw [joinRecurse,firstRows]
  simp only [if_true,List.flatMap_map,List.nil_append,all]
  simp

/-- `join_recurse` gives the rows of the joins just where no row of a right side is kept by them for want of a match, every
row without a match at LEFT finds none at any later join, and every one without a match at FULL is dropped. -/
theorem joinsIff (env : Env F (Node F)) (tables : List (TblData × FromItem F)) :
    (joinRecurse env true [] tables).Perm (leftDeep env tables) ↔
      (∀ t rest, tables = t :: rest → ∀ row ∈ t.1.rows, Carried env [t.1.joined (some row)] rest) ∧
        ∀ pre t post, pre ≠ [] → tables = pre ++ t :: post →
          ∀ u ∈ keptRight env (pre.map (·.1)) (leftDeep env pre) t, Dropped env u post := by
  cases tables with
  | nil => exact iff_of_true (.refl _) ⟨fun t rest is => absurd is (by simp),fun pre t post _ is => absurd is (by simp)⟩
  | cons t rest =>
    have parts : (leftDeep env (t :: rest)).Perm _ := joinAllParts [t.1] (firstRows t.1) rest
    have right : rightOnly env [t.1] (firstRows t.1) rest = [] ↔
        ∀ pre u post, pre ≠ [] → t :: rest = pre ++ u :: post →
          ∀ m ∈ keptRight env (pre.map (·.1)) (leftDeep env pre) u, Dropped env m post := by
      rw [rightOnlyNil]
      constructor
      · intro all pre u post some_ is
        cases pre with
        | nil => exact absurd rfl some_
        | cons y pre =>
          obtain ⟨rfl,rest_⟩ := List.cons.inj is
          exact all pre u post rest_
      · exact fun all mid u post is => all (t :: mid) u post (List.cons_ne_nil _ _) (by rw [is]; rfl)
    have left : (∀ l ∈ firstRows t.1, (descend env l rest).Perm (joinRecurse env false l rest)) ↔
        ∀ u more, t :: rest = u :: more → ∀ row ∈ u.1.rows, Carried env [u.1.joined (some row)] more := by
      constructor
      · rintro all u more ⟨⟩ row mem
        exact carriedIff.2 (all _ (List.mem_map_of_mem mem))
      · intro all l mem
        obtain ⟨row,rowIn,rfl⟩ := List.mem_map.1 mem
        exact carriedIff.1 (all t rest rfl row rowIn)
    have origin {l b : JoinCtx} (mem : l ∈ firstRows t.1) (before : l <+: b) :
        b.take 1 = l ∧ rooted b = true := by
      obtain ⟨row,-,rfl⟩ := List.mem_map.1 mem
      exact ⟨originOf before,rootedPrefix (List.cons_ne_nil _ _) before⟩
    calc
      (joinRecurse env true [] (t :: rest)).Perm (leftDeep env (t :: rest)) ↔
          (((firstRows t.1).flatMap fun l => descend env l rest) ++
            rightOnly env [t.1] (firstRows t.1) rest).Perm
              ((firstRows t.1).flatMap fun l => joinRecurse env false l rest) := by
        rw [recurseFirst]
        exact ⟨fun perm => (perm.trans parts).symm,fun perm => perm.symm.trans parts.symm⟩
      _ ↔ _ := by
        rw [appendPerm rooted,right,flatMapPerm (List.take 1),left]
        · exact fun l mem b inside => (origin mem (descendPrefix inside)).1
        · exact fun l mem b inside => (origin mem (recursePrefix inside)).1
        · intro b mem
          obtain ⟨l,lIn,inside⟩ := List.mem_flatMap.1 mem
          exact (origin lIn (descendPrefix inside)).2
        · intro b mem
          obtain ⟨l,lIn,inside⟩ := List.mem_flatMap.1 mem
          exact (origin lIn (recursePrefix inside)).2
        · exact rightOnlyRoot (List.cons_ne_nil _ _)

end

/-- A row without a match at the first LEFT JOIN loses its match at the second, and RIGHT JOIN loses a row without one. -/
theorem joinsLose :
    (¬(joinRecurse (⟨none,fun _ _ _ _ => vnull,fun _ _ _ => vnull,fun _ => vnull,fun _ _ => vnull⟩ : Env Int (Node Int)) true []
      [(⟨some [[97]],[[some [49]]],some [97],none,none⟩,⟨some [97],none,.inner,none,none⟩),
        (⟨some [[98]],[],some [98],none,none⟩,⟨some [98],none,.left,none,none⟩),
        (⟨some [[99]],[[some [50]]],some [99],none,none⟩,⟨some [99],none,.left,none,none⟩)]).Perm
      (leftDeep (⟨none,fun _ _ _ _ => vnull,fun _ _ _ => vnull,fun _ => vnull,fun _ _ => vnull⟩ : Env Int (Node Int))
        [(⟨some [[97]],[[some [49]]],some [97],none,none⟩,⟨some [97],none,.inner,none,none⟩),
          (⟨some [[98]],[],some [98],none,none⟩,⟨some [98],none,.left,none,none⟩),
          (⟨some [[99]],[[some [50]]],some [99],none,none⟩,⟨some [99],none,.left,none,none⟩)])) ∧
    ¬(joinRecurse (⟨none,fun _ _ _ _ => vnull,fun _ _ _ => vnull,fun _ => vnull,fun _ _ => vnull⟩ : Env Int (Node Int)) true []
      [(⟨some [[97]],[],some [97],none,none⟩,⟨some [97],none,.inner,none,none⟩),
        (⟨some [[98]],[[some [49]]],some [98],none,none⟩,⟨some [98],none,.right,none,none⟩)]).Perm
      (leftDeep (⟨none,fun _ _ _ _ => vnull,fun _ _ _ => vnull,fun _ => vnull,fun _ _ => vnull⟩ : Env Int (Node Int))
        [(⟨some [[97]],[],some [97],none,none⟩,⟨some [97],none,.inner,none,none⟩),
          (⟨some [[98]],[[some [49]]],some [98],none,none⟩,⟨some [98],none,.right,none,none⟩)]) :=
  ⟨fun perm => absurd (perm.map (List.map JoinTable.row)) (by decide),fun perm => absurd perm.length_eq (by decide)⟩

end Napastak.LeftDeep
