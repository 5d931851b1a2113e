import Napastak.ExprShape

/-! A strict reading of a tree's own words as that tree: only a plain tree has one. -/
namespace Napastak.SqlParser
open Query Sql

/-! ### How an expression was read -/

section
variable {F : Type} {strict : Bool} {m : Int} {o : Bool} {e : Expr F} {T : List TkType}

/-- No parentheses around the whole. -/
def Apart (T : List TkType) : Prop := ∀ W, Balanced W → T ≠ .lparen :: (W ++ [.rparen])

theorem Derives.noGroup {W : List TkType} (h : Derives strict (.expr m o) e W) (apart : Apart (.lparen :: (W ++ [.rparen]))) : False :=
  apart W h.balanced rfl

theorem opSame {op op' : BinOp} (h : op.op = op'.op) : op = op' := by
  cases op <;> cases op' <;> first | rfl | cases h

theorem Derives.primBin {op : OpType} {l r : Expr F} (h : Derives strict .prim (.binop op l r) T) (apart : Apart T) : False := by
  cases h with
  | single _ one => cases one
  | group inner => exact inner.noGroup apart

theorem Derives.primNull {negated : Bool} (h : Derives strict .prim (.unop (if negated then .isNotNull else .isNull) e) T)
    (apart : Apart T) : False := by
  generalize known : (if negated then OpType.isNotNull else .isNull) = x at h
  cases h with
  | single _ one => cases one
  | group inner => exact inner.noGroup apart
  | sign is => rcases List.mem_pair.mp is with is | is <;> cases is <;> cases negated <;> cases known

theorem Derives.binInv {op : BinOp} {l r : Expr F} (h : Derives strict (.expr m o) (.binop op.op l r) T) (apart : Apart T) :
    ∃ o1 o2 A B, T = A ++ op.sym.type :: B ∧ (strict → m ≤ op.prec) ∧ Derives strict (.expr m o1) l A ∧
      Derives strict (.expr (op.prec + 1) o2) r B ∧ o = false := by
  generalize known : op.op = x at h
  cases h with
  | prim inner => exact (inner.primBin apart).elim
  | @notLike _ _ _ anyCase => cases op <;> cases anyCase <;> cases known
  | @between _ _ _ _ negated => cases op <;> cases negated <;> cases known
  | @inList _ _ negated => cases op <;> cases negated <;> cases known
  | @bin _ o1 o2 op' _ _ A B tight left right =>
    cases opSame known
    exact ⟨o1,o2,A,B,rfl,tight,left,right,rfl⟩

theorem Derives.signInv {op : OpType} {ty : TkType} (sign : (op,ty) ∈ [(OpType.sub,TkType.minus),(.not_,.not_)])
    (h : Derives strict (.expr m o) (.unop op e) T) (apart : Apart T) :
    ∃ k A, T = ty :: A ∧ k ≠ .items ∧ (strict → k = .prim) ∧ Derives strict k e A := by
  cases h with
  | prim inner =>
    cases inner with
    | single _ one => cases one
    | group inner => exact (inner.noGroup apart).elim
    | @sign _ ty' k _ A is exprs first inner =>
      have same : ty' = ty := by
        rcases List.mem_pair.mp is with is | is <;> rcases List.mem_pair.mp sign with sign | sign <;> cases is <;> cases sign <;> rfl
      exact ⟨k,A,same ▸ rfl,exprs,first,inner⟩
  | @isNull _ _ negated => cases negated <;> exact absurd sign (by simp)

theorem Derives.isNullInv {negated : Bool} (h : Derives strict (.expr m o) (.unop (if negated then .isNotNull else .isNull) e) T)
    (apart : Apart T) : ∃ o' A, T = A ++ .is_ :: (nots negated ++ [.null]) ∧ (strict → o' = true) ∧ Derives strict (.expr m o') e A := by
  generalize known : (if negated then OpType.isNotNull else .isNull) = x at h
  cases h with
  | prim inner =>
    rw [← known] at inner
    exact (inner.primNull apart).elim
  | @isNull _ o' negated' _ A free left =>
    have same : negated' = negated := by cases negated <;> cases negated' <;> first | rfl | cases known
    exact ⟨o',A,same ▸ rfl,free,left⟩

theorem Derives.notLikeInv {anyCase : Bool} {l r : Expr F}
    (h : Derives strict (.expr m o) (.binop (if anyCase then .notIlike else .notLike) l r) T) (apart : Apart T) :
    ∃ o1 o2 A B, T = A ++ .not_ :: (if anyCase then .ilike else .like) :: B ∧ (strict → o1 = true) ∧ Derives strict (.expr m o1) l A ∧
      Derives strict (.expr 5 o2) r B ∧ o = false := by
  generalize known : (if anyCase then OpType.notIlike else .notLike) = x at h
  cases h with
  | prim inner => exact (inner.primBin apart).elim
  | @notLike _ o1 o2 anyCase' _ _ A B free left right =>
    have same : anyCase' = anyCase := by cases anyCase <;> cases anyCase' <;> first | rfl | cases known
    exact ⟨o1,o2,A,B,same ▸ rfl,free,left,right,rfl⟩
  | @between _ _ _ _ negated => cases anyCase <;> cases negated <;> cases known
  | @inList _ _ negated => cases anyCase <;> cases negated <;> cases known
  | @bin _ _ _ op => cases op <;> cases anyCase <;> cases known

theorem Derives.betweenInv {negated : Bool} {low high : Expr F}
    (h : Derives strict (.expr m o) (.binop (if negated then .notBetween else .between) e (.binop .and_ low high)) T) (apart : Apart T) :
    ∃ o1 o2 o3 A B C, T = A ++ (nots negated ++ .between :: (B ++ .and_ :: C)) ∧ (strict → o1 = true) ∧
      Derives strict (.expr m o1) e A ∧ Derives strict (.expr 6 o2) low B ∧ Derives strict (.expr 6 o3) high C ∧ o = false := by
  generalize known : (if negated then OpType.notBetween else .between) = x at h
  cases h with
  | prim inner => exact (inner.primBin apart).elim
  | @notLike _ _ _ anyCase => cases anyCase <;> cases negated <;> cases known
  | @between _ o1 o2 o3 negated' _ _ _ A B C free left below above =>
    have same : negated' = negated := by cases negated <;> cases negated' <;> first | rfl | cases known
    exact ⟨o1,o2,o3,A,B,C,same ▸ rfl,free,left,below,above,rfl⟩
  | @bin _ _ _ op => cases op <;> cases negated <;> cases known

theorem Derives.inListInv {negated : Bool} {items : List (Expr F)}
    (h : Derives strict (.expr m o) (.binop (if negated then .notIn else .in_) e (.list items)) T) (apart : Apart T) :
    ∃ o' A B, T = A ++ (nots negated ++ .in_ :: .lparen :: (B ++ [.rparen])) ∧ (strict → o' = true) ∧
      Derives strict (.expr m o') e A ∧ Derives strict .items (.list items) B := by
  generalize known : (if negated then OpType.notIn else .in_) = x at h
  cases h with
  | prim inner => exact (inner.primBin apart).elim
  | @notLike _ _ _ anyCase => cases anyCase <;> cases negated <;> cases known
  | @inList _ o' negated' _ _ A B free left list =>
    have same : negated' = negated := by cases negated <;> cases negated' <;> first | rfl | cases known
    exact ⟨o',A,B,same ▸ rfl,free,left,list⟩
  | @bin _ _ _ op => cases op <;> cases negated <;> cases known

theorem Derives.callInv {name : Bytes} {args : List (Expr F)} {distinct : Bool} {S : List TkType} (real : args ≠ [.star none])
    (h : Derives strict (.expr m o) (.func name args distinct) (.ident :: .lparen :: (distincts distinct ++ (S ++ [.rparen])))) :
    Derives strict .items (.list args) S := by
  generalize is : TkType.ident :: .lparen :: (distincts distinct ++ (S ++ [.rparen])) = T at h
  cases h with
  | prim inner =>
    cases inner with
    | single _ one => cases one
    | group => cases (List.cons.inj is).1
    | callStar => exact absurd rfl real
    | @call _ _ _ A list =>
      have same := List.append_cancel_left (List.cons.inj (List.cons.inj is).2).2
      exact List.append_cancel_right same ▸ list

end

namespace Tree

section
variable {F : Type} [JsonDoubles F] {t : Tree} {m : Int} {o : Bool}

/-! ### The words of a tree -/

theorem placedLoose (p : Nat) (t : Tree) : Loose (t.ast F) (types (placed p t t.words)) := (wordsLoose t).placed p

theorem placedBalanced (F : Type) [JsonDoubles F] (p : Nat) (t : Tree) :
    Balanced (types (placed p t t.words)) ∧ types (placed p t t.words) ≠ [] := by
  obtain ⟨o,h⟩ := placedLoose (F := F) p t 0
  exact ⟨h.balanced,h.nonempty (by rintro ⟨⟩)⟩

theorem placedCount (p : Nat) (t : Tree) : wordCount (types (placed p t t.words)) = weight (t.ast F) := by
  obtain ⟨o,h⟩ := placedLoose (F := F) p t 0
  exact h.count

theorem startApart {ty : TkType} {T : List TkType} (h : ty ≠ .lparen) : Apart (ty :: T) := fun _ _ is => h (List.cons.inj is).1

theorem frontApart (F : Type) [JsonDoubles F] (p : Nat) (t : Tree) {T : List TkType} (some_ : T ≠ []) : Apart (types (placed p t t.words) ++ T) :=
  fun _ balanced is => balanced.noSplit is.symm (placedBalanced F p t).2 some_ (placedBalanced F p t).1

theorem wordsApart (F : Type) [JsonDoubles F] (t : Tree) : Apart (types t.words) := by
  cases t with
  | col table name => cases table <;> exact startApart (by rintro ⟨⟩)
  | int | float | str | null | call | callStar | not_ | neg => exact startApart (by rintro ⟨⟩)
  | bool b => cases b <;> exact startApart (by rintro ⟨⟩)
  | bin | isNull | notLike =>
    rw [words,typesAppend]
    exact frontApart F _ _ (List.cons_ne_nil _ _)
  | between | inList =>
    rw [words,typesAppend,typesAppend]
    exact frontApart F _ _ (by simp [types])

/-! ### Only plain trees -/

/-- What a strict reading of the tree's own words says about it. -/
structure Honest (F : Type) [JsonDoubles F] (t : Tree) : Prop where
  plain : ∀ (m : Int) o, Derives true (.expr m o) (t.ast F) (types t.words) → t.plain
  closed : ∀ m : Int, Derives true (.expr m true) (t.ast F) (types t.words) → t.closed
  concat : ∀ (m : Int) o, Derives true (.expr m o) (t.ast F) (types t.words) → t.level = 5 → m ≤ 5

theorem Honest.placedPlain (h : Honest F t) {p : Nat} {k : Mode} (read : Derives true k (t.ast F) (types (placed p t t.words)))
    (is : k ≠ .items) : t.plain := by
  rw [placed] at read
  split at read
  · rw [typesWrap] at read
    obtain ⟨o,loose⟩ := wordsLoose (F := F) t 0
    obtain ⟨m,o,inner⟩ := read.inside is loose.balanced rfl
    exact h.plain m o inner
  · cases k with
    | prim => exact h.plain 0 true (.prim read)
    | expr m o => exact h.plain m o read
    | items => exact absurd rfl is

theorem lowClosed (h : t.level < 4) : t.closed := by
  cases t with
  | bin => exact decide_eq_true h
  | notLike | between => exact absurd h (by rw [level]; decide)
  | _ => rfl

theorem Honest.placedClosed (h : Honest F t) (read : Derives true (.expr m true) (t.ast F) (types (placed 4 t t.words))) : t.closed := by
  rw [placed] at read
  split at read
  · rename_i low
    exact lowClosed low
  · exact h.closed m read

theorem primTight (read : Derives true .prim (t.ast F) (types t.words)) : t.tight := by
  have apart := wordsApart F t
  cases t with
  | bin | notLike | between | inList => exact (read.primBin apart).elim
  | isNull => exact (read.primNull apart).elim
  | not_ => exact .inl rfl
  | _ => exact .inr (by simp [level])

theorem closedHonest (plain : ∀ (m : Int) o, Derives true (.expr m o) (t.ast F) (types t.words) → t.plain) (closed : t.closed)
    (level : t.level ≠ 5) : Honest F t := ⟨plain,fun _ _ => closed,fun _ _ _ is => absurd is level⟩

theorem binHonest (op : BinOp) {l r : Tree} (left : Honest F l) (right : Honest F r) : Honest F (.bin op l r) := by
  have apart := wordsApart F (.bin op l r)
  have parts : ∀ (m : Int) o, Derives true (.expr m o) ((bin op l r).ast F) (types (bin op l r).words) →
      (l.plain ∧ r.plain) ∧ m ≤ op.prec ∧ o = false := by
    intro m o read
    obtain ⟨o1,o2,A,B,split,tight,first,second,is⟩ := read.binInv apart
    rw [words,typesAppend,typesCons] at split
    obtain ⟨same,_,rest⟩ := frontSame split ((placedCount op.prec l).trans first.count.symm) (symWord op) (symWord op)
    rw [← same] at first
    rw [← rest] at second
    exact ⟨⟨left.placedPlain first (by rintro ⟨⟩),right.placedPlain second (by rintro ⟨⟩)⟩,tight rfl,is⟩
  refine ⟨fun m o read => (parts m o read).1,fun m read => absurd (parts m true read).2.2 (by rintro ⟨⟩),fun m o read is => ?_⟩
  have := (parts m o read).2.1
  rw [level] at is
  omega

theorem notHonest (h : Honest F t) : Honest F (.not_ t) := by
  refine closedHonest ?_ rfl (by rw [level]; decide)
  intro m o read
  obtain ⟨k,A,split,exprs,first,inner⟩ := read.signInv (List.mem_cons_of_mem _ List.mem_cons_self) (wordsApart F (.not_ t))
  cases first rfl
  cases split
  refine ⟨?_,h.placedPlain inner (by rintro ⟨⟩)⟩
  rw [placed] at inner
  split at inner
  · omega
  · rcases primTight inner with is | is <;> omega

theorem negHonest (h : Honest F t) : Honest F (.neg t) := by
  refine closedHonest ?_ rfl (by rw [level]; decide)
  intro m o read
  obtain ⟨k,A,split,exprs,first,inner⟩ := read.signInv List.mem_cons_self (wordsApart F (.neg t))
  cases split
  exact h.placedPlain inner exprs

theorem isNullHonest (negated : Bool) (h : Honest F t) : Honest F (.isNull negated t) := by
  refine closedHonest ?_ rfl (by rw [level]; decide)
  intro m o read
  obtain ⟨o',A,split,free,left⟩ := read.isNullInv (wordsApart F (.isNull negated t))
  cases free rfl
  rw [words,typesAppend,typesCons,typesAppend,typesNot] at split
  cases List.append_cancel_right split
  exact ⟨h.placedClosed left,h.placedPlain left (by rintro ⟨⟩)⟩

theorem notLikeHonest (anyCase : Bool) {l r : Tree} (left : Honest F l) (right : Honest F r) : Honest F (.notLike anyCase l r) := by
  have apart := wordsApart F (.notLike anyCase l r)
  have parts : ∀ (m : Int) o, Derives true (.expr m o) ((notLike anyCase l r).ast F) (types (notLike anyCase l r).words) →
      (l.closed ∧ l.plain ∧ r.plain) ∧ o = false := by
    intro m o read
    obtain ⟨o1,o2,A,B,split,free,first,second,is⟩ := read.notLikeInv apart
    cases free rfl
    rw [words,typesAppend,typesCons] at split
    obtain ⟨same,_,rest⟩ := frontSame split ((placedCount 4 l).trans first.count.symm) (by decide) (by decide)
    rw [← same] at first
    rw [← (List.cons.inj rest).2] at second
    exact ⟨⟨left.placedClosed first,left.placedPlain first (by rintro ⟨⟩),right.placedPlain second (by rintro ⟨⟩)⟩,is⟩
  refine ⟨fun m o read => (parts m o read).1,fun m read => absurd (parts m true read).2 (by rintro ⟨⟩),fun m o read is => ?_⟩
  rw [level] at is
  cases is

theorem boundOk {m : Int} (low : m = 6) (h : Honest F t) {o : Bool} (read : Derives true (.expr m o) (t.ast F) (types (placed 5 t t.words))) :
    t.level ≠ 5 := by
  intro is
  rw [placed,if_neg (by omega)] at read
  have := h.concat m o read is
  omega

/-- What follows the operand of BETWEEN and IN begins with a word that parts it from the rest. -/
theorem notFront (negated : Bool) {ty : TkType} (is : ty ≠ .lparen ∧ ty ≠ .rparen) {A B S R : List TkType}
    (split : A ++ (nots negated ++ ty :: S) = B ++ (nots negated ++ ty :: R)) (words : wordCount A = wordCount B) : A = B ∧ S = R := by
  cases negated with
  | false =>
    obtain ⟨same,_,rest⟩ := frontSame split words is is
    exact ⟨same,rest⟩
  | true =>
    obtain ⟨same,_,rest⟩ := frontSame split words (by decide) (by decide)
    exact ⟨same,(List.cons.inj rest).2⟩

theorem betweenHonest (negated : Bool) {low high : Tree} (h : Honest F t) (below : Honest F low) (above : Honest F high) :
    Honest F (.between negated t low high) := by
  have apart := wordsApart F (.between negated t low high)
  have parts : ∀ (m : Int) o, Derives true (.expr m o) ((between negated t low high).ast F) (types (between negated t low high).words) →
      (between negated t low high).plain ∧ o = false := by
    intro m o read
    obtain ⟨o1,o2,o3,A,B,C,split,free,first,second,third,is⟩ := read.betweenInv apart
    cases free rfl
    rw [words,typesAppend,typesAppend,typesNot,typesCons] at split
    obtain ⟨same,rest⟩ := notFront negated (by decide : TkType.between ≠ .lparen ∧ TkType.between ≠ .rparen) split ((placedCount 4 t).trans first.count.symm)
    rw [typesAppend,typesCons] at rest
    obtain ⟨same2,_,rest2⟩ := frontSame rest ((placedCount 5 low).trans second.count.symm) (by decide) (by decide)
    rw [← same] at first
    rw [← same2] at second
    rw [← rest2] at third
    exact ⟨⟨h.placedClosed first,h.placedPlain first (by rintro ⟨⟩),boundOk rfl below second,below.placedPlain second (by rintro ⟨⟩),boundOk rfl above third,
      above.placedPlain third (by rintro ⟨⟩)⟩,is⟩
  refine ⟨fun m o read => (parts m o read).1,fun m read => absurd (parts m true read).2 (by rintro ⟨⟩),fun m o read is => ?_⟩
  rw [level] at is
  cases is

theorem listHonest : (ts : List Tree) → (∀ t ∈ ts, Honest F t) → Derives true .items (.list (asts F ts)) (types (listWords ts)) → allPlain ts
  | [],_,_ => trivial
  | [t],all,read => by
    rw [listWords,List.isEmpty_nil,if_pos rfl,List.append_nil] at read
    generalize is : types t.words = T at read
    cases read with
    | @one m o _ _ inner => exact ⟨(all t List.mem_cons_self).plain m o (is ▸ inner),trivial⟩
    | more some_ => exact absurd rfl some_
  | t :: v :: ts,all,read => by
    rw [listWords,List.isEmpty_cons,if_neg Bool.false_ne_true,typesAppend,typesCons] at read
    generalize is : types t.words ++ (Word.sym .comma).type :: types (listWords (v :: ts)) = T at read
    cases read with
    | @more m o _ _ A B _ head tail =>
      obtain ⟨_,loose⟩ := wordsLoose (F := F) t 0
      obtain ⟨same,_,rest⟩ := frontSame is (loose.count.trans head.count.symm) (by decide) (by decide)
      rw [← same] at head
      rw [← rest] at tail
      exact ⟨(all t List.mem_cons_self).plain m o head,
        listHonest (v :: ts) (fun w hw => all w (List.mem_cons_of_mem _ hw)) tail⟩

theorem inListHonest (negated : Bool) {items : List Tree} (h : Honest F t) (all : ∀ t ∈ items, Honest F t) :
    Honest F (.inList negated t items) := by
  refine closedHonest ?_ rfl (by rw [level]; decide)
  intro m o read
  obtain ⟨o',A,B,split,free,left,list⟩ := read.inListInv (wordsApart F (.inList negated t items))
  cases free rfl
  rw [words,typesAppend,typesAppend,typesNot,typesCons,typesCons,typesAppend] at split
  obtain ⟨same,rest⟩ := notFront negated (by decide : TkType.in_ ≠ .lparen ∧ TkType.in_ ≠ .rparen) split ((placedCount 4 t).trans left.count.symm)
  rw [← same] at left
  rw [← List.append_cancel_right (List.cons.inj rest).2] at list
  exact ⟨h.placedClosed left,h.placedPlain left (by rintro ⟨⟩),listHonest items all list⟩

theorem starOther (t : Tree) : t.ast F ≠ .star none := by
  cases t <;> rw [ast] <;> rintro ⟨⟩

theorem callHonest (name : Ident) (distinct : Bool) {args : List Tree} (all : ∀ t ∈ args, Honest F t) :
    Honest F (.call name distinct args) := by
  refine closedHonest ?_ rfl (by simp [level])
  intro m o read
  rw [words,typesCons,typesCons,typesAppend,typesAppend,typesDistinct] at read
  refine listHonest args all (Derives.callInv ?_ read)
  cases args with
  | nil => rintro ⟨⟩
  | cons t ts => cases ts with
    | nil => exact fun is => starOther t (List.cons.inj is).1
    | cons => exact fun is => List.cons_ne_nil _ _ (List.cons.inj is).2

mutual
theorem allHonest : (t : Tree) → Honest F t
  | col none _ | col (some _) _ | int _ | float _ | str _ | null | bool _ | callStar .. =>
    closedHonest (fun _ _ _ => trivial) rfl (by simp [level])
  | call name distinct args => callHonest name distinct (listsHonest args)
  | bin op l r => binHonest op (allHonest l) (allHonest r)
  | not_ t => notHonest (allHonest t)
  | neg t => negHonest (allHonest t)
  | isNull negated t => isNullHonest negated (allHonest t)
  | notLike anyCase l r => notLikeHonest anyCase (allHonest l) (allHonest r)
  | between negated t low high => betweenHonest negated (allHonest t) (allHonest low) (allHonest high)
  | inList negated t items => inListHonest negated (allHonest t) (listsHonest items)

theorem listsHonest : (ts : List Tree) → ∀ t ∈ ts, Honest F t
  | [] => nofun
  | t :: ts => List.forall_mem_cons.mpr ⟨allHonest t,listsHonest ts⟩
end

theorem strictPlain (read : Derives true (.expr m o) (t.ast F) (types t.words)) : t.plain := (allHonest t).plain m o read

end

end Tree

end Napastak.SqlParser
