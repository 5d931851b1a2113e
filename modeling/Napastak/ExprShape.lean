import Napastak.ExprTrip

/-! Which readings of a text the expression parser can give. -/
namespace Napastak.SqlParser
open Query Sql

/-! ### The words of a tree -/

section
variable {F : Type}

def opWords : OpType → Nat
  | .notLike | .notIlike | .notBetween | .notIn | .isNull => 2
  | .isNotNull => 3
  | _ => 1

mutual
/-- The words that an expression is written with, parentheses left out. -/
def weight : Expr F → Nat
  | .col (some _) _ => 3
  | .func _ args distinct => 1 + (if distinct then 1 else 0) + weights args
  | .binop op l r => weight l + opWords op + weight r
  | .unop op e => opWords op + weight e
  | .list items => weights items
  | _ => 1

def weights : List (Expr F) → Nat
  | [] => 0
  | e :: es => weight e + (if es.isEmpty then 0 else 1 + weights es)
end


end

/-! ### Balanced words -/

def wordCount (T : List TkType) : Nat := T.countP fun ty => ty ≠ .lparen ∧ ty ≠ .rparen

/-- Every parenthesis has its pair. -/
def Balanced (T : List TkType) : Prop :=
  T.count .lparen = T.count .rparen ∧ ∀ P Q, T = P ++ Q → P.count .rparen ≤ P.count .lparen

theorem Balanced.words {T : List TkType} (h : ∀ ty ∈ T, ty ≠ .lparen ∧ ty ≠ .rparen) : Balanced T := by
  have none_ : ∀ P : List TkType, (∀ ty ∈ P, ty ≠ .lparen ∧ ty ≠ .rparen) → P.count .lparen = 0 ∧ P.count .rparen = 0 :=
    fun P free => ⟨List.count_eq_zero.mpr fun m => (free _ m).1 rfl,List.count_eq_zero.mpr fun m => (free _ m).2 rfl⟩
  refine ⟨by rw [(none_ T h).1,(none_ T h).2],fun P Q split => ?_⟩
  rw [(none_ P fun ty m => h ty (split ▸ List.mem_append_left _ m)).2]
  exact Nat.zero_le _

theorem Balanced.append {A B : List TkType} (a : Balanced A) (b : Balanced B) : Balanced (A ++ B) := by
  refine ⟨by rw [List.count_append,List.count_append,a.1,b.1],fun P Q split => ?_⟩
  rcases List.append_eq_append_iff.mp split with ⟨C,rfl,later⟩ | ⟨C,later,_⟩
  · have := b.2 C Q later
    rw [List.count_append,List.count_append,a.1]
    omega
  · exact a.2 P C later

theorem Balanced.wrap {A : List TkType} (a : Balanced A) : Balanced (.lparen :: (A ++ [.rparen])) := by
  refine ⟨?_,fun P Q split => ?_⟩
  · simp [a.1]
  · cases P with
    | nil => exact Nat.le_refl _
    | cons ty P =>
      obtain ⟨rfl,inner⟩ := List.cons.inj split
      have inside : P.count .rparen ≤ P.count .lparen + 1 := by
        rcases List.append_eq_append_iff.mp inner with ⟨C,rfl,later⟩ | ⟨C,later,_⟩
        · have : C.count .rparen ≤ 1 := by
            have len := congrArg List.length later
            have := List.count_le_length (a := TkType.rparen) (l := C)
            rw [List.length_append,List.length_singleton] at len
            omega
          rw [List.count_append,List.count_append,a.1]
          omega
        · have := a.2 P C later
          omega
      simpa using inside

/-- Inside parentheses no front part is balanced. -/
theorem Balanced.noSplit {W P Q : List TkType} (w : Balanced W) (split : TkType.lparen :: (W ++ [.rparen]) = P ++ Q)
    (front : P ≠ []) (back : Q ≠ []) (p : Balanced P) : False := by
  cases P with
  | nil => exact front rfl
  | cons ty P =>
    obtain ⟨rfl,inner⟩ := List.cons.inj split
    have inside : P.count .rparen ≤ P.count .lparen := by
      rcases List.append_eq_append_iff.mp inner with ⟨C,rfl,later⟩ | ⟨C,later,_⟩
      · have none_ : C = [] := by
          cases C with
          | nil => rfl
          | cons c C =>
            have len := congrArg List.length later
            simp only [List.length_append,List.length_cons,List.length_nil] at len
            exact absurd (List.length_eq_zero_iff.mp (by omega)) back
        rw [none_,List.append_nil]
        exact Nat.le_of_eq w.1.symm
      · exact w.2 P C later
    have := p.1
    rw [List.count_cons_self,List.count_cons_of_ne (by decide)] at this
    omega

/-- Two front parts with as many words before a word are the same. -/
theorem frontSame {A B S R : List TkType} {ty u : TkType} (split : A ++ ty :: S = B ++ u :: R) (words : wordCount A = wordCount B)
    (t : ty ≠ .lparen ∧ ty ≠ .rparen) (v : u ≠ .lparen ∧ u ≠ .rparen) : A = B ∧ ty = u ∧ S = R := by
  rcases List.append_eq_append_iff.mp split with ⟨C,rfl,later⟩ | ⟨C,rfl,later⟩
  · cases C with
    | nil => exact ⟨(List.append_nil _).symm,(List.cons.inj later).1,(List.cons.inj later).2⟩
    | cons c C =>
      rw [(List.cons.inj later).1] at t
      rw [wordCount,wordCount,List.countP_append,List.countP_cons_of_pos (by simpa using t)] at words
      omega
  · cases C with
    | nil => exact ⟨List.append_nil _,(List.cons.inj later).1.symm,(List.cons.inj later).2.symm⟩
    | cons c C =>
      rw [(List.cons.inj later).1] at v
      rw [wordCount,wordCount,List.countP_append,List.countP_cons_of_pos (by simpa using v)] at words
      omega

/-! ### Readings -/

inductive Mode
  | prim
  /-- An expression of a precedence, and whether a postfix predicate can apply to it. -/
  | expr (m : Int) (open_ : Bool)
  | items

def nots (negated : Bool) : List TkType := if negated then [.not_] else []

def distincts (distinct : Bool) : List TkType := if distinct then [.distinct] else []

def singleTypes : List TkType := [.ident,.numInt,.numFloat,.string,.null,.true_,.false_]

section
variable {F : Type}

/-- The expressions of one word. -/
def single : Expr F → Bool
  | .col none _ | .int .. | .float _ | .str _ | .null | .bool _ => true
  | _ => false

/-- The words that an expression can be read from. Strictly, as the parser reads them: what follows a sign is a primary,
a postfix predicate applies to what no operand is left open in, and operators bind as tightly as asked. -/
inductive Derives (strict : Bool) : Mode → Expr F → List TkType → Prop
  | single {e : Expr F} {ty : TkType} : ty ∈ singleTypes → single e → Derives strict .prim e [ty]
  | qualified {table name : Bytes} : Derives strict .prim (.col (some table) name) [.ident,.dot,.ident]
  | callStar {name : Bytes} {distinct : Bool} :
    Derives strict .prim (.func name [.star none] distinct) (.ident :: .lparen :: (distincts distinct ++ [.star,.rparen]))
  | call {name : Bytes} {distinct : Bool} {args : List (Expr F)} {T : List TkType} : Derives strict .items (.list args) T →
    Derives strict .prim (.func name args distinct) (.ident :: .lparen :: (distincts distinct ++ (T ++ [.rparen])))
  | group {m : Int} {o : Bool} {e : Expr F} {T : List TkType} : Derives strict (.expr m o) e T →
    Derives strict .prim e (.lparen :: (T ++ [.rparen]))
  | sign {op : OpType} {ty : TkType} {md : Mode} {e : Expr F} {T : List TkType} : (op,ty) ∈ [(.sub,.minus),(.not_,.not_)] →
    md ≠ .items → (strict → md = .prim) → Derives strict md e T → Derives strict .prim (.unop op e) (ty :: T)
  | prim {m : Int} {e : Expr F} {T : List TkType} : Derives strict .prim e T → Derives strict (.expr m true) e T
  | isNull {m : Int} {o negated : Bool} {e : Expr F} {T : List TkType} : (strict → o = true) → Derives strict (.expr m o) e T →
    Derives strict (.expr m true) (.unop (if negated then .isNotNull else .isNull) e) (T ++ .is_ :: (nots negated ++ [.null]))
  | notLike {m : Int} {o o' anyCase : Bool} {l r : Expr F} {T S : List TkType} : (strict → o = true) →
    Derives strict (.expr m o) l T → Derives strict (.expr 5 o') r S →
    Derives strict (.expr m false) (.binop (if anyCase then .notIlike else .notLike) l r)
      (T ++ .not_ :: (if anyCase then .ilike else .like) :: S)
  | between {m : Int} {o o1 o2 negated : Bool} {e low high : Expr F} {T A B : List TkType} : (strict → o = true) →
    Derives strict (.expr m o) e T → Derives strict (.expr 6 o1) low A → Derives strict (.expr 6 o2) high B →
    Derives strict (.expr m false) (.binop (if negated then .notBetween else .between) e (.binop .and_ low high))
      (T ++ (nots negated ++ .between :: (A ++ .and_ :: B)))
  | inList {m : Int} {o negated : Bool} {e : Expr F} {es : List (Expr F)} {T A : List TkType} : (strict → o = true) →
    Derives strict (.expr m o) e T → Derives strict .items (.list es) A →
    Derives strict (.expr m true) (.binop (if negated then .notIn else .in_) e (.list es))
      (T ++ (nots negated ++ .in_ :: .lparen :: (A ++ [.rparen])))
  | bin {m : Int} {o o' : Bool} {op : BinOp} {l r : Expr F} {T S : List TkType} : (strict → m ≤ op.prec) →
    Derives strict (.expr m o) l T → Derives strict (.expr (op.prec + 1) o') r S →
    Derives strict (.expr m false) (.binop op.op l r) (T ++ op.sym.type :: S)
  | none_ : Derives strict .items (.list []) []
  | one {m : Int} {o : Bool} {e : Expr F} {T : List TkType} : Derives strict (.expr m o) e T → Derives strict .items (.list [e]) T
  | more {m : Int} {o : Bool} {e : Expr F} {es : List (Expr F)} {T S : List TkType} : es ≠ [] → Derives strict (.expr m o) e T →
    Derives strict .items (.list es) S → Derives strict .items (.list (e :: es)) (T ++ .comma :: S)

variable {strict : Bool} {md : Mode} {e : Expr F} {T : List TkType}

theorem nots.words (negated : Bool) : ∀ ty ∈ nots negated, ty ≠ .lparen ∧ ty ≠ .rparen := by cases negated <;> decide

theorem distincts.words (distinct : Bool) : ∀ ty ∈ distincts distinct, ty ≠ .lparen ∧ ty ≠ .rparen := by cases distinct <;> decide

theorem singleTypes.words : ∀ ty ∈ singleTypes, ty ≠ .lparen ∧ ty ≠ .rparen := by decide

theorem symWord (op : BinOp) : op.sym.type ≠ .lparen ∧ op.sym.type ≠ .rparen := by cases op <;> decide

theorem Balanced.one {ty : TkType} (h : ty ≠ .lparen ∧ ty ≠ .rparen) : Balanced [ty] :=
  .words fun _ m => List.mem_singleton.mp m ▸ h

theorem Balanced.cons {ty : TkType} (h : ty ≠ .lparen ∧ ty ≠ .rparen) {A : List TkType} (a : Balanced A) : Balanced (ty :: A) :=
  (Balanced.one h).append a

theorem Derives.balanced (h : Derives strict md e T) : Balanced T := by
  induction h with
  | single is _ => exact .one (singleTypes.words _ is)
  | qualified => exact .words (by decide)
  | @callStar _ distinct =>
    have inner := (Balanced.words (distincts.words distinct)).append (.words (by decide : ∀ ty ∈ [TkType.star],ty ≠ .lparen ∧ ty ≠ .rparen))
    have := (Balanced.one (by decide : TkType.ident ≠ .lparen ∧ TkType.ident ≠ .rparen)).append inner.wrap
    rwa [List.append_assoc] at this
  | @call _ distinct _ _ _ ih =>
    have inner := (Balanced.words (distincts.words distinct)).append ih
    have := (Balanced.one (by decide : TkType.ident ≠ .lparen ∧ TkType.ident ≠ .rparen)).append inner.wrap
    rwa [List.append_assoc] at this
  | group _ ih => exact ih.wrap
  | sign is _ _ _ ih =>
    refine .cons ?_ ih
    rcases List.mem_pair.mp is with is | is <;> cases is <;> decide
  | prim _ ih => exact ih
  | isNull _ _ ih => exact ih.append (.cons (by decide) ((Balanced.words (nots.words _)).append (.one (by decide))))
  | @notLike _ _ _ anyCase _ _ _ _ _ _ _ left right =>
    refine left.append (.cons (by decide) (.cons ?_ right))
    cases anyCase <;> decide
  | between _ _ _ _ ih below above =>
    exact ih.append ((Balanced.words (nots.words _)).append (.cons (by decide) (below.append (.cons (by decide) above))))
  | inList _ _ _ ih items =>
    exact ih.append ((Balanced.words (nots.words _)).append (.cons (by decide) items.wrap))
  | bin _ _ _ left right => exact left.append (.cons (symWord _) right)
  | none_ => exact .words nofun
  | one _ ih => exact ih
  | more _ _ _ head tail => exact head.append (.cons (by decide) tail)

theorem countAppend (A B : List TkType) : wordCount (A ++ B) = wordCount A + wordCount B := List.countP_append ..

theorem countWord {ty : TkType} (h : ty ≠ .lparen ∧ ty ≠ .rparen) (A : List TkType) : wordCount (ty :: A) = wordCount A + 1 :=
  List.countP_cons_of_pos (by simpa using h)

theorem countWrap (A : List TkType) : wordCount (.lparen :: (A ++ [.rparen])) = wordCount A := by
  rw [← List.singleton_append,countAppend,countAppend]
  exact Nat.zero_add _

theorem countNots (negated : Bool) : wordCount (nots negated) = if negated then 1 else 0 := by cases negated <;> rfl

theorem countDistincts (distinct : Bool) : wordCount (distincts distinct) = if distinct then 1 else 0 := by cases distinct <;> rfl

theorem opOne (op : BinOp) : opWords op.op = 1 := by cases op <;> rfl

theorem likeWords (anyCase : Bool) : opWords (if anyCase then .notIlike else .notLike) = 2 := by cases anyCase <;> rfl

theorem betweenWords (negated : Bool) : opWords (if negated then .notBetween else .between) = 1 + if negated then 1 else 0 := by
  cases negated <;> rfl

theorem inWords (negated : Bool) : opWords (if negated then .notIn else .in_) = 1 + if negated then 1 else 0 := by
  cases negated <;> rfl

theorem weightSingle (h : single e) : weight e = 1 := by
  cases e with
  | col table name =>
    cases table with
    | none => rfl
    | some _ => cases h
  | func | binop | unop | list => cases h
  | _ => rfl

/-- The words of a reading are those the expression is written with. -/
theorem Derives.count (h : Derives strict md e T) : wordCount T = weight e := by
  induction h with
  | single is one =>
    rw [weightSingle one,countWord (singleTypes.words _ is)]
    rfl
  | qualified => rfl
  | @callStar name distinct =>
    rw [countWord (by decide),← List.singleton_append,countAppend,countAppend,countDistincts,weight]
    simp only [weights,weight,List.isEmpty_nil,if_true]
    have : wordCount [TkType.lparen] = 0 ∧ wordCount [TkType.star,.rparen] = 1 := ⟨rfl,rfl⟩
    omega
  | @call name distinct args T _ ih =>
    rw [weight] at ih
    rw [countWord (by decide),← List.append_assoc,countWrap,countAppend,countDistincts,weight]
    omega
  | group _ ih => rw [countWrap,ih]
  | sign is _ _ _ ih =>
    rcases List.mem_pair.mp is with is | is <;> cases is <;> rw [countWord (by decide),ih,weight] <;> exact Nat.add_comm _ _
  | prim _ ih => exact ih
  | @isNull _ _ negated _ _ _ _ ih =>
    rw [countAppend,ih,countWord (by decide),countAppend,countNots,weight]
    cases negated <;> exact Nat.add_comm _ _
  | @notLike _ _ _ anyCase _ _ _ _ _ _ _ left right =>
    rw [countAppend,left,countWord (by decide),countWord (by cases anyCase <;> decide),right,weight,likeWords]
    omega
  | @between _ _ _ _ negated _ _ _ _ _ _ _ _ _ _ ih below above =>
    rw [countAppend,ih,countAppend,countNots,countWord (by decide),countAppend,below,countWord (by decide),above,weight,weight,betweenWords,
      show opWords .and_ = 1 from rfl]
    omega
  | @inList _ _ negated _ _ _ _ _ _ _ ih items =>
    rw [countAppend,ih,countAppend,countNots,countWord (by decide),countWrap,items,weight,inWords]
    omega
  | bin _ _ _ left right =>
    rw [countAppend,left,countWord (symWord _),right,weight,opOne]
    omega
  | none_ => rfl
  | one _ ih =>
    rw [ih,weight,weights,weights]
    rfl
  | more some_ _ _ head tail =>
    rw [weight] at tail
    rw [countAppend,head,countWord (by decide),tail,weight,weights,if_neg (by simpa using some_)]
    omega

theorem Derives.nonempty (h : Derives strict md e T) (is : md ≠ .items) : T ≠ [] := by
  induction h with
  | single | qualified | callStar | call | group | sign => exact List.cons_ne_nil _ _
  | prim _ ih => exact ih (by nofun)
  | none_ | one | more => exact absurd rfl is
  | _ => exact List.append_ne_nil_of_right_ne_nil _ (by simp)

/-- What reads a group reads its inside. -/
theorem Derives.inside (h : Derives strict md e T) (is : md ≠ .items) {W : List TkType} (w : Balanced W)
    (group : T = .lparen :: (W ++ [.rparen])) : ∃ m o, Derives strict (.expr m o) e W := by
  induction h with
  | single => simp at group
  | qualified => cases group
  | callStar | call => cases group
  | sign is =>
    obtain ⟨rfl,_⟩ := List.cons.inj group
    rcases List.mem_pair.mp is with is | is <;> cases is
  | @group m o e T inner =>
    obtain ⟨_,same⟩ := List.cons.inj group
    exact ⟨m,o,List.append_cancel_right same ▸ inner⟩
  | prim _ ih => exact ih (by nofun) group
  | isNull _ left => exact (w.noSplit group.symm (left.nonempty nofun) (List.cons_ne_nil _ _) left.balanced).elim
  | notLike _ left => exact (w.noSplit group.symm (left.nonempty nofun) (List.cons_ne_nil _ _) left.balanced).elim
  | between _ left => exact (w.noSplit group.symm (left.nonempty nofun) (by simp) left.balanced).elim
  | inList _ left => exact (w.noSplit group.symm (left.nonempty nofun) (by simp) left.balanced).elim
  | bin _ left => exact (w.noSplit group.symm (left.nonempty nofun) (List.cons_ne_nil _ _) left.balanced).elim
  | none_ | one | more => exact absurd rfl is

end

/-! ### The readings of a tree's own words -/

def Word.type : Word → TkType
  | .name _ => .ident
  | .digits _ => .numInt
  | .fraction _ => .numFloat
  | .quoted _ => .string
  | .sym s => s.type

def types (ws : List Word) : List TkType := ws.map Word.type

namespace Tree

theorem typesAppend (a b : List Word) : types (a ++ b) = types a ++ types b := List.map_append

theorem typesCons (w : Word) (ws : List Word) : types (w :: ws) = w.type :: types ws := rfl

theorem typesWrap (ws : List Word) : types (.sym .lparen :: (ws ++ [.sym .rparen])) = .lparen :: (types ws ++ [.rparen]) := by
  rw [typesCons,typesAppend]
  rfl

theorem typesNot (negated : Bool) : types (notWord negated) = nots negated := by cases negated <;> rfl

theorem typesDistinct (distinct : Bool) : types (if distinct then [.sym .distinct] else []) = distincts distinct := by
  cases distinct <;> rfl

section
variable {F : Type}

/-- Some reading of an expression at every precedence. -/
def Loose (e : Expr F) (T : List TkType) : Prop := ∀ m, ∃ o, Derives false (.expr m o) e T

theorem Loose.ofPrim {e : Expr F} {T : List TkType} (h : Derives false .prim e T) : Loose e T := fun _ => ⟨true,.prim h⟩

variable [JsonDoubles F]

theorem Loose.placed {t : Tree} (h : Loose (t.ast F) (types t.words)) (p : Nat) : Loose (t.ast F) (types (placed p t t.words)) := by
  rw [Tree.placed]
  split
  · obtain ⟨o,inner⟩ := h 0
    rw [typesWrap]
    exact .ofPrim (.group inner)
  · exact h

mutual
theorem wordsLoose : (t : Tree) → Loose (t.ast F) (types t.words)
  | col none _ | int _ | float _ | str _ | null => .ofPrim (.single (by simp [Word.type,Sym.type,singleTypes]) rfl)
  | bool b => .ofPrim (.single (by cases b <;> decide) rfl)
  | col (some _) _ => .ofPrim .qualified
  | call name distinct args => by
    rw [words,typesCons,typesCons,typesAppend,typesAppend,typesDistinct]
    exact .ofPrim (.call (listLoose args))
  | callStar name distinct => by
    rw [words,typesCons,typesCons,typesAppend,typesDistinct]
    exact .ofPrim .callStar
  | bin op l r => fun m => by
    obtain ⟨_,left⟩ := (wordsLoose l).placed op.prec m
    obtain ⟨_,right⟩ := (wordsLoose r).placed (op.prec + 1) (op.prec + 1)
    rw [words,typesAppend]
    exact ⟨false,.bin nofun left right⟩
  | not_ t => by
    obtain ⟨o,inner⟩ := (wordsLoose t).placed 3 0
    exact .ofPrim (.sign (by decide) (by nofun) nofun inner)
  | neg t => by
    obtain ⟨o,inner⟩ := (wordsLoose t).placed 8 0
    exact .ofPrim (.sign (by decide) (by nofun) nofun inner)
  | isNull negated t => fun m => by
    obtain ⟨_,left⟩ := (wordsLoose t).placed 4 m
    rw [words,typesAppend,typesCons,typesAppend,typesNot]
    exact ⟨true,.isNull nofun left⟩
  | notLike anyCase l r => fun m => by
    obtain ⟨_,left⟩ := (wordsLoose l).placed 4 m
    obtain ⟨_,right⟩ := (wordsLoose r).placed 5 5
    refine ⟨false,?_⟩
    cases anyCase <;> rw [words,typesAppend] <;> exact .notLike nofun left right
  | between negated t low high => fun m => by
    obtain ⟨_,left⟩ := (wordsLoose t).placed 4 m
    obtain ⟨_,below⟩ := (wordsLoose low).placed 5 6
    obtain ⟨_,above⟩ := (wordsLoose high).placed 5 6
    rw [words,typesAppend,typesAppend,typesNot,typesCons,typesAppend,typesCons]
    exact ⟨false,.between nofun left below above⟩
  | inList negated t items => fun m => by
    obtain ⟨_,left⟩ := (wordsLoose t).placed 4 m
    rw [words,typesAppend,typesAppend,typesNot,typesCons,typesCons,typesAppend]
    exact ⟨true,.inList nofun left (listLoose items)⟩

theorem listLoose : (ts : List Tree) → Derives false .items (.list (asts F ts)) (types (listWords ts))
  | [] => .none_
  | [t] => by
    obtain ⟨o,head⟩ : ∃ o, Derives false (.expr 0 o) (t.ast F) (types t.words) := wordsLoose t 0
    rw [listWords,List.isEmpty_nil,if_pos rfl,List.append_nil]
    exact .one head
  | t :: v :: ts => by
    obtain ⟨o,head⟩ : ∃ o, Derives false (.expr 0 o) (t.ast F) (types t.words) := wordsLoose t 0
    rw [listWords,List.isEmpty_cons,if_neg Bool.false_ne_true,typesAppend,typesCons]
    exact .more (List.cons_ne_nil _ _) head (listLoose (v :: ts))
end

end

end Tree

end Napastak.SqlParser
