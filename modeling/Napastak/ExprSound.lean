import Napastak.ExprSticky
import Napastak.ExprPlaces

/-! What the expression parser reads of the words of a tree when it sets no error: a strict reading. -/
namespace Napastak.SqlParser
open Query Sql

/-! ### Runs without an error -/

theorem foreignNext {p : Place} {K : Opens} {ty : TkType} (h : ty ∈ foreign) : p.next ty K = none := by
  simp only [foreign,List.mem_cons,List.not_mem_nil,or_false] at h
  rcases h with rfl | rfl | rfl | rfl | rfl | rfl <;> cases p <;> rfl

section
variable {p q : Place} {K K' : Opens} {ty : TkType} {F : Type} [JsonDoubles F] {R S : List (Token F)} {er : Option String} {e : Expr F} {m : Int} {n : Nat}

def tokenTypes (R : List (Token F)) : List TkType := R.map (·.type)

omit [JsonDoubles F] in
theorem Valid.tame (h : Valid p K (tokenTypes R)) : Tame R := by
  induction R generalizing p K with
  | nil => nofun
  | cons t R ih =>
    obtain ⟨q,K',next,rest⟩ := h.step
    refine List.forall_mem_cons.mpr ⟨fun m => ?_,ih rest⟩
    rw [foreignNext m] at next
    cases next

/-- The tokens from `R` to `S` are read as an expression, and an operator may follow. -/
def ReadsTo (md : Mode) (K : Opens) (e : Expr F) (R S : List (Token F)) : Prop :=
  ∃ A, tokenTypes R = A ++ tokenTypes S ∧ Derives true md e A ∧ Valid .operator K (tokenTypes S)

/-- The tokens from `R` to `S` go on an expression, as far as its precedence lets it. -/
def LoopsTo (m : Int) (K : Opens) (e : Expr F) (A : List TkType) (R S : List (Token F)) : Prop :=
  (∃ o B, tokenTypes R = B ++ tokenTypes S ∧ Derives true (.expr m o) e (A ++ B) ∧ Valid .operator K (tokenTypes S)) ∧ Stops m S

/-- The tokens from `R` to `S` are read as a list whose closing parenthesis is ahead. -/
def ListsTo (K : Opens) (es : List (Expr F)) (R S : List (Token F)) : Prop :=
  ∃ A u T, tokenTypes R = A ++ tokenTypes S ∧ es ≠ [] ∧ Derives true .items (.list es) A ∧ S = u :: T ∧ u.type = .rparen ∧
    Valid .operator K (tokenTypes T)

structure Sound (F : Type) [JsonDoubles F] (n : Nat) : Prop where
  prim : ∀ {K : Opens} {R S : List (Token F)} {er e}, Valid .operand K (tokenTypes R) → parsePrimary n ⟨R,er⟩ = some (e,⟨S,none⟩) →
    ReadsTo .prim K e R S
  call : ∀ {K : Opens} {R S : List (Token F)} {er e name}, Valid .opened (true :: K) (tokenTypes R) →
    parseCall n name ⟨R,er⟩ = some (e,⟨S,none⟩) →
    ∃ A, tokenTypes R = A ++ tokenTypes S ∧ Derives true .prim e (.ident :: .lparen :: A) ∧ Valid .operator K (tokenTypes S)
  args : ∀ {K : Opens} {R S : List (Token F)} {er es}, Valid .operand (true :: K) (tokenTypes R) →
    parseArgs n ⟨R,er⟩ = some (es,⟨S,none⟩) → ListsTo K es R S
  list : ∀ {K : Opens} {R S : List (Token F)} {er es}, Valid .operand (true :: K) (tokenTypes R) →
    parseList n ⟨R,er⟩ = some (es,⟨S,none⟩) → ListsTo K es R S
  expr : ∀ {K : Opens} {R S : List (Token F)} {er e} {m : Int}, 0 ≤ m → Valid .operand K (tokenTypes R) →
    parseExpr n m ⟨R,er⟩ = some (e,⟨S,none⟩) → LoopsTo m K e [] R S
  loop : ∀ {K : Opens} {R S : List (Token F)} {er e lhs o A} {m : Int}, 0 ≤ m → Valid .operator K (tokenTypes R) →
    Derives true (.expr m o) lhs A → (o = true ∨ ∃ k, Stops k R) → exprLoop n m lhs ⟨R,er⟩ = some (e,⟨S,none⟩) →
    LoopsTo m K e A R S
  range : ∀ {K : Opens} {R S : List (Token F)} {er e}, Valid .operand K (tokenTypes R) → parseRange n ⟨R,er⟩ = some (e,⟨S,none⟩) →
    ∃ low high A B o1 o2, e = .binop .and_ low high ∧ tokenTypes R = A ++ .and_ :: (B ++ tokenTypes S) ∧
      Derives true (.expr 6 o1) low A ∧ Derives true (.expr 6 o2) high B ∧ Valid .operator K (tokenTypes S) ∧ Stops 6 S
  items : ∀ {K : Opens} {R S : List (Token F)} {er e}, Valid .member K (tokenTypes R) → parseItems n ⟨R,er⟩ = some (e,⟨S,none⟩) →
    ∃ es A, e = .list es ∧ tokenTypes R = .lparen :: (A ++ .rparen :: tokenTypes S) ∧ Derives true .items (.list es) A ∧
      Valid .operator K (tokenTypes S)

/-! ### What is ahead -/

omit [JsonDoubles F] in
theorem tokensCons (t : Token F) (R : List (Token F)) : tokenTypes (t :: R) = t.type :: tokenTypes R := rfl

omit [JsonDoubles F] in
theorem Valid.token {t : Token F} (h : Valid p K (tokenTypes (t :: R))) :
    ∃ q K', p.next t.type K = some (q,K') ∧ Valid q K' (tokenTypes R) := h.step

omit [JsonDoubles F] in
theorem Valid.eat {t : Token F} (h : Valid p K (tokenTypes (t :: R))) (is : t.type = ty) (next : p.next ty K = some (q,K')) :
    Valid q K' (tokenTypes R) := by
  rw [← is] at next
  exact Valid.into h next

omit [JsonDoubles F] in
/-- Where an expression may not end, a word comes. -/
theorem Valid.more (h : Valid p K (tokenTypes R)) (unended : p ≠ .operator ∧ p ≠ .named) :
    ∃ u T q K', R = u :: T ∧ p.next u.type K = some (q,K') ∧ Valid q K' (tokenTypes T) := by
  cases R with
  | nil => rcases h.1 with is | is <;> simp [is] at unended
  | cons u T =>
    obtain ⟨q,K',next,rest⟩ := h.token
    exact ⟨u,T,q,K',rfl,next,rest⟩

theorem aheadSplit (h : ahead R = ty) (some_ : ty ≠ .eof) : ∃ u T, R = u :: T ∧ u.type = ty := by
  cases R with
  | nil => exact absurd h.symm some_
  | cons u T => exact ⟨u,T,rfl,h⟩

theorem Valid.notClosed (h : Valid .operand K (tokenTypes R)) : ahead R ≠ .rparen := by
  intro is
  obtain ⟨u,T,rfl,close⟩ := aheadSplit is (by decide)
  obtain ⟨q,K',next,_⟩ := h.token
  rw [close] at next
  cases next

/-- A list that neither a star nor its end is ahead of begins with an operand. -/
theorem Valid.unlisted (h : Valid .chosen (true :: K) (tokenTypes R)) (star : ahead R ≠ .star) (close : ahead R ≠ .rparen) :
    Valid .operand (true :: K) (tokenTypes R) := by
  obtain ⟨t,R,q,K',rfl,next,rest⟩ := h.more (by decide)
  exact .cons (((if_neg star).trans (if_neg close)).symm.trans next) rest

theorem Valid.notDistinct (h : Valid .opened K (tokenTypes R)) (distinct : ahead R ≠ .distinct) : Valid .chosen K (tokenTypes R) := by
  obtain ⟨t,R,q,K',rfl,next,rest⟩ := h.more (by decide)
  exact .cons ((if_neg distinct).symm.trans next) rest

theorem Valid.notListed (h : Valid .listed K (tokenTypes R)) (close : ahead R ≠ .rparen) : Valid .operand K (tokenTypes R) := by
  obtain ⟨t,R,q,K',rfl,next,rest⟩ := h.more (by decide)
  exact .cons ((if_neg close).symm.trans next) rest

omit [JsonDoubles F] in
/-- Behind IN comes a parenthesis. -/
theorem Valid.opening (h : Valid .member K (tokenTypes R)) :
    ∃ u T, R = u :: T ∧ u.type = .lparen ∧ Valid .listed (true :: K) (tokenTypes T) := by
  obtain ⟨u,T,q,K',rfl,next,rest⟩ := h.more (by decide)
  by_cases open_ : u.type = .lparen
  · cases (if_pos open_).symm.trans next
    exact ⟨u,T,rfl,open_,rest⟩
  · cases (if_neg open_).symm.trans next

/-- Behind IS comes NULL or NOT NULL. -/
theorem Valid.nulls (h : Valid .tested K (tokenTypes R)) : ∃ (negated : Bool) (d u : Token F) (T : List (Token F)),
    R = (if negated then [d] else []) ++ u :: T ∧ d.type = .not_ ∧ u.type = .null ∧ Valid .operator K (tokenTypes T) := by
  obtain ⟨u,T,q,K',rfl,next,rest⟩ := h.more (by decide)
  by_cases null : u.type = .null
  · cases (if_pos null).symm.trans next
    exact ⟨false,tok F .not_,u,T,rfl,rfl,null,rest⟩
  replace next := (if_neg null).symm.trans next
  by_cases not : u.type = .not_
  · cases (if_pos not).symm.trans next
    obtain ⟨v,T,q,K',rfl,next,rest⟩ := rest.more (by decide)
    by_cases null : v.type = .null
    · cases (if_pos null).symm.trans next
      exact ⟨true,u,v,T,rfl,not,null,rest⟩
    · cases (if_neg null).symm.trans next
  · cases (if_neg not).symm.trans next

omit [JsonDoubles F] in
/-- Behind NOT comes a predicate. -/
theorem Valid.negatedCases (h : Valid .negated K (tokenTypes R)) : ∃ u T, R = u :: T ∧
    ((∃ anyCase : Bool, u.type = (if anyCase then .ilike else .like) ∧ Valid .operand K (tokenTypes T)) ∨
      (u.type = .between ∧ Valid .operand K (tokenTypes T)) ∨ (u.type = .in_ ∧ Valid .member K (tokenTypes T))) := by
  obtain ⟨u,T,q,K',rfl,next,rest⟩ := h.more (by decide)
  refine ⟨u,T,rfl,?_⟩
  by_cases predicate : u.type = .like ∨ u.type = .ilike ∨ u.type = .between
  · cases (if_pos predicate).symm.trans next
    rcases predicate with is | is | is
    · exact .inl ⟨false,is,rest⟩
    · exact .inl ⟨true,is,rest⟩
    · exact .inr (.inl ⟨is,rest⟩)
  replace next := (if_neg predicate).symm.trans next
  by_cases in_ : u.type = .in_
  · cases (if_pos in_).symm.trans next
    exact .inr (.inr ⟨in_,rest⟩)
  · cases (if_neg in_).symm.trans next

/-- A name that no dot and no parenthesis follows is an operand. -/
theorem Valid.unnamed (h : Valid .named K (tokenTypes R)) (call : ahead R ≠ .lparen) (dot : ahead R ≠ .dot) :
    Valid .operator K (tokenTypes R) := by
  cases R with
  | nil => exact ⟨.inl rfl,h.2⟩
  | cons t R =>
    obtain ⟨q,K',next,rest⟩ := h.step
    exact .cons (((if_neg dot).trans (if_neg call)).symm.trans next) rest

/-- Behind an expression inside parentheses comes their end or, in a list, a comma. -/
theorem Valid.insideEnd {b : Bool} (h : Valid .operator (b :: K) (tokenTypes R)) (stops : Stops 0 R) :
    ∃ u T, R = u :: T ∧ ((u.type = .rparen ∧ Valid .operator K (tokenTypes T)) ∨
      (u.type = .comma ∧ b = true ∧ Valid .operand (b :: K) (tokenTypes T))) := by
  cases R with
  | nil => exact absurd h.2 (List.cons_ne_nil _ _)
  | cons u T =>
    obtain ⟨q,K',next,rest⟩ := h.step
    obtain ⟨is,not,between,in_,low⟩ := stops
    refine ⟨u,T,rfl,?_⟩
    rcases atOperatorCases next with ⟨op,same,_⟩ | ⟨same,_⟩ | ⟨same,_⟩ | ⟨same,_⟩ | ⟨same,_⟩ | ⟨same,list,to_⟩ | ⟨same,to_⟩
    · rw [aheadCons same,symPrec] at low
      omega
    · exact absurd same between
    · exact absurd same is
    · exact absurd same not
    · exact absurd same in_
    · cases to_
      exact .inr ⟨same,Option.some.inj list,rest⟩
    · cases to_
      exact .inl ⟨same,rest⟩

theorem peekBind {α : Type} (g : Token F → Parse F α) : (lexPeek >>= g) ⟨R,er⟩ = g (R.head?.getD eof) ⟨R,er⟩ := rfl

theorem consumeBind {α : Type} (g : Token F → Parse F α) : (lexConsume >>= g) ⟨R,er⟩ = g (R.head?.getD eof) ⟨R.tail,er⟩ := rfl

theorem eatBind {α : Type} {t : Token F} {ty : TkType} (is : t.type = ty) (g : Bool → Parse F α) :
    (lexEat ty >>= g) ⟨t :: R,er⟩ = g true ⟨R,er⟩ :=
  congrArg (fun r => r.bind fun p => g p.1 p.2) (eatSame is)

theorem missBind {α : Type} {ty : TkType} (other : ahead R ≠ ty) (g : Bool → Parse F α) :
    (lexEat ty >>= g) ⟨R,er⟩ = g false ⟨R,er⟩ :=
  congrArg (fun r => r.bind fun p => g p.1 p.2) (eatOther other)

theorem peekIsBind {α : Type} {ty : TkType} (other : ahead R ≠ ty) (g : Bool → Parse F α) :
    (lexPeekIs ty >>= g) ⟨R,er⟩ = g false ⟨R,er⟩ :=
  congrArg (fun r => r.bind fun p => g p.1 p.2) (peekIsOther other)

theorem closeBind {α : Type} {t : Token F} {ty : TkType} (is : t.type = ty) (g : Bool → Parse F α) :
    (lexPeekIs ty >>= g) ⟨t :: R,er⟩ = g true ⟨t :: R,er⟩ :=
  congrArg (fun b => g b ⟨t :: R,er⟩) (decide_eq_true is)

theorem maybeBind {α : Type} {ty : TkType} (there : Bool) {d : Token F} (is : d.type = ty) (other : ahead R ≠ ty) (g : Bool → Parse F α) :
    (lexEat ty >>= g) ⟨(if there then [d] else []) ++ R,er⟩ = g there ⟨R,er⟩ :=
  congrArg (fun r => r.bind fun p => g p.1 p.2) (eatMaybe there is other)

theorem queryBind {α : Type} (tame : Tame R) (g : Bool → Parse F α) : (peekQuery >>= g) ⟨R,er⟩ = g false ⟨R,er⟩ :=
  congrArg (fun r => r.bind fun p => g p.1 p.2) (noQuery (fun is => headTame tame (by rw [ahead] at is; rw [is]; decide))
    fun is => headTame tame (by rw [ahead] at is; rw [is]; decide))

/-- The words that open a primary. -/
def starts : List TkType :=
  [.case_,.exists_,.cast_,.numInt,.numFloat,.string,.null,.true_,.false_,.star,.minus,.not_,.lparen,.ident]

/-- A run without an error needs something. -/
def Needs {α : Type} (f : Parse F α) (P : Prop) : Prop := ∀ l a l', f l = some (a,l') → l'.error = none → P

omit [JsonDoubles F] in
theorem Needs.bind {α β : Type} {f : Parse F α} {g : α → Parse F β} {P : Prop} (h : ∀ a, Needs (g a) P) : Needs (f >>= g) P := by
  intro l b l' run fine
  obtain ⟨⟨a,l1⟩,_,rest⟩ := Option.bind_eq_some_iff.mp run
  exact h a l1 b l' rest fine

theorem primStarts (run : parsePrimary n ⟨R,er⟩ = some (e,⟨S,none⟩)) : ahead R ∈ starts := by
  cases n with
  | zero => cases run
  | succ n =>
    simp only [parsePrimary] at run
    have needs : ∀ (g : Token F → Parse F (Expr F)), (∀ t, Needs (g t) (t.type ∈ starts)) →
        (lexPeek >>= g) ⟨R,er⟩ = some (e,⟨S,none⟩) → ahead R ∈ starts := fun g each run => each _ _ _ _ run rfl
    refine needs _ (fun t => .bind fun _ => ?_) run
    split
    case h_15 =>
      intro l a l' run fine
      cases run
      cases (Option.or_eq_none_iff.mp fine).2
    all_goals
      rename_i is
      rw [is]
      exact fun _ _ _ _ _ => by decide

theorem exprStarts (run : parseExpr n m ⟨R,none⟩ = some (e,⟨S,none⟩)) (tame : Tame R) : ahead R ∈ starts := by
  cases n with
  | zero => cases run
  | succ n =>
    simp only [parseExpr] at run
    obtain ⟨lhs,T,_,step,_⟩ := Sticks.split (sticky F n).prim (fun e _ => (sticky F n).loop m e) tame run
    exact primStarts step

/-- What ends an operand of BETWEEN opens no primary. -/
theorem Valid.notStarts (h : Valid .operator K (tokenTypes R)) (stops : Stops 6 R) : ahead R ∉ starts := by
  cases R with
  | nil => exact (by decide : TkType.eof ∉ starts)
  | cons u T =>
    obtain ⟨q,K',next,_⟩ := h.token
    obtain ⟨is,not,between,in_,low⟩ := stops
    rcases atOperatorCases next with ⟨op,same,_⟩ | ⟨same,_⟩ | ⟨same,_⟩ | ⟨same,_⟩ | ⟨same,_⟩ | ⟨same,_⟩ | ⟨same,_⟩
    · rw [aheadCons same,symPrec] at low
      rw [aheadCons same]
      revert low
      cases op <;> decide
    · exact absurd same between
    · exact absurd same is
    · exact absurd same not
    · exact absurd same in_
    · rw [aheadCons same]
      decide
    · rw [aheadCons same]
      decide

/-! ### One step of each parser -/

section
variable (h : Sound F n)
include h

theorem nameSound {t : Token F} (is : t.type = .ident) (valid : Valid .named K (tokenTypes R))
    (run : (do
      if ← lexEat .lparen then parseCall n t.text
      else if ← lexEat .dot then return .col (some t.text) (← lexConsume).text
      else return .col none t.text : Parse F (Expr F)) ⟨R,er⟩ = some (e,⟨S,none⟩)) : ReadsTo .prim K e (t :: R) S := by
  by_cases call : ahead R = .lparen
  · obtain ⟨u,T,rfl,open_⟩ := aheadSplit call (by decide)
    rw [eatBind open_,if_pos rfl] at run
    have inside : Valid .opened (true :: K) (tokenTypes T) := valid.eat open_ rfl
    obtain ⟨A,split,read,after⟩ := h.call inside run
    refine ⟨.ident :: .lparen :: A,?_,read,after⟩
    rw [tokensCons,tokensCons,split,is,open_]
    rfl
  · rw [missBind call,if_neg Bool.false_ne_true] at run
    by_cases dot : ahead R = .dot
    · obtain ⟨u,T,rfl,point⟩ := aheadSplit dot (by decide)
      have behind : Valid .dotted K (tokenTypes T) := valid.eat point rfl
      rw [eatBind point,if_pos rfl,consumeBind] at run
      obtain ⟨v,T,q,K',rfl,next,rest⟩ := behind.more (by decide)
      cases run
      by_cases name : v.type = .ident
      · cases (if_pos name).symm.trans next
        exact ⟨[.ident,.dot,.ident],by rw [tokensCons,tokensCons,tokensCons,is,point,name]; rfl,.qualified,rest⟩
      · cases (if_neg name).symm.trans next
    · rw [missBind dot,if_neg Bool.false_ne_true] at run
      cases run
      exact ⟨[.ident],by rw [tokensCons,is]; rfl,.single (by decide) rfl,valid.unnamed call dot⟩

theorem primSound (valid : Valid .operand K (tokenTypes R)) (run : parsePrimary (n + 1) ⟨R,er⟩ = some (e,⟨S,none⟩)) :
    ReadsTo .prim K e R S := by
  obtain ⟨t,R,q,K',rfl,next,rest⟩ := valid.more (by decide)
  simp only [parsePrimary] at run
  rw [peekBind,consumeBind,List.head?_cons,Option.getD_some,List.tail_cons] at run
  rcases atOperandCases next with ⟨alone,to_⟩ | ⟨is,to_⟩ | ⟨is,to_⟩ | ⟨is,to_⟩
  · cases to_
    simp only [List.mem_cons,List.not_mem_nil,or_false] at alone
    rcases alone with is | is | is | is | is | is <;> rw [is] at run <;> cases run <;>
      exact ⟨[t.type],rfl,.single (by rw [is]; decide) rfl,rest⟩
  · cases to_
    rw [is] at run
    exact nameSound h is rest run
  · cases to_
    rw [is] at run
    dsimp only at run
    rw [queryBind rest.tame,if_neg Bool.false_ne_true] at run
    obtain ⟨inner,T,_,step,last⟩ := Sticks.split ((sticky F n).expr 0) (fun _ _ => closeSticks _) rest.tame run
    obtain ⟨⟨o,A,split,read,after⟩,stops⟩ := h.expr (Int.le_refl _) rest step
    obtain ⟨u,T,rfl,⟨close,after⟩ | ⟨_,none_,_⟩⟩ := after.insideEnd stops
    · rw [eatBind close] at last
      cases last
      refine ⟨.lparen :: (A ++ [.rparen]),?_,.group read,after⟩
      rw [tokensCons,split,tokensCons,is,close,List.cons_append,List.append_assoc]
      rfl
    · cases none_
  · cases to_
    simp only [List.mem_cons,List.not_mem_nil,or_false] at is
    rcases is with is | is <;> rw [is] at run <;>
      obtain ⟨inner,T,_,step,last⟩ := Sticks.split (q := fun _ => True) (sticky F n).prim (fun _ _ => sticksPure trivial) rest.tame run <;> cases last <;>
      obtain ⟨A,split,read,after⟩ := h.prim rest step
    · refine ⟨.minus :: A,?_,.sign List.mem_cons_self (show Mode.prim ≠ .items by rintro ⟨⟩) (fun _ => rfl) read,after⟩
      rw [tokensCons,split,is]
      rfl
    · refine ⟨.not_ :: A,?_,.sign (by decide) (show Mode.prim ≠ .items by rintro ⟨⟩) (fun _ => rfl) read,after⟩
      rw [tokensCons,split,is]
      rfl

theorem exprSound (low : 0 ≤ m) (valid : Valid .operand K (tokenTypes R)) (run : parseExpr (n + 1) m ⟨R,er⟩ = some (e,⟨S,none⟩)) :
    LoopsTo m K e [] R S := by
  simp only [parseExpr] at run
  obtain ⟨lhs,T,_,step,last⟩ := Sticks.split (sticky F n).prim (fun e _ => (sticky F n).loop m e) valid.tame run
  obtain ⟨A,split,read,after⟩ := h.prim valid step
  obtain ⟨⟨o,B,split',read',after'⟩,stops⟩ := h.loop low after (.prim read) (.inl rfl) last
  exact ⟨⟨o,A ++ B,by rw [split,split',List.append_assoc],read',after'⟩,stops⟩

/-- One operand of a list and what follows its comma. -/
theorem itemSound {es : List (Expr F)} {more : Parse F (List (Expr F))} (sticks : Sticks more fun _ => True)
    (later : ∀ {R S : List (Token F)} {er es}, Valid .operand (true :: K) (tokenTypes R) → more ⟨R,er⟩ = some (es,⟨S,none⟩) →
      ListsTo K es R S) (valid : Valid .operand (true :: K) (tokenTypes R))
    (run : (do
      let e ← parseExpr n 0
      if ← lexEat .comma then return e :: (← more)
      return [e] : Parse F (List (Expr F))) ⟨R,er⟩ = some (es,⟨S,none⟩)) : ListsTo K es R S := by
  obtain ⟨e,T,tame,step,last⟩ := Sticks.split ((sticky F n).expr 0) (fun e _ => moreSticks sticks e) valid.tame run
  obtain ⟨⟨o,A,split,read,after⟩,stops⟩ := h.expr (Int.le_refl _) valid step
  obtain ⟨u,T,rfl,⟨close,after⟩ | ⟨comma,_,after⟩⟩ := after.insideEnd stops
  · rw [missBind (by rw [aheadCons close]; decide),if_neg Bool.false_ne_true] at last
    cases last
    exact ⟨A,u,T,split,List.cons_ne_nil _ _,.one read,rfl,close,after⟩
  · rw [eatBind comma,if_pos rfl] at last
    obtain ⟨es,S,_,step,last⟩ := Sticks.split (q := fun _ => True) sticks (fun _ _ => sticksPure trivial) (tailTame tame) last
    cases last
    obtain ⟨B,v,S,split',some_,read',rfl,close,after⟩ := later after step
    refine ⟨A ++ .comma :: B,v,S,?_,List.cons_ne_nil _ _,.more some_ read read',rfl,close,after⟩
    rw [split,tokensCons,comma,split',List.append_assoc]
    rfl

theorem listSound {es : List (Expr F)} (valid : Valid .operand (true :: K) (tokenTypes R))
    (run : parseList (n + 1) ⟨R,er⟩ = some (es,⟨S,none⟩)) : ListsTo K es R S := by
  simp only [parseList] at run
  exact itemSound h (sticky F n).list h.list valid run

theorem argsSound {es : List (Expr F)} (valid : Valid .operand (true :: K) (tokenTypes R))
    (run : parseArgs (n + 1) ⟨R,er⟩ = some (es,⟨S,none⟩)) : ListsTo K es R S := by
  simp only [parseArgs] at run
  rw [peekIsBind valid.notClosed,if_neg Bool.false_ne_true] at run
  exact itemSound h (sticky F n).args h.args valid run

omit h in
/-- The end of a call once its arguments are read. -/
theorem callClosed {name : Bytes} {args : List (Expr F)} {distinct : Bool} {u : Token F} (close : u.type = .rparen)
    (after : Valid .operator K (tokenTypes R))
    (run : (do
      let _ ← lexEat .rparen
      if ← lexEat .over_ then return .window name args distinct (← parseWindowSpec n)
      return .func name args distinct : Parse F (Expr F)) ⟨u :: R,er⟩ = some (e,⟨S,none⟩)) : e = .func name args distinct ∧ S = R := by
  have noOver : ahead R ≠ .over_ := fun is => headTame after.tame (by rw [ahead] at is; rw [is]; decide)
  rw [eatBind close,missBind noOver,if_neg Bool.false_ne_true] at run
  cases run
  exact ⟨rfl,rfl⟩

/-- A call behind its DISTINCT. -/
theorem chosenSound {name : Bytes} {distinct : Bool} (valid : Valid .chosen (true :: K) (tokenTypes R))
    (run : (do
      let args ← do
        if ← lexEat .star then pure [.star none]
        else if ← lexPeekIs .rparen then pure []
        else parseArgs n
      let _ ← lexEat .rparen
      if ← lexEat .over_ then return .window name args distinct (← parseWindowSpec n)
      return .func name args distinct : Parse F (Expr F)) ⟨R,er⟩ = some (e,⟨S,none⟩)) :
    ∃ A, tokenTypes R = A ++ tokenTypes S ∧ Derives true .prim e (.ident :: .lparen :: (distincts distinct ++ A)) ∧
      Valid .operator K (tokenTypes S) := by
  by_cases star : ahead R = .star
  · obtain ⟨s,T,rfl,is⟩ := aheadSplit star (by decide)
    rw [eatBind is,if_pos rfl] at run
    have starred : Valid .starred (true :: K) (tokenTypes T) := valid.eat is rfl
    obtain ⟨u,T,q,K',rfl,next,after⟩ := starred.more (by decide)
    by_cases close : u.type = .rparen
    · cases (if_pos close).symm.trans next
      obtain ⟨rfl,rfl⟩ := callClosed close after run
      exact ⟨[.star,.rparen],by rw [tokensCons,tokensCons,is,close]; rfl,.callStar,after⟩
    · cases (if_neg close).symm.trans next
  · rw [missBind star,if_neg Bool.false_ne_true] at run
    by_cases close : ahead R = .rparen
    · obtain ⟨u,T,rfl,is⟩ := aheadSplit close (by decide)
      have after : Valid .operator K (tokenTypes T) := valid.eat is rfl
      rw [closeBind is,if_pos rfl] at run
      obtain ⟨rfl,rfl⟩ := callClosed is after run
      exact ⟨[.rparen],by rw [tokensCons,is]; rfl,.call .none_,after⟩
    · rw [peekIsBind close,if_neg Bool.false_ne_true] at run
      obtain ⟨args,T,_,step,last⟩ := Sticks.split (sticky F n).args (fun args _ => endSticks n name args distinct) valid.tame run
      obtain ⟨A,u,T,split,_,read,rfl,is,after⟩ := h.args (valid.unlisted star close) step
      obtain ⟨rfl,rfl⟩ := callClosed is after last
      exact ⟨A ++ [.rparen],by rw [split,tokensCons,is,List.append_assoc]; rfl,.call read,after⟩

theorem callSound {name : Bytes} (valid : Valid .opened (true :: K) (tokenTypes R))
    (run : parseCall (n + 1) name ⟨R,er⟩ = some (e,⟨S,none⟩)) :
    ∃ A, tokenTypes R = A ++ tokenTypes S ∧ Derives true .prim e (.ident :: .lparen :: A) ∧ Valid .operator K (tokenTypes S) := by
  simp only [parseCall] at run
  by_cases distinct : ahead R = .distinct
  · obtain ⟨d,T,rfl,is⟩ := aheadSplit distinct (by decide)
    rw [eatBind is] at run
    obtain ⟨A,split,read,after⟩ := chosenSound h (valid.eat is rfl) run
    exact ⟨.distinct :: A,by rw [tokensCons,is,split]; rfl,read,after⟩
  · rw [missBind distinct] at run
    exact chosenSound h (valid.notDistinct distinct) run

theorem rangeSound (valid : Valid .operand K (tokenTypes R)) (run : parseRange (n + 1) ⟨R,er⟩ = some (e,⟨S,none⟩)) :
    ∃ low high A B o1 o2, e = .binop .and_ low high ∧ tokenTypes R = A ++ .and_ :: (B ++ tokenTypes S) ∧
      Derives true (.expr 6 o1) low A ∧ Derives true (.expr 6 o2) high B ∧ Valid .operator K (tokenTypes S) ∧ Stops 6 S := by
  simp only [parseRange] at run
  have sixth := (sticky F n).expr 6
  obtain ⟨low,T,tame,step,last⟩ := Sticks.split (q := fun _ => True) sixth (fun _ _ => sticksBind (eatSticks _) fun _ _ => sticksBind sixth fun _ _ =>
    sticksPure trivial) valid.tame run
  obtain ⟨⟨o1,A,split,below,after⟩,stops⟩ := h.expr (by decide) valid step
  by_cases and_ : ahead T = .and_
  · obtain ⟨u,T,rfl,is⟩ := aheadSplit and_ (by decide)
    rw [eatBind is] at last
    obtain ⟨high,S,_,step,last⟩ := Sticks.split (q := fun _ => True) sixth (fun _ _ => sticksPure trivial) (tailTame tame) last
    cases last
    obtain ⟨⟨o2,B,split',above,after'⟩,stops'⟩ := h.expr (by decide) (after.eat is rfl) step
    exact ⟨low,high,A,B,o1,o2,rfl,by rw [split,tokensCons,is,split'],below,above,after',stops'⟩
  · rw [missBind and_] at last
    obtain ⟨high,S,_,step,_⟩ := Sticks.split (q := fun _ => True) sixth (fun _ _ => sticksPure trivial) tame last
    exact absurd (exprStarts step tame) (after.notStarts stops)

theorem itemsSound (valid : Valid .member K (tokenTypes R)) (run : parseItems (n + 1) ⟨R,er⟩ = some (e,⟨S,none⟩)) :
    ∃ es A, e = .list es ∧ tokenTypes R = .lparen :: (A ++ .rparen :: tokenTypes S) ∧ Derives true .items (.list es) A ∧
      Valid .operator K (tokenTypes S) := by
  obtain ⟨u,T,rfl,open_,listed⟩ := valid.opening
  simp only [parseItems] at run
  rw [eatBind open_,queryBind listed.tame,if_neg Bool.false_ne_true] at run
  by_cases close : ahead T = .rparen
  · obtain ⟨v,T,rfl,is⟩ := aheadSplit close (by decide)
    rw [closeBind is,if_pos rfl] at run
    have ended : (lexEat .rparen >>= fun _ => pure (.list []) : Parse F (Expr F)) ⟨v :: T,er⟩ = some (e,⟨S,none⟩) := run
    rw [eatBind is] at ended
    cases ended
    exact ⟨[],[],rfl,by rw [tokensCons,tokensCons,open_,is]; rfl,.none_,listed.eat is rfl⟩
  · rw [peekIsBind close,if_neg Bool.false_ne_true] at run
    obtain ⟨items,T,_,step,last⟩ := Sticks.split (sticksMap _ (sticky F n).list) (fun _ _ => closeSticks _) listed.tame run
    obtain ⟨⟨es,T⟩,inner,same⟩ := Option.bind_eq_some_iff.mp step
    cases same
    obtain ⟨A,u,T,split,_,read,rfl,is,after⟩ := h.list (listed.notListed close) inner
    rw [eatBind is] at last
    cases last
    exact ⟨es,A,rfl,by rw [tokensCons,open_,split,tokensCons,is],read,after⟩

/-- The loop goes on with more of the expression. -/
theorem Sound.more {lhs : Expr F} {o : Bool} {A B : List TkType} {T : List (Token F)} (low : 0 ≤ m)
    (split : tokenTypes R = B ++ tokenTypes T) (read : Derives true (.expr m o) lhs (A ++ B)) (after : Valid .operator K (tokenTypes T))
    (free : o = true ∨ ∃ k, Stops k T) (run : exprLoop n m lhs ⟨T,er⟩ = some (e,⟨S,none⟩)) : LoopsTo m K e A R S := by
  obtain ⟨⟨o',C,split',read',after'⟩,stops⟩ := h.loop low after read free run
  rw [List.append_assoc] at read'
  exact ⟨⟨o',B ++ C,by rw [split,split',List.append_assoc],read',after'⟩,stops⟩

variable {lhs : Expr F} {o : Bool} {A : List TkType}

theorem binSound (low : 0 ≤ m) (op : BinOp) {t : Token F} (is : t.type = op.sym.type) (here : Valid .operator K (tokenTypes (t :: R)))
    (valid : Valid .operand K (tokenTypes R)) (left : Derives true (.expr m o) lhs A)
    (run : exprLoop (n + 1) m lhs ⟨t :: R,er⟩ = some (e,⟨S,none⟩)) : LoopsTo m K e A (t :: R) S := by
  simp only [exprLoop] at run
  rw [peekBind,List.head?_cons,Option.getD_some,is] at run
  have taken : (if binopPrec op.sym.type < 0 ∨ binopPrec op.sym.type < m then pure lhs
      else do
        let _ ← lexConsume
        let rhs ← parseExpr n (binopPrec op.sym.type + 1)
        exprLoop n m (.binop (tktypeToOp op.sym.type) lhs rhs) : Parse F (Expr F)) ⟨t :: R,er⟩ = some (e,⟨S,none⟩) := by
    cases op <;> exact run
  rw [symPrec,symOp] at taken
  by_cases loose : (op.prec : Int) < 0 ∨ (op.prec : Int) < m
  · rw [if_pos loose] at taken
    cases taken
    have stops : Stops m (t :: R) := by
      rw [Stops,aheadCons is,symPrec]
      refine ⟨?_,?_,?_,?_,by omega⟩ <;> cases op <;> decide
    exact ⟨⟨o,[],rfl,(List.append_nil A).symm ▸ left,here⟩,stops⟩
  · rw [if_neg loose,consumeBind,List.tail_cons] at taken
    obtain ⟨rhs,T,_,step,last⟩ := Sticks.split ((sticky F n).expr _) (fun _ _ => (sticky F n).loop m _) valid.tame taken
    obtain ⟨⟨o',B,split,right,after⟩,stops⟩ := h.expr (by omega) valid step
    refine h.more low (B := op.sym.type :: B) ?_ (.bin (fun _ => by omega) left right) after (.inr ⟨_,stops⟩) last
    rw [tokensCons,is,split]
    rfl

theorem nullSound (low : 0 ≤ m) {t : Token F} (is : t.type = .is_) (valid : Valid .tested K (tokenTypes R))
    (left : Derives true (.expr m true) lhs A) (run : exprLoop (n + 1) m lhs ⟨t :: R,er⟩ = some (e,⟨S,none⟩)) :
    LoopsTo m K e A (t :: R) S := by
  obtain ⟨negated,d,u,T,rfl,not,null,after⟩ := valid.nulls
  simp only [exprLoop] at run
  rw [peekBind,List.head?_cons,Option.getD_some,is] at run
  dsimp only at run
  rw [consumeBind,List.tail_cons,maybeBind negated not (by rw [aheadCons null]; decide),eatBind null] at run
  refine h.more low (B := .is_ :: (nots negated ++ [.null])) ?_ (.isNull (fun _ => rfl) left) after (.inl rfl) run
  rw [tokensCons,is]
  cases negated <;> simp [tokenTypes,nots,not,null]

theorem betweenSound (low : 0 ≤ m) (negated : Bool) {Q : List (Token F)} (before : tokenTypes Q = nots negated ++ .between :: tokenTypes R)
    (valid : Valid .operand K (tokenTypes R)) (left : Derives true (.expr m true) lhs A)
    (run : (do
      let range ← parseRange n
      exprLoop n m (.binop (if negated then .notBetween else .between) lhs range) : Parse F (Expr F)) ⟨R,er⟩ = some (e,⟨S,none⟩)) :
    LoopsTo m K e A Q S := by
  obtain ⟨range,T,_,step,last⟩ := Sticks.split (sticky F n).range (fun _ _ => (sticky F n).loop m _) valid.tame run
  obtain ⟨_,_,B,C,_,_,rfl,split,below,above,after,stops⟩ := h.range valid step
  refine h.more low (B := nots negated ++ .between :: (B ++ .and_ :: C)) ?_ (.between (fun _ => rfl) left below above) after
    (.inr ⟨_,stops⟩) last
  rw [before,split]
  simp

theorem inSound (low : 0 ≤ m) (negated : Bool) {Q : List (Token F)} (before : tokenTypes Q = nots negated ++ .in_ :: tokenTypes R)
    (valid : Valid .member K (tokenTypes R)) (left : Derives true (.expr m true) lhs A)
    (run : (do
      let items ← parseItems n
      exprLoop n m (.binop (if negated then .notIn else .in_) lhs items) : Parse F (Expr F)) ⟨R,er⟩ = some (e,⟨S,none⟩)) :
    LoopsTo m K e A Q S := by
  obtain ⟨items,T,_,step,last⟩ := Sticks.split (sticky F n).items (fun _ _ => (sticky F n).loop m _) valid.tame run
  obtain ⟨es,B,rfl,split,read,after⟩ := h.items valid step
  refine h.more low (B := nots negated ++ .in_ :: .lparen :: (B ++ [.rparen])) ?_ (.inList (fun _ => rfl) left read) after (.inl rfl) last
  rw [before,split]
  simp

theorem notSound (low : 0 ≤ m) {t : Token F} (is : t.type = .not_) (valid : Valid .negated K (tokenTypes R))
    (left : Derives true (.expr m true) lhs A) (run : exprLoop (n + 1) m lhs ⟨t :: R,er⟩ = some (e,⟨S,none⟩)) :
    LoopsTo m K e A (t :: R) S := by
  simp only [exprLoop] at run
  rw [peekBind,List.head?_cons,Option.getD_some,is] at run
  dsimp only at run
  rw [consumeBind,List.tail_cons,peekBind] at run
  obtain ⟨u,T,rfl,⟨anyCase,like,rest⟩ | ⟨between,rest⟩ | ⟨in_,rest⟩⟩ := valid.negatedCases
  · rw [List.head?_cons,Option.getD_some,like] at run
    have taken : (do
        let pat ← parseExpr n 5
        exprLoop n m (.binop (if anyCase then .notIlike else .notLike) lhs pat) : Parse F (Expr F)) ⟨T,er⟩ = some (e,⟨S,none⟩) := by
      cases anyCase <;> exact run
    obtain ⟨pat,S',_,step,last⟩ := Sticks.split ((sticky F n).expr 5) (fun _ _ => (sticky F n).loop m _) rest.tame taken
    obtain ⟨⟨o',B,split,right,after⟩,stops⟩ := h.expr (by decide) rest step
    refine h.more low (B := .not_ :: (if anyCase then .ilike else .like) :: B) ?_ (.notLike (fun _ => rfl) left right) after
      (.inr ⟨_,stops⟩) last
    rw [tokensCons,tokensCons,is,like,split]
    rfl
  · rw [List.head?_cons,Option.getD_some,between] at run
    dsimp only at run
    rw [consumeBind,List.tail_cons] at run
    exact betweenSound h low true (by rw [tokensCons,tokensCons,is,between]; rfl) rest left run
  · rw [List.head?_cons,Option.getD_some,in_] at run
    dsimp only at run
    rw [consumeBind,List.tail_cons] at run
    exact inSound h low true (by rw [tokensCons,tokensCons,is,in_]; rfl) rest left run

omit h in
/-- The loop ends at a word that is no operator. -/
theorem stopSound (low : 0 ≤ m) (other : ahead R ∈ [TkType.eof,.comma,.rparen]) (valid : Valid .operator K (tokenTypes R))
    (left : Derives true (.expr m o) lhs A) (run : exprLoop (n + 1) m lhs ⟨R,er⟩ = some (e,⟨S,none⟩)) : LoopsTo m K e A R S := by
  simp only [exprLoop] at run
  rw [peekBind] at run
  simp only [List.mem_cons,List.not_mem_nil,or_false] at other
  have ended : e = lhs ∧ S = R := by
    rw [ahead] at other
    rcases other with is | is | is <;> rw [is] at run <;> dsimp only at run <;> rw [if_pos (.inl (by decide))] at run <;> cases run <;>
      exact ⟨rfl,rfl⟩
  obtain ⟨rfl,rfl⟩ := ended
  have stops : Stops m S := by
    rw [Stops]
    rcases other with is | is | is <;> rw [is] <;> exact ⟨by decide,by decide,by decide,by decide,Int.lt_of_lt_of_le (by decide) low⟩
  exact ⟨⟨o,[],rfl,(List.append_nil A).symm ▸ left,valid⟩,stops⟩

theorem loopSound (low : 0 ≤ m) (valid : Valid .operator K (tokenTypes R)) (left : Derives true (.expr m o) lhs A)
    (free : o = true ∨ ∃ k, Stops k R) (run : exprLoop (n + 1) m lhs ⟨R,er⟩ = some (e,⟨S,none⟩)) : LoopsTo m K e A R S := by
  cases R with
  | nil => exact stopSound low List.mem_cons_self valid left run
  | cons t R =>
    obtain ⟨q,K',next,rest⟩ := valid.token
    rcases atOperatorCases next with ⟨op,is,to_⟩ | ⟨is,to_⟩ | ⟨is,to_⟩ | ⟨is,to_⟩ | ⟨is,to_⟩ | ⟨is,_⟩ | ⟨is,_⟩
    · cases to_
      exact binSound h low op is valid rest left run
    · cases to_
      cases free.resolve_right fun ⟨_,stops⟩ => stops.2.2.1 is
      simp only [exprLoop] at run
      rw [peekBind,List.head?_cons,Option.getD_some,is] at run
      dsimp only at run
      rw [consumeBind,List.tail_cons] at run
      exact betweenSound h low false (by rw [tokensCons,is]; rfl) rest left run
    · cases to_
      cases free.resolve_right fun ⟨_,stops⟩ => stops.1 is
      exact nullSound h low is rest left run
    · cases to_
      cases free.resolve_right fun ⟨_,stops⟩ => stops.2.1 is
      exact notSound h low is rest left run
    · cases to_
      cases free.resolve_right fun ⟨_,stops⟩ => stops.2.2.2.1 is
      simp only [exprLoop] at run
      rw [peekBind,List.head?_cons,Option.getD_some,is] at run
      dsimp only at run
      rw [consumeBind,List.tail_cons] at run
      exact inSound h low false (by rw [tokensCons,is]; rfl) rest left run
    · exact stopSound low (by rw [aheadCons is]; decide) valid left run
    · exact stopSound low (by rw [aheadCons is]; decide) valid left run

end

theorem sound (F : Type) [JsonDoubles F] (n : Nat) : Sound F n := by
  induction n with
  | zero =>
    constructor <;> intros <;> rename_i run <;> cases run
  | succ n ih =>
    exact ⟨primSound ih,callSound ih,argsSound ih,listSound ih,exprSound ih,loopSound ih,rangeSound ih,itemsSound ih⟩

end

namespace Tree

section
variable {F : Type} [JsonDoubles F] {t : Tree}

theorem tokensTypes (ws : List Word) : tokenTypes (ws.map (Word.token F)) = types ws := by
  rw [tokenTypes,List.map_map]
  refine List.map_congr_left fun w _ => ?_
  cases w <;> rfl

theorem readBackPlain (h : t.ReadBack F) : t.plain := by
  obtain ⟨N,run⟩ := h
  have parsed := run N (Nat.le_refl N)
  rw [text,lexWritten] at parsed
  have valid : Valid .operand [] (tokenTypes (t.words.map (Word.token F))) := by
    rw [tokensTypes,← List.append_nil (types t.words)]
    exact wordsValid t [] [] ⟨.inl rfl,rfl⟩
  obtain ⟨⟨o,A,split,read,_⟩,_⟩ := (sound F N).expr (Int.le_refl _) valid parsed
  rw [tokensTypes] at split
  have whole : A = types t.words := by
    rw [split]
    exact (List.append_nil A).symm
  rw [whole] at read
  exact strictPlain read

/-- A tree's text is read back as the tree exactly when it is plain. -/
theorem readBackIff : t.ReadBack F ↔ t.plain := ⟨readBackPlain,plainReadBack⟩

/-- `NOT a = b` is read as `(NOT a) = b`. -/
theorem notTakesName :
    (Tree.not_ (.bin .eq (.col none ⟨[97],.inl (by decide)⟩) (.col none ⟨[98],.inl (by decide)⟩))).text = ascii "NOT a = b " ∧
    ∀ (F : Type) [JsonDoubles F],
      (∃ N, ∀ n, N ≤ n → parseExpr n 0 ⟨lexAll F (ascii "NOT a = b "),none⟩ =
        some (.binop .eq (.unop .not_ (.col none [97])) (.col none [98]),⟨[],none⟩)) ∧
      ¬(Tree.not_ (.bin .eq (.col none ⟨[97],.inl (by decide)⟩) (.col none ⟨[98],.inl (by decide)⟩))).ReadBack F := by
  have text_ : (Tree.not_ (.bin .eq (.col none ⟨[97],.inl (by decide)⟩) (.col none ⟨[98],.inl (by decide)⟩))).text =
      ascii "NOT a = b " := by decide
  refine ⟨text_,fun F _ => ?_⟩
  have reading : Evals (parseExpr · 0) ⟨lexAll F (ascii "NOT a = b "),none⟩
      (.binop .eq (.unop .not_ (.col none [97])) (.col none [98]),⟨[],none⟩) := by
    rw [← text_,text,lexWritten]
    have quiet : Quiet ([] : List (Token F)) := .inr (.inr rfl)
    have right : Evals (parseExpr · (BinOp.eq.prec + 1)) ⟨[(Word.name ⟨[98],.inl (by decide)⟩).token F],none⟩
        (.col none [98],⟨[],none⟩) :=
      exprStarted (nameParsed rfl ⟨by rintro ⟨⟩,by rintro ⟨⟩,by rintro ⟨⟩⟩) (loopStopped (quiet.stops (by decide)) _)
    exact exprStarted (signParsed (List.mem_cons_of_mem _ List.mem_cons_self) (nameParsed rfl ⟨by rintro ⟨⟩,by rintro ⟨⟩,by rintro ⟨⟩⟩))
      (loopBin .eq (by decide) rfl right (loopStopped (quiet.stops (Int.le_refl _)) _))
  refine ⟨reading,?_⟩
  rintro ⟨N,run⟩
  obtain ⟨M,other⟩ := reading
  rw [text_] at run
  have same := (run (max N M) (by omega)).symm.trans (other (max N M) (by omega))
  cases congrArg Prod.fst (Option.some.inj same)

end

end Tree

end Napastak.SqlParser
