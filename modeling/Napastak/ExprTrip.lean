import Napastak.SqlPrint

/-! Which trees the expression parser reads back from their text. -/
namespace Napastak.SqlParser
open Query Sql

/-! ### Runs with fuel enough -/

section
variable {F α β : Type}

/-- What a parser gives with any fuel from some on. -/
def Evals (f : Nat → Parse F α) (l : Lexer F) (r : α × Lexer F) : Prop := ∃ N, ∀ n, N ≤ n → f n l = some r

theorem Evals.succ {f : Nat → Parse F α} {l : Lexer F} {r : α × Lexer F} (h : Evals (fun n => f (n + 1)) l r) : Evals f l r := by
  obtain ⟨N,h⟩ := h
  refine ⟨N + 1,fun n hn => ?_⟩
  cases n with
  | zero => omega
  | succ n => exact h n (by omega)

theorem Evals.bind {f : Nat → Parse F α} {g : Nat → α → Parse F β} {l l' : Lexer F} {a : α} {r : β × Lexer F}
    (first : Evals f l (a,l')) (then_ : Evals (fun n => g n a) l' r) : Evals (fun n => f n >>= g n) l r := by
  obtain ⟨N,first⟩ := first
  obtain ⟨M,then_⟩ := then_
  refine ⟨max N M,fun n hn => ?_⟩
  have here : f n l = some (a,l') := first n (by omega)
  have there : g n a l' = some r := then_ n (by omega)
  change (f n l).bind (fun p => g n p.1 p.2) = some r
  rw [here]
  exact there

theorem Evals.step {x : Parse F α} {g : Nat → α → Parse F β} {l l' : Lexer F} {a : α} {r : β × Lexer F} (first : x l = some (a,l'))
    (then_ : Evals (fun n => g n a) l' r) : Evals (fun n => x >>= g n) l r :=
  .bind ⟨0,fun _ _ => first⟩ then_

theorem Evals.map {f : Nat → Parse F α} {l l' : Lexer F} {a : α} (h : Evals f l (a,l')) (g : α → β) :
    Evals (fun n => g <$> f n) l (g a,l') := by
  obtain ⟨N,h⟩ := h
  refine ⟨N,fun n hn => ?_⟩
  change (f n l).bind (fun p => some (g p.1,p.2)) = some (g a,l')
  rw [h n hn]
  rfl

theorem Evals.done {a : α} {l : Lexer F} : Evals (fun _ => (pure a : Parse F α)) l (a,l) := ⟨0,fun _ _ => rfl⟩

end

section
variable {F : Type} [JsonDoubles F]

/-! ### The token ahead -/

/-- The type of the token ahead. -/
def ahead (R : List (Token F)) : TkType := (R.head?.getD eof).type

/-- What is ahead makes no more of a name or a call. -/
def Ends (R : List (Token F)) : Prop := ahead R ≠ .lparen ∧ ahead R ≠ .dot ∧ ahead R ≠ .over_

/-- What is ahead is left alone by an expression of precedence `k`. -/
def Stops (k : Int) (R : List (Token F)) : Prop :=
  ahead R ≠ .is_ ∧ ahead R ≠ .not_ ∧ ahead R ≠ .between ∧ ahead R ≠ .in_ ∧ binopPrec (ahead R) < k

variable {R : List (Token F)} {er : Option String}

theorem peekAhead : lexPeek ⟨R,er⟩ = some (R.head?.getD eof,⟨R,er⟩) := rfl

theorem eatSame {t : Token F} {ty : TkType} (h : t.type = ty) : lexEat ty ⟨t :: R,er⟩ = some (true,⟨R,er⟩) := if_pos h

theorem eatOther {ty : TkType} (h : ahead R ≠ ty) : lexEat ty ⟨R,er⟩ = some (false,⟨R,er⟩) := if_neg h

/-- A word that may be there. -/
theorem eatMaybe {ty : TkType} (there : Bool) {d : Token F} (is : d.type = ty) (other : ahead R ≠ ty) :
    lexEat ty ⟨(if there then [d] else []) ++ R,er⟩ = some (there,⟨R,er⟩) := by
  cases there with
  | false => exact eatOther other
  | true => exact eatSame is

theorem aheadCons {t : Token F} {ty : TkType} (is : t.type = ty) : ahead (t :: R) = ty := is

theorem peekIsOther {ty : TkType} (h : ahead R ≠ ty) : lexPeekIs ty ⟨R,er⟩ = some (false,⟨R,er⟩) :=
  congrArg (fun b => some (b,_)) (decide_eq_false h)

theorem noQuery (select : ahead R ≠ .select) (with_ : ahead R ≠ .with_) : peekQuery ⟨R,er⟩ = some (false,⟨R,er⟩) := by
  have none_ : (decide (ahead R = .select) || decide (ahead R = .with_)) = false := by
    rw [decide_eq_false select,decide_eq_false with_]
    rfl
  exact congrArg (fun b => some (b,_)) none_

theorem Stops.mono {k k' : Int} (h : Stops k R) (le : k ≤ k') : Stops k' R :=
  ⟨h.1,h.2.1,h.2.2.1,h.2.2.2.1,Int.lt_of_lt_of_le h.2.2.2.2 le⟩

-- the equations of the mutual block, made once for all the proofs below
attribute [local simp] parsePrimary parseCall exprLoop parseExpr parseItems parseRange parseArgs parseList

/-! ### Primaries -/

theorem signParsed {op : OpType} {T : List (Token F)} {t : Token F} (h : (op,t.type) ∈ [(OpType.sub,TkType.minus),(.not_,.not_)])
    {e : Expr F} (inner : Evals parsePrimary ⟨T,er⟩ (e,⟨R,er⟩)) : Evals parsePrimary ⟨t :: T,er⟩ (.unop op e,⟨R,er⟩) := by
  have known : (op = .sub ∧ t.type = .minus) ∨ op = .not_ ∧ t.type = .not_ := by simpa using h
  refine .succ ?_
  simp only [parsePrimary]
  refine .step rfl (.step rfl ?_)
  rcases known with ⟨rfl,is⟩ | ⟨rfl,is⟩
  all_goals
    simp only [List.head?_cons,Option.getD_some,is]
    exact .bind inner .done

theorem groupParsed {T : List (Token F)} {t u : Token F} (open_ : t.type = .lparen) (close : u.type = .rparen) {e : Expr F}
    (select : ahead T ≠ .select) (with_ : ahead T ≠ .with_) (inner : Evals (parseExpr · 0) ⟨T,er⟩ (e,⟨u :: R,er⟩)) :
    Evals parsePrimary ⟨t :: T,er⟩ (e,⟨R,er⟩) := by
  refine .succ ?_
  simp only [parsePrimary]
  refine .step rfl (.step rfl ?_)
  simp only [List.head?_cons,Option.getD_some,open_]
  refine .step (noQuery select with_) ?_
  exact .bind inner (.step (eatSame close) .done)

theorem nameParsed {t : Token F} (h : t.type = .ident) (ends : Ends R) :
    Evals parsePrimary ⟨t :: R,er⟩ (.col none t.text,⟨R,er⟩) := by
  refine .succ ?_
  simp only [parsePrimary]
  refine .step rfl (.step rfl ?_)
  simp only [List.head?_cons,Option.getD_some,h]
  exact .step (eatOther ends.1) (.step (eatOther ends.2.1) .done)

theorem qualifiedParsed {t u v : Token F} (h : t.type = .ident) (dot : u.type = .dot) :
    Evals parsePrimary ⟨t :: u :: v :: R,er⟩ (.col (some t.text) v.text,⟨R,er⟩) := by
  refine .succ ?_
  simp only [parsePrimary]
  refine .step rfl (.step rfl ?_)
  simp only [List.head?_cons,Option.getD_some,List.tail_cons,h]
  exact .step (eatOther (by rw [aheadCons dot]; decide)) (.step (eatSame dot) (.step rfl .done))

/-- The tokens that are an expression alone. -/
def leaf (t : Token F) : Option (Expr F) :=
  match t.type with
  | .numInt => some (.int t.ival t.text)
  | .numFloat => some (.float t.fval)
  | .string => some (.str t.text)
  | .null => some .null
  | .true_ => some (.bool true)
  | .false_ => some (.bool false)
  | _ => none

theorem leafParsed {t : Token F} {e : Expr F} (h : leaf t = some e) : Evals parsePrimary ⟨t :: R,er⟩ (e,⟨R,er⟩) := by
  refine .succ ?_
  simp only [parsePrimary]
  refine .step rfl (.step rfl ?_)
  simp only [List.head?_cons,Option.getD_some]
  rw [leaf] at h
  split at h <;> first | (rename_i is; rw [is]; cases h; exact .done) | cases h

/-! ### Calls -/

theorem callParsed {T : List (Token F)} {t u : Token F} (h : t.type = .ident) (open_ : u.type = .lparen) {e : Expr F}
    (call : Evals (parseCall · t.text) ⟨T,er⟩ (e,⟨R,er⟩)) : Evals parsePrimary ⟨t :: u :: T,er⟩ (e,⟨R,er⟩) := by
  refine .succ ?_
  simp only [parsePrimary]
  refine .step rfl (.step rfl ?_)
  simp only [List.head?_cons,Option.getD_some,h]
  exact .step (eatSame open_) call

theorem starCalled (name : Bytes) (distinct : Bool) {d s u : Token F} (is : d.type = .distinct) (star : s.type = .star)
    (close : u.type = .rparen) (ends : Ends R) :
    Evals (parseCall · name) ⟨(if distinct then [d] else []) ++ s :: u :: R,er⟩ (.func name [.star none] distinct,⟨R,er⟩) := by
  refine .succ ?_
  simp only [parseCall]
  refine .step (eatMaybe distinct is (by rw [aheadCons star]; decide)) (.step (eatSame star) ?_)
  exact .step rfl (.step (eatSame close) (.step (eatOther ends.2.2) .done))

theorem noneCalled (name : Bytes) (distinct : Bool) {d u : Token F} (is : d.type = .distinct) (close : u.type = .rparen) (ends : Ends R) :
    Evals (parseCall · name) ⟨(if distinct then [d] else []) ++ u :: R,er⟩ (.func name [] distinct,⟨R,er⟩) := by
  refine .succ ?_
  simp only [parseCall]
  have here : ahead (u :: R) = .rparen := close
  refine .step (eatMaybe distinct is (by rw [here]; decide)) (.step (eatOther (by rw [here]; decide)) ?_)
  refine .step (congrArg (fun b => some (b,_)) (decide_eq_true here)) ?_
  exact .step rfl (.step (eatSame close) (.step (eatOther ends.2.2) .done))

theorem argsCalled (name : Bytes) (distinct : Bool) {T : List (Token F)} {d u : Token F} (is : d.type = .distinct)
    (close : u.type = .rparen) (ends : Ends R) (first : ahead T ≠ .distinct ∧ ahead T ≠ .star ∧ ahead T ≠ .rparen)
    {args : List (Expr F)} (run : Evals parseArgs ⟨T,er⟩ (args,⟨u :: R,er⟩)) :
    Evals (parseCall · name) ⟨(if distinct then [d] else []) ++ T,er⟩ (.func name args distinct,⟨R,er⟩) := by
  refine .succ ?_
  simp only [parseCall]
  refine .step (eatMaybe distinct is first.1) (.step (eatOther first.2.1) (.step (peekIsOther first.2.2) ?_))
  exact .bind run (.step (eatSame close) (.step (eatOther ends.2.2) .done))

/-! ### The loop -/

theorem exprStarted {m : Int} {T : List (Token F)} {e : Expr F} {l : Lexer F} {r : Expr F × Lexer F}
    (first : Evals parsePrimary ⟨T,er⟩ (e,l)) (loop : Evals (exprLoop · m e) l r) : Evals (parseExpr · m) ⟨T,er⟩ r := by
  refine .succ ?_
  simp only [parseExpr]
  exact .bind first loop

theorem loopStopped {m : Int} (stops : Stops m R) (e : Expr F) : Evals (exprLoop · m e) ⟨R,er⟩ (e,⟨R,er⟩) := by
  obtain ⟨is,not,between,in_,low⟩ := stops
  refine .succ ?_
  simp only [exprLoop]
  refine .step rfl ?_
  rw [ahead] at *
  generalize (R.head?.getD eof).type = ty at *
  split
  case h_1 => exact absurd rfl is
  case h_2 => exact absurd rfl not
  case h_3 => exact absurd rfl between
  case h_4 => exact absurd rfl in_
  case h_5 =>
    simp only [low,or_true,if_true]
    exact .done

theorem loopIsNull {m : Int} (negated : Bool) {t n u : Token F} (is : t.type = .is_) (not : n.type = .not_) (null : u.type = .null)
    {e : Expr F} {r : Expr F × Lexer F} (rest : Evals (exprLoop · m (.unop (if negated then .isNotNull else .isNull) e)) ⟨R,er⟩ r) :
    Evals (exprLoop · m e) ⟨t :: ((if negated then [n] else []) ++ u :: R),er⟩ r := by
  refine .succ ?_
  simp only [exprLoop]
  refine .step rfl ?_
  simp only [List.head?_cons,Option.getD_some,is]
  refine .step rfl (.step (eatMaybe negated not (by rw [aheadCons null]; decide)) (.step (eatSame null) ?_))
  exact rest

theorem loopNotLike {m : Int} (anyCase : Bool) {T : List (Token F)} {n t : Token F} (not : n.type = .not_)
    (like : t.type = if anyCase then .ilike else .like) {e pat : Expr F} {r : Expr F × Lexer F}
    (pattern_ : Evals (parseExpr · 5) ⟨T,er⟩ (pat,⟨R,er⟩))
    (rest : Evals (exprLoop · m (.binop (if anyCase then .notIlike else .notLike) e pat)) ⟨R,er⟩ r) :
    Evals (exprLoop · m e) ⟨n :: t :: T,er⟩ r := by
  refine .succ ?_
  simp only [exprLoop]
  refine .step rfl ?_
  simp only [List.head?_cons,Option.getD_some,not]
  refine .step rfl (.step rfl ?_)
  cases anyCase <;> simp only [List.head?_cons,Option.getD_some,List.tail_cons,like,if_true,Bool.false_eq_true,if_false] at * <;>
    exact .step rfl (.bind pattern_ rest)

theorem rangeParsed {T S : List (Token F)} {t : Token F} (and_ : t.type = .and_) {low high : Expr F}
    (below : Evals (parseExpr · 6) ⟨T,er⟩ (low,⟨t :: S,er⟩)) (above : Evals (parseExpr · 6) ⟨S,er⟩ (high,⟨R,er⟩)) :
    Evals parseRange ⟨T,er⟩ (.binop .and_ low high,⟨R,er⟩) := by
  refine .succ ?_
  simp only [parseRange]
  exact .bind below (.step (eatSame and_) (.bind above .done))

theorem loopBetween {m : Int} (negated : Bool) {T : List (Token F)} {n t : Token F} (not : n.type = .not_) (between : t.type = .between)
    {e range : Expr F} {r : Expr F × Lexer F} (bounds : Evals parseRange ⟨T,er⟩ (range,⟨R,er⟩))
    (rest : Evals (exprLoop · m (.binop (if negated then .notBetween else .between) e range)) ⟨R,er⟩ r) :
    Evals (exprLoop · m e) ⟨(if negated then [n] else []) ++ t :: T,er⟩ r := by
  refine .succ ?_
  simp only [exprLoop]
  cases negated with
  | false =>
    refine .step rfl ?_
    simp only [Bool.false_eq_true,if_false,List.nil_append,List.head?_cons,Option.getD_some,between]
    exact .step rfl (.bind bounds rest)
  | true =>
    refine .step rfl ?_
    simp only [if_true,List.cons_append,List.nil_append,List.head?_cons,Option.getD_some,not]
    refine .step rfl (.step rfl ?_)
    simp only [List.head?_cons,Option.getD_some,List.tail_cons,between]
    exact .step rfl (.bind bounds rest)

theorem loopIn {m : Int} (negated : Bool) {T : List (Token F)} {n t : Token F} (not : n.type = .not_) (in_ : t.type = .in_)
    {e items : Expr F} {r : Expr F × Lexer F} (list : Evals parseItems ⟨T,er⟩ (items,⟨R,er⟩))
    (rest : Evals (exprLoop · m (.binop (if negated then .notIn else .in_) e items)) ⟨R,er⟩ r) :
    Evals (exprLoop · m e) ⟨(if negated then [n] else []) ++ t :: T,er⟩ r := by
  refine .succ ?_
  simp only [exprLoop]
  cases negated with
  | false =>
    refine .step rfl ?_
    simp only [Bool.false_eq_true,if_false,List.nil_append,List.head?_cons,Option.getD_some,in_]
    exact .step rfl (.bind list rest)
  | true =>
    refine .step rfl ?_
    simp only [if_true,List.cons_append,List.nil_append,List.head?_cons,Option.getD_some,not]
    refine .step rfl (.step rfl ?_)
    simp only [List.head?_cons,Option.getD_some,List.tail_cons,in_]
    exact .step rfl (.bind list rest)

theorem symPrec (op : BinOp) : binopPrec op.sym.type = op.prec := by cases op <;> rfl

theorem symOp (op : BinOp) : tktypeToOp op.sym.type = op.op := by cases op <;> rfl

theorem loopBin {m : Int} (op : BinOp) (le : m ≤ op.prec) {T : List (Token F)} {t : Token F} (is : t.type = op.sym.type)
    {e rhs : Expr F} {r : Expr F × Lexer F} (right : Evals (parseExpr · (op.prec + 1)) ⟨T,er⟩ (rhs,⟨R,er⟩))
    (rest : Evals (exprLoop · m (.binop op.op e rhs)) ⟨R,er⟩ r) : Evals (exprLoop · m e) ⟨t :: T,er⟩ r := by
  refine .succ ?_
  simp only [exprLoop]
  refine .step rfl ?_
  simp only [List.head?_cons,Option.getD_some,is]
  have go : ¬ (binopPrec op.sym.type < 0 ∨ binopPrec op.sym.type < m) := by
    rw [symPrec]
    omega
  rw [← symPrec] at right
  rw [← symOp] at rest
  split
  case h_5 =>
    simp only [go,if_false]
    exact .step rfl (.bind right rest)
  all_goals rename_i clash; cases op <;> cases clash

/-! ### Lists -/

theorem itemsParsed {T : List (Token F)} {t u : Token F} (open_ : t.type = .lparen) (close : u.type = .rparen)
    (first : ahead T ≠ .select ∧ ahead T ≠ .with_ ∧ ahead T ≠ .rparen) {items : List (Expr F)}
    (run : Evals parseList ⟨T,er⟩ (items,⟨u :: R,er⟩)) : Evals parseItems ⟨t :: T,er⟩ (.list items,⟨R,er⟩) := by
  refine .succ ?_
  simp only [parseItems]
  refine .step (eatSame open_) (.step (noQuery first.1 first.2.1) (.step (peekIsOther first.2.2) ?_))
  exact .bind (run.map _) (.step (eatSame close) .done)

theorem noItems {t u : Token F} (open_ : t.type = .lparen) (close : u.type = .rparen) :
    Evals parseItems ⟨t :: u :: R,er⟩ (.list [],⟨R,er⟩) := by
  refine .succ ?_
  simp only [parseItems]
  have here : ahead (u :: R) = .rparen := close
  refine .step (eatSame open_) (.step (noQuery (by rw [here]; decide) (by rw [here]; decide)) ?_)
  refine .step (congrArg (fun b => some (b,_)) (decide_eq_true here)) (.step rfl (.step (eatSame close) .done))

end

/-! ### The trees that are read back -/

namespace Tree

/-- What may stand on the left of a postfix predicate without parentheses and is read as a whole there. -/
def closed : Tree → Bool
  | bin op _ _ => op.prec < 4
  | notLike .. | between .. => false
  | _ => true

mutual
/-- NOT has no predicate, no sum and no product behind it, the operand of a postfix predicate is closed, and no bound of
BETWEEN is a concatenation. -/
def plain : Tree → Prop
  | call _ _ args => allPlain args
  | bin _ l r => l.plain ∧ r.plain
  | not_ t => (t.level < 4 ∨ 8 ≤ t.level) ∧ t.plain
  | neg t => t.plain
  | isNull _ t => t.closed ∧ t.plain
  | notLike _ l r => l.closed ∧ l.plain ∧ r.plain
  | between _ t low high => t.closed ∧ t.plain ∧ low.level ≠ 5 ∧ low.plain ∧ high.level ≠ 5 ∧ high.plain
  | inList _ t items => t.closed ∧ t.plain ∧ allPlain items
  | _ => True

def allPlain : List Tree → Prop
  | [] => True
  | t :: ts => t.plain ∧ allPlain ts
end

/-- The precedence at which the last operand of a tree is read. -/
def edge : Tree → Option Nat
  | bin op _ _ => some (op.prec + 1)
  | notLike .. => some 5
  | between .. => some 6
  | _ => none

/-- A tree that stands alone on the left of an operator. -/
def tight (t : Tree) : Prop := t.level = 3 ∨ 8 ≤ t.level

theorem closedCases {t : Tree} (h : t.closed) : t.level < 4 ∨ t.edge = none := by
  cases t with
  | bin op l r => exact .inl (of_decide_eq_true h)
  | notLike | between => cases h
  | _ => exact .inr rfl

theorem edgeAbove {t : Tree} {k : Nat} (h : t.edge = some k) : t.level < k := by
  cases t <;> cases h <;> simp [level]

/-- The words that an expression can start with. -/
def starts : Word → Bool
  | .sym s => s ∈ [Sym.lparen,.null,.true_,.false_,.not_,.minus]
  | _ => true

def neverFirst : List TkType := [.select,.with_,.rparen,.star,.distinct]

theorem symStart (s : Sym) : starts (.sym s) → s.type ∉ neverFirst := by
  cases s <;> decide

theorem placedStart {p : Nat} {t : Tree} {ws : List Word} (h : ws.head?.any starts) (more : List Word) :
    (placed p t ws ++ more).head?.any starts := by
  rw [placed]
  split
  · rfl
  · cases ws with
    | nil => cases h
    | cons w ws => exact h

theorem wordsStart : (t : Tree) → t.words.head?.any starts
  | col none _ | col (some _) _ | int _ | float _ | str _ | null | call .. | callStar .. => by simp [words,starts]
  | bool b => by cases b <;> rfl
  | bin _ l _ => by
    rw [words]
    exact placedStart (wordsStart l) _
  | not_ _ | neg _ => by simp [words,starts]
  | isNull _ t | notLike _ t _ | between _ t .. | inList _ t _ => by
    rw [words]
    exact placedStart (wordsStart t) _

section
variable (F : Type) [JsonDoubles F]

def tokens (ws : List Word) : List (Token F) := ws.map (Word.token F)

/-- What is ahead can follow the tree. -/
def Follows (t : Tree) (R : List (Token F)) : Prop := Ends R ∧ ∀ k : Nat, t.edge = some k → Stops (k : Int) R

/-- The tree is read back wherever it stands. -/
structure Reads (t : Tree) : Prop where
  prim : t.tight → ∀ R er, Ends R → Evals parsePrimary ⟨tokens F t.words ++ R,er⟩ (t.ast F,⟨R,er⟩)
  expr : ∀ (m : Int) R er r, m ≤ t.level → t.Follows F R → Evals (exprLoop · m (t.ast F)) ⟨R,er⟩ r →
    Evals (parseExpr · m) ⟨tokens F t.words ++ R,er⟩ r

end

section
variable {F : Type} [JsonDoubles F] {R : List (Token F)} {er : Option String} {t : Tree}

theorem aheadStart {ws : List Word} (h : ws.head?.any starts) {ty : TkType}
    (other : ty ∈ neverFirst) : ahead (tokens F ws ++ R) ≠ ty := by
  cases ws with
  | nil => cases h
  | cons w ws =>
    change (w.token F).type ≠ ty
    rintro rfl
    cases w with
    | sym s => exact symStart s h other
    | name _ => exact (by decide : TkType.ident ∉ neverFirst) other
    | digits _ => exact (by decide : TkType.numInt ∉ neverFirst) other
    | fraction _ => exact (by decide : TkType.numFloat ∉ neverFirst) other
    | quoted _ => exact (by decide : TkType.string ∉ neverFirst) other

/-- What ends any expression. -/
def Quiet (R : List (Token F)) : Prop := ahead R = .rparen ∨ ahead R = .comma ∨ ahead R = .eof

theorem Quiet.stops (h : Quiet R) {m : Int} (le : 0 ≤ m) : Stops m R := by
  have low : (-1 : Int) < m := by omega
  rcases h with h | h | h <;> rw [Stops,h] <;> exact ⟨by decide,by decide,by decide,by decide,low⟩

theorem Quiet.ends (h : Quiet R) : Ends R := by
  rcases h with h | h | h <;> rw [Ends,h] <;> decide

theorem Quiet.follows (h : Quiet R) (t : Tree) : t.Follows F R := ⟨h.ends,fun _ _ => h.stops (Int.natCast_nonneg _)⟩

theorem symAhead (s : Sym) : ahead ((Word.sym s).token F :: R) = s.type := rfl

theorem Reads.ofPrim (prim : ∀ R er, Ends R → Evals parsePrimary ⟨tokens F t.words ++ R,er⟩ (t.ast F,⟨R,er⟩)) : Reads F t :=
  ⟨fun _ => prim,fun _ R er _ _ follows loop => exprStarted (prim R er follows.1) loop⟩

theorem Reads.ofExpr (open_ : ¬ t.tight) (expr : ∀ (m : Int) R er r, m ≤ t.level → t.Follows F R →
    Evals (exprLoop · m (t.ast F)) ⟨R,er⟩ r → Evals (parseExpr · m) ⟨tokens F t.words ++ R,er⟩ r) : Reads F t :=
  ⟨fun h => absurd h open_,expr⟩

/-! ### Operands -/

theorem Reads.enclosed (h : Reads F t) : Evals parsePrimary ⟨tokens F (.sym .lparen :: (t.words ++ [.sym .rparen])) ++ R,er⟩ (t.ast F,⟨R,er⟩) := by
  have quiet : Quiet ((Word.sym .rparen).token F :: R) := .inl rfl
  have start := wordsStart t
  rw [tokens,List.map_cons,List.map_append,List.cons_append,List.append_assoc]
  exact groupParsed rfl rfl (aheadStart start (by decide)) (aheadStart start (by decide))
    (h.expr 0 _ er _ (Int.natCast_nonneg _) (quiet.follows t) (loopStopped (quiet.stops (Int.le_refl _)) _))

theorem Reads.placedPrim (h : Reads F t) {p : Nat} (ok : t.level < p ∨ t.tight) (ends : Ends R) :
    Evals parsePrimary ⟨tokens F (placed p t t.words) ++ R,er⟩ (t.ast F,⟨R,er⟩) := by
  rw [placed]
  split
  · exact h.enclosed
  · rename_i high
    exact h.prim (ok.resolve_left high) R er ends

theorem Reads.placedExpr (h : Reads F t) {p : Nat} {m : Int} (ok : p ≤ t.level → m ≤ t.level ∧ t.Follows F R)
    {r : Expr F × Lexer F} (loop : Evals (exprLoop · m (t.ast F)) ⟨R,er⟩ r) :
    Evals (parseExpr · m) ⟨tokens F (placed p t t.words) ++ R,er⟩ r := by
  rw [placed]
  split
  · exact exprStarted h.enclosed loop
  · rename_i high
    obtain ⟨le,follows⟩ := ok (Nat.le_of_not_lt high)
    exact h.expr m R er r le follows loop

/-- The operand on the left of a postfix predicate. -/
theorem Reads.placedClosed (h : Reads F t) (closed : t.closed) {m : Int} (le : m ≤ 4) (ends : Ends R)
    {r : Expr F × Lexer F} (loop : Evals (exprLoop · m (t.ast F)) ⟨R,er⟩ r) :
    Evals (parseExpr · m) ⟨tokens F (placed 4 t t.words) ++ R,er⟩ r := by
  refine h.placedExpr (fun high => ?_) loop
  have none_ := (closedCases closed).resolve_left (Nat.not_lt.mpr high)
  exact ⟨by omega,ends,fun k is => absurd (none_.symm.trans is) nofun⟩

/-- An operand that is read to its end. -/
theorem Reads.placedWhole (h : Reads F t) {p : Nat} {m : Int} (ok : p ≤ t.level → m ≤ t.level) (ends : Ends R) (stops : Stops m R) :
    Evals (parseExpr · m) ⟨tokens F (placed p t t.words) ++ R,er⟩ (t.ast F,⟨R,er⟩) := by
  refine h.placedExpr (fun high => ?_) (loopStopped stops _)
  have le := ok high
  exact ⟨le,ends,fun k is => stops.mono (by have := edgeAbove is; omega)⟩

/-! ### Lists of trees -/

theorem listRead {u : Token F} (close : u.type = .rparen) : (ts : List Tree) → ts ≠ [] → (∀ t ∈ ts, Reads F t) →
    Evals parseArgs ⟨tokens F (listWords ts) ++ u :: R,er⟩ (asts F ts,⟨u :: R,er⟩) ∧
      Evals parseList ⟨tokens F (listWords ts) ++ u :: R,er⟩ (asts F ts,⟨u :: R,er⟩)
  | [],some_,_ => absurd rfl some_
  | [t],_,all => by
    have quiet : Quiet (u :: R) := .inl close
    have head : Evals (parseExpr · 0) ⟨tokens F t.words ++ u :: R,er⟩ (t.ast F,⟨u :: R,er⟩) :=
      (all t List.mem_cons_self).expr 0 _ er _ (Int.natCast_nonneg _) (quiet.follows t) (loopStopped (quiet.stops (Int.le_refl _)) _)
    have other : ahead (u :: R) ≠ .comma := by rw [aheadCons close]; decide
    rw [listWords,List.isEmpty_nil,if_pos rfl,List.append_nil]
    refine ⟨.succ ?_,.succ ?_⟩
    · simp only [parseArgs]
      refine .step (peekIsOther (aheadStart (wordsStart t) (by decide))) ?_
      exact .bind head (.step (eatOther other) .done)
    · simp only [parseList]
      exact .bind head (.step (eatOther other) .done)
  | t :: v :: ts,_,all => by
    obtain ⟨args,list⟩ := listRead close (v :: ts) nofun fun w hw => all w (List.mem_cons_of_mem _ hw)
    have quiet : Quiet ((Word.sym .comma).token F :: (tokens F (listWords (v :: ts)) ++ u :: R)) := .inr (.inl rfl)
    have head := (all t List.mem_cons_self).expr 0 _ er _ (Int.natCast_nonneg _) (quiet.follows t)
      (loopStopped (quiet.stops (Int.le_refl _)) _)
    rw [listWords,List.isEmpty_cons,if_neg Bool.false_ne_true,tokens,List.map_append,List.append_assoc]
    refine ⟨.succ ?_,.succ ?_⟩
    · simp only [parseArgs]
      refine .step (peekIsOther (aheadStart (wordsStart t) (by decide))) ?_
      exact .bind head (.step (eatSame rfl) (.bind args .done))
    · simp only [parseList]
      exact .bind head (.step (eatSame rfl) (.bind list .done))

theorem tokensAppend (a b : List Word) : tokens F (a ++ b) = tokens F a ++ tokens F b := List.map_append

theorem tokensCons (w : Word) (ws : List Word) : tokens F (w :: ws) = w.token F :: tokens F ws := rfl

theorem tokensDistinct (distinct : Bool) :
    tokens F (if distinct then [.sym .distinct] else []) = if distinct then [(Word.sym .distinct).token F] else [] := by
  cases distinct <;> rfl

theorem listStart (t : Tree) (ts : List Tree) : (listWords (t :: ts)).head?.any starts := by
  have start := wordsStart t
  rw [listWords]
  cases h : t.words with
  | nil => rw [h] at start; cases start
  | cons w ws => rw [h] at start; exact start

theorem tokensNot (negated : Bool) : tokens F (notWord negated) = if negated then [(Word.sym .not_).token F] else [] := by
  cases negated <;> rfl

/-! ### Every plain tree is read back -/

theorem opFollows (op : BinOp) (high : op.prec ≤ t.level) : t.Follows F ((Word.sym op.sym).token F :: R) := by
  have apart : op.sym.type ∉ [TkType.lparen,.dot,.over_,.is_,.not_,.between,.in_] := by cases op <;> decide
  simp only [List.mem_cons,not_or] at apart
  obtain ⟨lparen,dot,over_,is,not,between,in_,_⟩ := apart
  refine ⟨⟨lparen,dot,over_⟩,fun k edge => ⟨is,not,between,in_,?_⟩⟩
  have above := edgeAbove edge
  have prec := symPrec op
  change binopPrec op.sym.type < k
  omega

theorem binReads (op : BinOp) {l r : Tree} (left : Reads F l) (right : Reads F r) : Reads F (.bin op l r) := by
  refine .ofExpr (by rw [tight,level]; cases op <;> decide) fun m R er ρ le follows loop => ?_
  rw [level] at le
  have stops : Stops ((op.prec + 1 : Nat) : Int) R := follows.2 _ rfl
  have rhs : Evals (parseExpr · (op.prec + 1)) ⟨tokens F (placed (op.prec + 1) r r.words) ++ R,er⟩ (r.ast F,⟨R,er⟩) :=
    right.placedWhole (m := op.prec + 1) (fun high => by omega) follows.1 stops
  rw [words,tokensAppend,List.append_assoc]
  exact left.placedExpr (fun high => ⟨by omega,opFollows op high⟩) (loopBin op le rfl rhs loop)

theorem notReads (h : Reads F t) (ok : t.level < 4 ∨ 8 ≤ t.level) : Reads F (.not_ t) := by
  refine .ofPrim fun R er ends => ?_
  rw [words,tokens,List.map_cons]
  refine signParsed (List.mem_cons_of_mem _ List.mem_cons_self) (h.placedPrim ?_ ends)
  rw [tight]
  omega

theorem negReads (h : Reads F t) : Reads F (.neg t) := by
  refine .ofPrim fun R er ends => ?_
  rw [words,tokens,List.map_cons]
  refine signParsed List.mem_cons_self (h.placedPrim ?_ ends)
  rw [tight]
  omega

/-- The words of a postfix predicate end a name before them. -/
theorem postfixEnds {s : Sym} (is : s.type ∈ [TkType.is_,.not_,.between,.in_]) : Ends ((Word.sym s).token F :: R) := by
  rw [Ends,symAhead]
  cases s <;> first | exact absurd is (by decide) | decide

theorem notEnds (negated : Bool) {s : Sym} (is : s.type ∈ [TkType.is_,.not_,.between,.in_]) :
    Ends ((if negated then [(Word.sym .not_).token F] else []) ++ (Word.sym s).token F :: R) := by
  cases negated
  · exact postfixEnds is
  · exact postfixEnds (s := .not_) (by decide)

theorem isNullReads (negated : Bool) (h : Reads F t) (closed : t.closed) : Reads F (.isNull negated t) := by
  refine .ofExpr (by rw [tight,level]; decide) fun m R er ρ le follows loop => ?_
  rw [words,tokensAppend,tokensCons,tokensAppend,tokensNot,List.append_assoc,List.cons_append,List.append_assoc]
  exact h.placedClosed closed le (postfixEnds (s := .is_) (by decide)) (loopIsNull negated rfl rfl rfl loop)

theorem notLikeReads (anyCase : Bool) {l r : Tree} (left : Reads F l) (closed : l.closed) (right : Reads F r) :
    Reads F (.notLike anyCase l r) := by
  refine .ofExpr (by rw [tight,level]; decide) fun m R er ρ le follows loop => ?_
  have stops : Stops ((5 : Nat) : Int) R := follows.2 _ rfl
  have pattern_ : Evals (parseExpr · 5) ⟨tokens F (placed 5 r r.words) ++ R,er⟩ (r.ast F,⟨R,er⟩) :=
    right.placedWhole (fun high => by omega) follows.1 stops
  rw [words,tokensAppend,tokensCons,tokensCons,List.append_assoc,List.cons_append,List.cons_append]
  refine left.placedClosed closed le (postfixEnds (s := .not_) (by decide)) ?_
  exact loopNotLike anyCase rfl (by cases anyCase <;> rfl) pattern_ loop

theorem betweenReads (negated : Bool) {low high : Tree} (h : Reads F t) (closed : t.closed) (below : Reads F low)
    (belowOk : low.level ≠ 5) (above : Reads F high) (aboveOk : high.level ≠ 5) : Reads F (.between negated t low high) := by
  refine .ofExpr (by rw [tight,level]; decide) fun m R er ρ le follows loop => ?_
  have stops : Stops ((6 : Nat) : Int) R := follows.2 _ rfl
  have upper : Evals (parseExpr · 6) ⟨tokens F (placed 5 high high.words) ++ R,er⟩ (high.ast F,⟨R,er⟩) :=
    above.placedWhole (fun high => by omega) follows.1 stops
  have lower : Evals (parseExpr · 6) ⟨tokens F (placed 5 low low.words) ++ (Word.sym .and_).token F ::
      (tokens F (placed 5 high high.words) ++ R),er⟩ (low.ast F,⟨(Word.sym .and_).token F :: (tokens F (placed 5 high high.words) ++ R),er⟩) :=
    below.placedWhole (fun high => by omega) (by rw [Ends,symAhead]; decide) (by rw [Stops,symAhead]; decide)
  rw [words,tokensAppend,tokensAppend,tokensNot,tokensCons,tokensAppend,tokensCons,List.append_assoc,List.append_assoc,
    List.cons_append,List.append_assoc,List.cons_append]
  refine h.placedClosed closed le (notEnds negated (s := .between) (by decide)) ?_
  exact loopBetween negated rfl rfl (rangeParsed rfl lower upper) loop

theorem inListReads (negated : Bool) {items : List Tree} (h : Reads F t) (closed : t.closed) (all : ∀ t ∈ items, Reads F t) :
    Reads F (.inList negated t items) := by
  refine .ofExpr (by rw [tight,level]; decide) fun m R er ρ le follows loop => ?_
  rw [words,tokensAppend,tokensAppend,tokensNot,tokensCons,tokensCons,tokensAppend,List.append_assoc,List.append_assoc,
    List.cons_append,List.cons_append,List.append_assoc]
  refine h.placedClosed closed le (notEnds negated (s := .in_) (by decide)) ?_
  refine loopIn negated rfl rfl ?_ loop
  cases items with
  | nil => exact noItems rfl rfl
  | cons t ts =>
    have start := listStart t ts
    exact itemsParsed rfl rfl ⟨aheadStart start (by decide),aheadStart start (by decide),aheadStart start (by decide)⟩
      (listRead rfl (t :: ts) nofun all).2

theorem callReads (name : Ident) (distinct : Bool) {args : List Tree} (all : ∀ t ∈ args, Reads F t) : Reads F (.call name distinct args) := by
  refine .ofPrim fun R er ends => ?_
  rw [words,tokensCons,tokensCons,tokensAppend,tokensAppend,tokensDistinct,List.cons_append,List.cons_append,List.append_assoc,
    List.append_assoc]
  refine callParsed rfl rfl ?_
  cases args with
  | nil => exact noneCalled name.1 distinct rfl rfl ends
  | cons t ts =>
    have start := listStart t ts
    exact argsCalled name.1 distinct rfl rfl ends
      ⟨aheadStart start (by decide),aheadStart start (by decide),aheadStart start (by decide)⟩ (listRead rfl (t :: ts) nofun all).1

theorem callStarReads (name : Ident) (distinct : Bool) : Reads F (.callStar name distinct) := by
  refine .ofPrim fun R er ends => ?_
  rw [words,tokensCons,tokensCons,tokensAppend,tokensDistinct,List.cons_append,List.cons_append,List.append_assoc]
  exact callParsed rfl rfl (starCalled name.1 distinct rfl rfl rfl ends)

theorem leafReads {w : Word} (is : t.words = [w]) (value : leaf (w.token F) = some (t.ast F)) : Reads F t := by
  refine .ofPrim fun R er _ => ?_
  rw [is]
  exact leafParsed value

mutual
theorem plainReads : (t : Tree) → t.plain → Reads F t
  | col none _,_ => .ofPrim fun _ _ ends => nameParsed rfl ends
  | col (some _) _,_ => .ofPrim fun _ _ _ => qualifiedParsed rfl rfl
  | int _,_ | float _,_ | str _,_ | null,_ | bool true,_ | bool false,_ => leafReads rfl rfl
  | call name distinct args,h => callReads name distinct (allRead args h)
  | callStar name distinct,_ => callStarReads name distinct
  | bin op l r,h => binReads op (plainReads l h.1) (plainReads r h.2)
  | not_ t,h => notReads (plainReads t h.2) h.1
  | neg t,h => negReads (plainReads t h)
  | isNull negated t,h => isNullReads negated (plainReads t h.2) h.1
  | notLike anyCase l r,h => notLikeReads anyCase (plainReads l h.2.1) h.1 (plainReads r h.2.2)
  | between negated t low high,h =>
    betweenReads negated (plainReads t h.2.1) h.1 (plainReads low h.2.2.2.1) h.2.2.1 (plainReads high h.2.2.2.2.2) h.2.2.2.2.1
  | inList negated t items,h => inListReads negated (plainReads t h.2.1) h.1 (allRead items h.2.2)

theorem allRead : (ts : List Tree) → allPlain ts → ∀ t ∈ ts, Reads F t
  | [],_ => nofun
  | t :: ts,h => List.forall_mem_cons.mpr ⟨plainReads t h.1,allRead ts h.2⟩
end

/-- The text of a tree is read as that tree and nothing else. -/
def ReadBack (F : Type) [JsonDoubles F] (t : Tree) : Prop :=
  ∃ N, ∀ n, N ≤ n → parseExpr n 0 ⟨lexAll F t.text,none⟩ = some (t.ast F,⟨[],none⟩)

theorem plainReadBack (h : t.plain) : t.ReadBack F := by
  have quiet : Quiet ([] : List (Token F)) := .inr (.inr rfl)
  have run := (plainReads (F := F) t h).expr 0 [] none _ (Int.natCast_nonneg _) (quiet.follows t)
    (loopStopped (quiet.stops (Int.le_refl _)) _)
  rw [List.append_nil] at run
  rw [ReadBack,text,lexWritten]
  exact run

end

end Tree

end Napastak.SqlParser
