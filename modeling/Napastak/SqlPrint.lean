import Napastak.SqlParser
import Napastak.Lexeme

/-! Expressions as SQL writes them, with the parentheses its precedence and left associativity ask for, and their
tokens. -/
namespace Napastak.SqlParser
open Query Sql Munch

/-! ### The leaves -/

/-- A name that one of the two quotes can enclose. -/
def Ident : Type := {b : Bytes // 34 ∉ b ∨ 96 ∉ b}

/-- The digits of an integer. -/
def Digits : Type := {b : Bytes // b ≠ [] ∧ ∀ c ∈ b, isdigit c = true}

/-- A number with a point or an exponent. -/
def Fraction : Type := {b : Bytes // ∃ c x st, b = c :: x ∧ isdigit c = true ∧ path numNext .int b = some st ∧ st ≠ .int}

/-- The text of a literal between its quotes. -/
def Quoted : Type := {b : Bytes // Paired b}

/-- Operators and keywords of expressions. -/
inductive Sym
  | lparen | rparen | comma | dot | star | plus | minus | slash | percent | concat | eq | ne | lt | le | gt | ge
  | or_ | and_ | not_ | is_ | null | like | ilike | in_ | between | true_ | false_ | distinct
  deriving DecidableEq, Repr

def Sym.type : Sym → TkType
  | .lparen => .lparen
  | .rparen => .rparen
  | .comma => .comma
  | .dot => .dot
  | .star => .star
  | .plus => .plus
  | .minus => .minus
  | .slash => .slash
  | .percent => .percent
  | .concat => .concat
  | .eq => .eq
  | .ne => .ne
  | .lt => .lt
  | .le => .le
  | .gt => .gt
  | .ge => .ge
  | .or_ => .or_
  | .and_ => .and_
  | .not_ => .not_
  | .is_ => .is_
  | .null => .null
  | .like => .like
  | .ilike => .ilike
  | .in_ => .in_
  | .between => .between
  | .true_ => .true_
  | .false_ => .false_
  | .distinct => .distinct

def Sym.text : Sym → Bytes
  | .lparen => [40]
  | .rparen => [41]
  | .comma => [44]
  | .dot => [46]
  | .star => [42]
  | .plus => [43]
  | .minus => [45]
  | .slash => [47]
  | .percent => [37]
  | .concat => [124,124]
  | .eq => [61]
  | .ne => [60,62]
  | .lt => [60]
  | .le => [60,61]
  | .gt => [62]
  | .ge => [62,61]
  | .or_ => ascii "OR"
  | .and_ => ascii "AND"
  | .not_ => ascii "NOT"
  | .is_ => ascii "IS"
  | .null => ascii "NULL"
  | .like => ascii "LIKE"
  | .ilike => ascii "ILIKE"
  | .in_ => ascii "IN"
  | .between => ascii "BETWEEN"
  | .true_ => ascii "TRUE"
  | .false_ => ascii "FALSE"
  | .distinct => ascii "DISTINCT"

inductive Word
  | name (i : Ident)
  | digits (d : Digits)
  | fraction (d : Fraction)
  | quoted (s : Quoted)
  | sym (s : Sym)

/-- A name is written as it is where the scanner takes it for an identifier. -/
def plainName (b : Bytes) : Bool :=
  match b with
  | [] => false
  | c :: w => (isalpha c || c = 95) && w.all wordChar && (keywords.find? fun k => ascii k.1 = (b.take 127).map toupper).isNone

def Word.text : Word → Bytes
  | .name i =>
    if plainName i.1 then i.1
    else if 34 ∈ i.1 then 96 :: (i.1 ++ [96]) else 34 :: (i.1 ++ [34])
  | .digits d => d.1
  | .fraction d => d.1
  | .quoted s => 39 :: (s.1 ++ [39])
  | .sym s => s.text

/-- Words with a blank behind each. -/
def written (ws : List Word) : Bytes := ws.flatMap fun w => w.text ++ [32]

section
variable (F : Type) [Doubles F]

/-- A keyword's token has its text, an operator's has none. -/
def Sym.token (s : Sym) : Token F := ⟨s.type,if s.text.all isalpha then s.text else [],0,Doubles.zero⟩

def Word.token : Word → Token F
  | .name i => ⟨.ident,i.1,0,Doubles.zero⟩
  | .digits d => ⟨.numInt,d.1,strtoll d.1,Doubles.zero⟩
  | .fraction d => ⟨.numFloat,d.1,0,strtod d.1⟩
  | .quoted s => ⟨.string,s.1,0,Doubles.zero⟩
  | .sym s => s.token F

end

/-! ### The trees -/

inductive BinOp
  | or_ | and_ | eq | ne | lt | le | gt | ge | like | ilike | concat | add | sub | mul | div | mod
  deriving DecidableEq, Repr

def BinOp.sym : BinOp → Sym
  | .or_ => .or_
  | .and_ => .and_
  | .eq => .eq
  | .ne => .ne
  | .lt => .lt
  | .le => .le
  | .gt => .gt
  | .ge => .ge
  | .like => .like
  | .ilike => .ilike
  | .concat => .concat
  | .add => .plus
  | .sub => .minus
  | .mul => .star
  | .div => .slash
  | .mod => .percent

def BinOp.op : BinOp → OpType
  | .or_ => .or_
  | .and_ => .and_
  | .eq => .eq
  | .ne => .ne
  | .lt => .lt
  | .le => .le
  | .gt => .gt
  | .ge => .ge
  | .like => .like
  | .ilike => .ilike
  | .concat => .concat
  | .add => .add
  | .sub => .sub
  | .mul => .mul
  | .div => .div
  | .mod => .mod

/-- How tightly an operator binds: OR, AND, NOT, predicates, `||`, sums, products, unary minus. -/
def BinOp.prec : BinOp → Nat
  | .or_ => 1
  | .and_ => 2
  | .eq | .ne | .lt | .le | .gt | .ge | .like | .ilike => 4
  | .concat => 5
  | .add | .sub => 6
  | .mul | .div | .mod => 7

inductive Tree
  | col (table : Option Ident) (name : Ident)
  | int (d : Digits)
  | float (d : Fraction)
  | str (s : Quoted)
  | null
  | bool (b : Bool)
  | call (name : Ident) (distinct : Bool) (args : List Tree)
  | callStar (name : Ident) (distinct : Bool)
  | bin (op : BinOp) (left right : Tree)
  | not_ (t : Tree)
  | neg (t : Tree)
  | isNull (negated : Bool) (t : Tree)
  | notLike (anyCase : Bool) (left right : Tree)
  | between (negated : Bool) (t low high : Tree)
  | inList (negated : Bool) (t : Tree) (items : List Tree)

namespace Tree

def level : Tree → Nat
  | bin op _ _ => op.prec
  | not_ _ => 3
  | isNull .. | notLike .. | between .. | inList .. => 4
  | neg _ => 8
  | _ => 9

/-- An operand in its place: in parentheses when it binds less tightly than the place asks for. -/
def placed (p : Nat) (t : Tree) (ws : List Word) : List Word :=
  if t.level < p then .sym .lparen :: (ws ++ [.sym .rparen]) else ws

def notWord (negated : Bool) : List Word := if negated then [.sym .not_] else []

mutual
def words : Tree → List Word
  | col none name => [.name name]
  | col (some table) name => [.name table,.sym .dot,.name name]
  | int d => [.digits d]
  | float d => [.fraction d]
  | str s => [.quoted s]
  | null => [.sym .null]
  | bool b => [.sym (if b then .true_ else .false_)]
  | call name distinct args =>
    .name name :: .sym .lparen :: ((if distinct then [.sym .distinct] else []) ++ (listWords args ++ [.sym .rparen]))
  | callStar name distinct =>
    .name name :: .sym .lparen :: ((if distinct then [.sym .distinct] else []) ++ [.sym .star,.sym .rparen])
  | bin op l r => placed op.prec l l.words ++ .sym op.sym :: placed (op.prec + 1) r r.words
  | not_ t => .sym .not_ :: placed 3 t t.words
  | neg t => .sym .minus :: placed 8 t t.words
  | isNull negated t => placed 4 t t.words ++ .sym .is_ :: (notWord negated ++ [.sym .null])
  | notLike anyCase l r =>
    placed 4 l l.words ++ .sym .not_ :: .sym (if anyCase then .ilike else .like) :: placed 5 r r.words
  | between negated t low high =>
    placed 4 t t.words ++ (notWord negated ++ .sym .between :: (placed 5 low low.words ++ .sym .and_ :: placed 5 high high.words))
  | inList negated t items =>
    placed 4 t t.words ++ (notWord negated ++ .sym .in_ :: .sym .lparen :: (listWords items ++ [.sym .rparen]))

/-- Trees between commas. -/
def listWords : List Tree → List Word
  | [] => []
  | t :: ts => t.words ++ (if ts.isEmpty then [] else .sym .comma :: listWords ts)
end

/-- The text of a tree, with no more parentheses than precedence and left associativity ask for. -/
def text (t : Tree) : Bytes := written t.words

section
variable (F : Type) [Doubles F]

mutual
def ast : Tree → Expr F
  | col table name => .col (table.map (·.1)) name.1
  | int d => .int (strtoll d.1) d.1
  | float d => .float (strtod d.1)
  | str s => .str s.1
  | null => .null
  | bool b => .bool b
  | call name distinct args => .func name.1 (asts args) distinct
  | callStar name distinct => .func name.1 [.star none] distinct
  | bin op l r => .binop op.op l.ast r.ast
  | not_ t => .unop .not_ t.ast
  | neg t => .unop .sub t.ast
  | isNull negated t => .unop (if negated then .isNotNull else .isNull) t.ast
  | notLike anyCase l r => .binop (if anyCase then .notIlike else .notLike) l.ast r.ast
  | between negated t low high => .binop (if negated then .notBetween else .between) t.ast (.binop .and_ low.ast high.ast)
  | inList negated t items => .binop (if negated then .notIn else .in_) t.ast (.list (asts items))

def asts : List Tree → List (Expr F)
  | [] => []
  | t :: ts => t.ast :: asts ts
end

end

end Tree

/-! ### The text is scanned into its words -/

section
variable {F : Type} [Doubles F]

theorem symLexeme (s : Sym) : ∃ go, Lexeme F s.text [s.token F] go ∧ go 32 = false := by
  cases s
  case lparen | rparen | comma | dot | star | plus | minus | slash | percent | eq | lt | gt =>
    exact ⟨_,.op rfl,rfl⟩
  case concat | ne | le | ge => exact ⟨_,.pair rfl rfl,rfl⟩
  all_goals exact ⟨_,.word (.inl rfl) (List.all_eq_true.mp rfl),rfl⟩

theorem digitsInt {x : Bytes} (digits : ∀ c ∈ x, isdigit c = true) : path numNext .int x = some .int := by
  induction x with
  | nil => rfl
  | cons c x ih =>
    obtain ⟨here,later⟩ := List.forall_mem_cons.mp digits
    rw [path,numNext,if_pos here]
    exact ih later

theorem wordLexeme (w : Word) : ∃ go, Lexeme F w.text [w.token F] go ∧ go 32 = false := by
  cases w with
  | sym s => exact symLexeme s
  | quoted s => exact ⟨_,.string s.2,rfl⟩
  | digits d =>
    obtain ⟨x,some_,digits⟩ := d
    cases x with
    | nil => exact absurd rfl some_
    | cons c x => exact ⟨_,.number (digits c List.mem_cons_self) (digitsInt digits),rfl⟩
  | fraction d =>
    obtain ⟨_,c,x,st,rfl,digit_,taken,other⟩ := d
    refine ⟨fun y => (numNext st y).isSome,?_,?_⟩
    · have token : (Word.fraction ⟨c :: x,c,x,st,rfl,digit_,taken,other⟩).token F = numToken F (c :: x) st := by
        rw [numToken,if_neg other]
        rfl
      rw [token]
      exact .number digit_ taken
    · cases st <;> rfl
  | name i =>
    obtain ⟨b,quote⟩ := i
    simp only [Word.text,Word.token]
    split
    · rename_i plain
      cases b with
      | nil => cases plain
      | cons c w =>
        simp only [plainName,Bool.and_eq_true,Bool.or_eq_true,decide_eq_true_eq,List.all_eq_true,Option.isNone_iff_eq_none] at plain
        obtain ⟨⟨letter,chars⟩,none_⟩ := plain
        have token : wordToken F (c :: w) = ⟨.ident,c :: w,0,Doubles.zero⟩ := by rw [wordToken,none_]
        refine ⟨wordChar,?_,rfl⟩
        rw [← token]
        exact .word letter chars
    · split
      · rename_i has
        exact ⟨_,.quoted (.inr rfl) fun c hc e => quote.elim (fun h => h has) fun h => h (e ▸ hc),rfl⟩
      · rename_i free
        exact ⟨_,.quoted (.inl rfl) fun c hc e => free (e ▸ hc),rfl⟩

theorem lexWritten (ws : List Word) : lexAll F (written ws) = ws.map (Word.token F) := by
  induction ws with
  | nil => rfl
  | cons w ws ih =>
    obtain ⟨go,lexeme,stop⟩ := wordLexeme (F := F) w
    rw [written,List.flatMap_cons,List.append_assoc,lexAllAppend lexeme fun y hy => by cases hy; exact stop]
    have blank : lexAll F ([32] ++ written ws) = [] ++ lexAll F (written ws) :=
      lexAllAppend (.space rfl) fun y hy => rfl
    rw [written] at blank ih
    rw [blank,ih]
    rfl

end

end Napastak.SqlParser
