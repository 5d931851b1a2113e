import Napastak.Val
import Napastak.Decimal
import Napastak.Lib.Munch

/-! `lex_next`, the scanner of the SQL parser, and its rules: what a lexeme is, and which bytes after it would still
belong to it. -/
namespace Napastak.Sql
open Query Munch

inductive TkType
  | eof | ident | numInt | numFloat | string | star | comma | dot | lparen | rparen | eq | ne | lt | le | gt | ge
  | plus | minus | slash | percent | concat | semicolon | error
  | select | from_ | where_ | group | by_ | having_ | order | limit | offset | as_ | join_ | left_ | right_
  | full_ | inner_ | outer_ | on_ | distinct | insert_ | into_ | values_ | null | true_ | false_ | is_ | like
  | ilike | in_ | between | and_ | or_ | not_ | asc | desc | case_ | when_ | then_ | else_ | end_ | union_
  | intersect_ | except | all_ | cross_ | with_ | recursive | nulls | first_ | last_ | exists_ | cast_ | over_
  | partition_ | rows | range_ | unbounded | preceding | following | current_ | row | update_ | set_ | delete_
  | begin_ | commit | rollback | transaction
  deriving DecidableEq, Repr

/-- `KEYWORDS`. -/
def keywords : List (String × TkType) :=
  [("SELECT",.select),("FROM",.from_),("WHERE",.where_),("GROUP",.group),("BY",.by_),("HAVING",.having_),
   ("ORDER",.order),("LIMIT",.limit),("OFFSET",.offset),("AS",.as_),("JOIN",.join_),("LEFT",.left_),
   ("RIGHT",.right_),("FULL",.full_),("INNER",.inner_),("OUTER",.outer_),("ON",.on_),("DISTINCT",.distinct),
   ("INSERT",.insert_),("INTO",.into_),("VALUES",.values_),("NULL",.null),("TRUE",.true_),("FALSE",.false_),
   ("IS",.is_),("LIKE",.like),("ILIKE",.ilike),("IN",.in_),("BETWEEN",.between),("AND",.and_),("OR",.or_),
   ("NOT",.not_),("ASC",.asc),("DESC",.desc),("CASE",.case_),("WHEN",.when_),("THEN",.then_),("ELSE",.else_),
   ("END",.end_),("UNION",.union_),("INTERSECT",.intersect_),("EXCEPT",.except),("ALL",.all_),("CROSS",.cross_),
   ("WITH",.with_),("RECURSIVE",.recursive),("NULLS",.nulls),("FIRST",.first_),("LAST",.last_),
   ("EXISTS",.exists_),("CAST",.cast_),("OVER",.over_),("PARTITION",.partition_),("ROWS",.rows),
   ("RANGE",.range_),("UNBOUNDED",.unbounded),("PRECEDING",.preceding),("FOLLOWING",.following),
   ("CURRENT",.current_),("ROW",.row),("UPDATE",.update_),("SET",.set_),("DELETE",.delete_),("BEGIN",.begin_),
   ("COMMIT",.commit),("ROLLBACK",.rollback),("TRANSACTION",.transaction)]

structure Token (F : Type) where
  type : TkType
  text : Bytes
  ival : Int64
  fval : F
  deriving DecidableEq, Repr

/-- The operators: alone, and with a second byte. -/
def operatorTable : List (UInt8 × TkType × List (UInt8 × TkType)) :=
  [(42,.star,[]),(44,.comma,[]),(46,.dot,[]),(40,.lparen,[]),(41,.rparen,[]),(43,.plus,[]),(45,.minus,[]),(47,.slash,[]),
   (37,.percent,[]),(59,.semicolon,[]),(61,.eq,[]),(60,.lt,[(61,.le),(62,.ne)]),(62,.gt,[(61,.ge)]),(33,.error,[(61,.ne)]),
   (124,.error,[(124,.concat)])]

def operators (c : UInt8) : Option (TkType × List (UInt8 × TkType)) := operatorTable.lookup c

def wordChar (c : UInt8) : Bool := isalpha c || isdigit c || c = 95

/-- What is left behind a block comment. One that does not end stops before the last byte. -/
def blockEnd : Bytes → Bytes
  | [] => []
  | [c] => [c]
  | c :: d :: s => if c = 42 ∧ d = 47 then s else blockEnd (d :: s)

/-- A string literal after its opening quote, doubled quotes as they stand, and what is left behind it. -/
def stringBody : Bytes → Bytes × Bytes
  | [] => ([],[])
  | [c] => if c = 39 then ([],[]) else ([c],[])
  | c :: d :: s =>
    if c = 39 then if d = 39 then (39 :: 39 :: (stringBody s).1,(stringBody s).2) else ([],d :: s)
    else (c :: (stringBody (d :: s)).1,(stringBody (d :: s)).2)

/-- Where in a number the scanner is. -/
inductive NumState
  | int | frac | exp | expDigits
  deriving DecidableEq, Repr

def numNext : NumState → UInt8 → Option NumState
  | .int, c => if isdigit c then some .int else if c = 46 then some .frac else if c = 101 ∨ c = 69 then some .exp else none
  | .frac, c => if isdigit c then some .frac else if c = 101 ∨ c = 69 then some .exp else none
  | .exp, c => if c = 43 ∨ c = 45 ∨ isdigit c then some .expDigits else none
  | .expDigits, c => if isdigit c then some .expDigits else none

section
variable (F : Type) [Doubles F]

variable {F} in
def strtod (s : Bytes) : F := ((Doubles.strtod s).map (·.1)).getD Doubles.zero

def tok (t : TkType) : Token F := ⟨t,[],0,Doubles.zero⟩

def numToken (x : Bytes) (st : NumState) : Token F :=
  if st = .int then ⟨.numInt,x,strtoll x,Doubles.zero⟩ else ⟨.numFloat,x,0,strtod x⟩

/-- A keyword or an identifier; only 127 bytes of it are looked up. -/
def wordToken (w : Bytes) : Token F :=
  match keywords.find? fun k => ascii k.1 = (w.take 127).map toupper with
  | some k => ⟨k.2,w,0,Doubles.zero⟩
  | none => ⟨.ident,w,0,Doubles.zero⟩

/-- One round of `lex_next`: blanks and comments give no token. -/
def lexStep : Bytes → List (Token F) × Bytes
  | [] => ([],[])
  | c :: s =>
    if isspace c then ([],s)
    else if c = 45 ∧ s.head? = some 45 then ([],(s.drop 1).dropWhile (· ≠ 10))
    else if c = 47 ∧ s.head? = some 42 then ([],blockEnd (s.drop 1))
    else match operators c with
      | some (t,pairs) => match s.head?.bind fun y => pairs.lookup y with
        | some u => ([tok F u],s.drop 1)
        | none => ([tok F t],s)
      | none =>
        if c = 34 ∨ c = 96 then ([⟨.ident,s.takeWhile (· ≠ c),0,Doubles.zero⟩],(s.dropWhile (· ≠ c)).drop 1)
        else if c = 39 then ([⟨.string,(stringBody s).1,0,Doubles.zero⟩],(stringBody s).2)
        else if isdigit c then
          let (x,r,st) := munch numNext .int (c :: s)
          ([numToken F x st],r)
        else if isalpha c ∨ c = 95 then ([wordToken F (c :: s.takeWhile wordChar)],s.dropWhile wordChar)
        else ([tok F .error],s)

/-- The tokens of a text. -/
def lexAll (s : Bytes) : List (Token F) := (scan (lexStep F) s).flatten

end

end Napastak.Sql
