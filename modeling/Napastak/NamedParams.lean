import Napastak.Lexeme
import Napastak.Lib.Codec

/-! `named_params_expand`: the placeholders of a template replaced by literals. -/
namespace Napastak.Sql
open Query Munch

/-- The operations on doubles by which a JSON number becomes text: the cast to `long long`, the test that it lies in
±9.2e18, `%.*g`, the sign, and `isfinite`. -/
class JsonDoubles (F : Type) extends Doubles F where
  toLong : F → Int64
  inLong : F → Bool
  printG : Nat → F → Bytes
  neg : F → F
  finite : F → Bool

/-- A JSON value; arrays and objects are taken as one. -/
inductive JVal (F : Type)
  | null
  | bool (b : Bool)
  | number (d : F)
  | string (s : Bytes)
  | compound
  deriving DecidableEq, Repr

/-- `json_get`. -/
def jsonGet {F : Type} (params : List (Bytes × JVal F)) (name : Bytes) : Option (JVal F) :=
  (params.find? (·.1 = name)).map (·.2)

section
variable {F : Type} [JsonDoubles F]

/-- `json_fmt_double`: the first of 15, 16 and 17 digits that reads back as the number. -/
def jsonFmtDouble (d : F) : Bytes :=
  let readsBack (p : Nat) : Bool := Doubles.eq (strtod (JsonDoubles.printG p d)) d
  if readsBack 15 then JsonDoubles.printG 15 d
  else if readsBack 16 then JsonDoubles.printG 16 d
  else JsonDoubles.printG 17 d

def numText (d : F) : Bytes :=
  if Doubles.eq d (Doubles.ofInt (JsonDoubles.toLong d).toInt) && JsonDoubles.inLong d then lld (JsonDoubles.toLong d)
  else jsonFmtDouble d

def doubled (s : Bytes) : Bytes := s.flatMap fun c => if c = 39 then [39,39] else [c]

/-- The literal of a value. -/
def literal : JVal F → Bytes
  | .null => ascii "NULL"
  | .bool b => if b then ascii "true" else ascii "false"
  | .number d => numText d
  | .string s => 39 :: (doubled s ++ [39])
  | .compound => [39,39]

/-- One round of the expander: what it writes, nothing for an unknown name, and what it has left. -/
def expandStep (params : List (Bytes × JVal F)) : Bytes → Option Bytes × Bytes
  | [] => (some [],[])
  | c :: s =>
    if c ≠ 58 then (some [c],s)
    else if s.head? = some 58 then (some [58,58],s.drop 1)
    else
      let name := (s.takeWhile wordChar).take 127
      if name = [] then (some [58],s) else ((jsonGet params name).map literal,s.drop name.length)

def namedParamsExpand (params : List (Bytes × JVal F)) (sql : Bytes) : Option Bytes :=
  ((scan (expandStep params) sql).mapM id).map List.flatten

end

/-! ### What the expansion is to be -/

/-- A stretch of a template: a lexeme with its tokens, colons that name nothing, or a placeholder. -/
inductive Seg (F : Type)
  | text (x : Bytes) (ts : List (Token F))
  | colons (x : Bytes)
  | hole (name : Bytes)

def Seg.source {F : Type} : Seg F → Bytes
  | .text x _ => x
  | .colons x => x
  | .hole name => 58 :: name

section
variable (F : Type) [Doubles F]

/-- The scanner, which stops at a placeholder outside strings, quoted names and comments. -/
def segStep : Bytes → Seg F × Bytes
  | [] => (.text [] [],[])
  | c :: s =>
    if c ≠ 58 then (.text ((c :: s).take ((c :: s).length - (lexStep F (c :: s)).2.length)) (lexStep F (c :: s)).1,(lexStep F (c :: s)).2)
    else if s.head? = some 58 then (.colons [58,58],s.drop 1)
    else if s.takeWhile wordChar = [] then (.colons [58],s)
    else (.hole (s.takeWhile wordChar),s.dropWhile wordChar)

/-- The tokens and placeholders of a template. -/
def segments (sql : Bytes) : List (Seg F) := scan (segStep F) sql

end

section
variable {F : Type} [JsonDoubles F]

/-- The literals of `parse_primary`, a string as it stands between its quotes. -/
def literalValue (t : Token F) : Option (JVal F) :=
  match t.type with
  | .numInt => some (.number (Doubles.ofInt t.ival.toInt))
  | .numFloat => some (.number t.fval)
  | .string => some (.string t.text)
  | .null => some .null
  | .true_ => some (.bool true)
  | .false_ => some (.bool false)
  | _ => none

def sameValue : JVal F → JVal F → Prop
  | .number x, .number y => Doubles.eq x y = true
  | .compound, _ => False
  | v, w => v = w

/-- One literal with the value, a sign counting as part of it. -/
def LiteralOf (v : JVal F) (ts : List (Token F)) : Prop :=
  (∃ t w, ts = [t] ∧ literalValue t = some w ∧ sameValue w v) ∨
    ∃ m t x d, ts = [m,t] ∧ m.type = .minus ∧ literalValue t = some (.number x) ∧ v = .number d ∧
      Doubles.eq (JsonDoubles.neg x) d = true

/-- The tokens of a template with a literal for every placeholder. -/
inductive Filled (params : List (Bytes × JVal F)) : List (Seg F) → List (Token F) → Prop
  | nil : Filled params [] []
  | text {x : Bytes} {us ts : List (Token F)} {segs : List (Seg F)} : Filled params segs ts →
      Filled params (.text x us :: segs) (us ++ ts)
  | colons {x : Bytes} {ts : List (Token F)} {segs : List (Seg F)} : Filled params segs ts →
      Filled params (.colons x :: segs) (x.map (fun _ => tok F .error) ++ ts)
  | hole {name : Bytes} {v : JVal F} {us ts : List (Token F)} {segs : List (Seg F)} : jsonGet params name = some v →
      LiteralOf v us → Filled params segs ts → Filled params (.hole name :: segs) (us ++ ts)

/-- The expansion is a text whose tokens are those of the template with a literal for every placeholder. -/
def Renders (params : List (Bytes × JVal F)) (sql : Bytes) : Prop :=
  ∃ out, namedParamsExpand params sql = some out ∧ Filled params (segments F sql) (lexAll F out)

end

end Napastak.Sql
