import Napastak.JsonTrip
import Napastak.TextencExact

/-! JSON string literals and the text `parse_string` makes of them. -/
namespace Napastak.Json
open Query Textenc
open String (utf8EncodeChar)

/-! ### Literals -/

structure HexDigit where
  byte : UInt8
  hex : (48 ≤ byte ∧ byte ≤ 57) ∨ (65 ≤ byte ∧ byte ≤ 70) ∨ (97 ≤ byte ∧ byte ≤ 102)

def HexDigit.value (d : HexDigit) : Nat :=
  if d.byte ≤ 57 then d.byte.toNat - 48 else if d.byte ≤ 70 then d.byte.toNat - 55 else d.byte.toNat - 87

/-- The digits of `\uXXXX`. -/
structure Quad where
  a : HexDigit
  b : HexDigit
  c : HexDigit
  d : HexDigit

def Quad.value (q : Quad) : Nat := ((q.a.value * 16 + q.b.value) * 16 + q.c.value) * 16 + q.d.value

def Quad.text (q : Quad) : Bytes := [92,117,q.a.byte,q.b.byte,q.c.byte,q.d.byte]

/-- The escapes of one letter. -/
inductive Short where
  | quote | slash | solidus | b | f | n | r | t
  deriving DecidableEq, Repr

def Short.letter : Short → UInt8
  | .quote => 34
  | .slash => 92
  | .solidus => 47
  | .b => 98
  | .f => 102
  | .n => 110
  | .r => 114
  | .t => 116

def Short.char : Short → Char
  | .quote => '"'
  | .slash => '\\'
  | .solidus => '/'
  | .b => '\x08'
  | .f => '\x0c'
  | .n => '\n'
  | .r => '\r'
  | .t => '\t'

/-- What stands for one character in a literal. A surrogate alone is an escape of the grammar that denotes none. -/
inductive Piece where
  | raw (c : Char) (plain : 0x20 ≤ c.toNat ∧ c ≠ '"' ∧ c ≠ '\\')
  | short (e : Short)
  | unit (q : Quad) (single : surrogate q.value = false)
  | pair (hi lo : Quad) (high : leading hi.value = true) (low : trailing lo.value = true)

def Piece.text : Piece → Bytes
  | .raw c _ => utf8EncodeChar c
  | .short e => [92,e.letter]
  | .unit q _ => q.text
  | .pair hi lo _ _ => hi.text ++ lo.text

def Piece.char : Piece → Char
  | .raw c _ => c
  | .short e => e.char
  | .unit q _ => Char.ofNat q.value
  | .pair hi lo _ _ => Char.ofNat (0x10000 + (hi.value - 0xD800) * 0x400 + (lo.value - 0xDC00))

def literal (ps : List Piece) : Bytes := 34 :: (ps.flatMap Piece.text ++ [34])

/-- The text a literal denotes, in UTF-8. -/
def denoted (ps : List Piece) : Bytes := (ps.map Piece.char).flatMap utf8EncodeChar

/-- No `\b`, no `\f` and no pair of surrogates. -/
def Piece.known : Piece → Bool
  | .short .b => false
  | .short .f => false
  | .pair .. => false
  | _ => true

/-! ### What is read of a piece -/

def Piece.read : Piece → Bytes
  | .raw c _ => utf8EncodeChar c
  | .short e => [unescape e.letter]
  | .unit q _ => putUtf8 q.value
  | .pair hi lo _ _ => putUtf8 hi.value ++ putUtf8 lo.value

theorem hexRange (d : HexDigit) : d.value < 16 ∧ ∀ cp, hexStep cp d.byte = cp * 16 + d.value := by
  obtain ⟨byte,hex⟩ := d
  have nums : (48 ≤ byte.toNat ∧ byte.toNat ≤ 57) ∨ (65 ≤ byte.toNat ∧ byte.toNat ≤ 70) ∨ (97 ≤ byte.toNat ∧ byte.toNat ≤ 102) := hex
  simp only [HexDigit.value,hexStep,UInt8.le_iff_toNat_le,show (48 : UInt8).toNat = 48 from rfl,show (57 : UInt8).toNat = 57 from rfl,
    show (65 : UInt8).toNat = 65 from rfl,show (70 : UInt8).toNat = 70 from rfl,show (97 : UInt8).toNat = 97 from rfl,
    show (102 : UInt8).toNat = 102 from rfl]
  constructor
  · split
    · omega
    split <;> omega
  · intro cp
    rcases nums with h | h | h
    · rw [if_pos h,if_pos h.2]
    · rw [if_neg (by omega),if_neg (by omega),if_pos h,if_neg (by omega),if_pos h.2]
    · rw [if_neg (by omega),if_pos h,if_neg (by omega),if_neg (by omega)]

theorem quadSmall (q : Quad) : q.value < 0x10000 := by
  have a := (hexRange q.a).1
  have b := (hexRange q.b).1
  have c := (hexRange q.c).1
  have d := (hexRange q.d).1
  unfold Quad.value
  omega

theorem quadUnit (q : Quad) : codeUnit [q.a.byte,q.b.byte,q.c.byte,q.d.byte] = putUtf8 q.value := by
  have sum : [q.a.byte,q.b.byte,q.c.byte,q.d.byte].foldl hexStep 0 = q.value := by
    simp only [List.foldl_cons,List.foldl_nil,(hexRange _).2,Quad.value,Nat.zero_mul,Nat.zero_add]
  have small := quadSmall q
  rw [codeUnit,sum]
  rcases putBytes (show q.value < 0x110000 by omega) with ⟨low,eq⟩ | ⟨h,t,hh,ht,is,low,eq⟩ | ⟨h,t,u,hh,ht,hu,is,low,eq⟩ |
    ⟨_,_,_,_,_,_,_,_,_,low,_⟩
  · rw [if_pos low,eq]
  · rw [if_neg (by omega),if_pos (by omega),eq,show q.value / 64 = h by omega,show q.value % 64 = t by omega,Nat.add_comm 192,
      Nat.add_comm 128]
  · rw [if_neg (by omega),if_neg (by omega),eq,show q.value / 4096 = h by omega,show q.value / 64 % 64 = t by omega,
      show q.value % 64 = u by omega,Nat.add_comm 224,Nat.add_comm 128,Nat.add_comm 128]
  · omega

theorem quadRead (q : Quad) (s : Bytes) : parseChars (q.text ++ s) = (putUtf8 q.value ++ (parseChars s).1,(parseChars s).2) := by
  have unit := charsUnit q.a.byte q.b.byte q.c.byte q.d.byte s
  rwa [quadUnit] at unit

/-- No byte of a plain character is a quote or a backslash. -/
theorem plainBytes {c : Char} (plain : 0x20 ≤ c.toNat ∧ c ≠ '"' ∧ c ≠ '\\') : ∀ b ∈ utf8EncodeChar c, b ≠ 34 ∧ b ≠ 92 := by
  obtain ⟨b,bs,eq,_,_,tails,single⟩ := Utf8.headTails c
  have tailOther : ∀ t : UInt8, Utf8.tail t = true → t ≠ 34 ∧ t ≠ 92 := by
    intro t is
    constructor <;> rintro rfl <;> revert is <;> decide
  intro x mem
  rw [eq] at mem
  rcases List.mem_cons.mp mem with rfl | mem
  · rcases Utf8.encoded c with ⟨low,is⟩ | ⟨h,_,hh,_,_,_,is⟩ | ⟨h,_,_,hh,_,_,_,_,is⟩ | ⟨h,_,_,_,hh,_,_,_,_,_,is⟩ <;>
      rw [is] at eq <;> obtain ⟨first,_⟩ := List.cons.inj eq <;> rw [← first]
    · have back : (UInt8.ofNat c.toNat).toNat = c.toNat := UInt8.toNat_ofNat_of_lt' (Nat.lt_trans low (by decide))
      constructor <;> intro same <;> rw [same] at back
      · exact plain.2.1 (Char.toNat_inj.mp back.symm)
      · exact plain.2.2 (Char.toNat_inj.mp back.symm)
    · have all : ∀ h < 32, UInt8.ofNat (h + 0xC0) ≠ 34 ∧ UInt8.ofNat (h + 0xC0) ≠ 92 := by decide
      exact all h hh
    · have all : ∀ h < 16, UInt8.ofNat (h + 0xE0) ≠ 34 ∧ UInt8.ofNat (h + 0xE0) ≠ 92 := by decide
      exact all h hh
    · have all : ∀ h < 8, UInt8.ofNat (h + 0xF0) ≠ 34 ∧ UInt8.ofNat (h + 0xF0) ≠ 92 := by decide
      exact all h hh
  · exact tailOther x (tails x mem)

theorem plainRead {bs : Bytes} (plain : ∀ b ∈ bs, b ≠ 34 ∧ b ≠ 92) (s : Bytes) :
    parseChars (bs ++ s) = (bs ++ (parseChars s).1,(parseChars s).2) := by
  induction bs with
  | nil => rfl
  | cons b bs ih =>
    obtain ⟨quote,slash⟩ := plain b List.mem_cons_self
    rw [List.cons_append,charsOther quote slash,ih fun c mem => plain c (List.mem_cons_of_mem _ mem)]
    rfl

theorem pieceRead (p : Piece) (s : Bytes) : parseChars (p.text ++ s) = (p.read ++ (parseChars s).1,(parseChars s).2) := by
  cases p with
  | raw c plain => exact plainRead (plainBytes plain) s
  | short e => exact charsSlash (by cases e <;> decide) s
  | unit q _ => exact quadRead q s
  | pair hi lo _ _ => simp only [Piece.text,Piece.read,List.append_assoc,quadRead]

theorem literalRead (ps : List Piece) (rest : Bytes) : parseChars (ps.flatMap Piece.text ++ 34 :: rest) = (ps.flatMap Piece.read,rest) := by
  induction ps with
  | nil => exact charsQuote rest
  | cons p ps ih => simp only [List.flatMap_cons,List.append_assoc,pieceRead,ih]

/-! ### What it should be -/

theorem unitChar {n : Nat} (small : n < 0x110000) (single : surrogate n = false) : putUtf8 n = utf8EncodeChar (Char.ofNat n) := by
  obtain ⟨c,rfl⟩ := scalar small single
  rw [putChar,Char.ofNat_toNat]

/-- A surrogate takes three bytes and a character beyond the basic plane four. -/
theorem pairLonger {hi lo : Quad} (high : leading hi.value = true) (low : trailing lo.value = true) :
    (putUtf8 hi.value ++ putUtf8 lo.value).length = 6 ∧
      (utf8EncodeChar (Char.ofNat (0x10000 + (hi.value - 0xD800) * 0x400 + (lo.value - 0xDC00)))).length = 4 := by
  simp only [leading,trailing,Bool.and_eq_true,decide_eq_true_eq] at high low
  constructor
  · rcases putBytes (show hi.value < 0x110000 by omega) with ⟨_,_⟩ | ⟨_,_,_,_,_,_,_⟩ | ⟨_,_,_,_,_,_,_,_,eq⟩ | ⟨_,_,_,_,_,_,_,_,_,_,_⟩ <;>
      try omega
    rcases putBytes (show lo.value < 0x110000 by omega) with ⟨_,_⟩ | ⟨_,_,_,_,_,_,_⟩ | ⟨_,_,_,_,_,_,_,_,eq'⟩ | ⟨_,_,_,_,_,_,_,_,_,_,_⟩ <;>
      try omega
    rw [eq,eq']
    rfl
  · have apart : surrogate (0x10000 + (hi.value - 0xD800) * 0x400 + (lo.value - 0xDC00)) = false := by
      simp only [surrogate,Bool.and_eq_false_iff,decide_eq_false_iff_not]
      omega
    rw [← unitChar (by omega) apart]
    rcases putBytes (show 0x10000 + (hi.value - 0xD800) * 0x400 + (lo.value - 0xDC00) < 0x110000 by omega) with ⟨_,_⟩ | ⟨_,_,_,_,_,_,_⟩ |
      ⟨_,_,_,_,_,_,_,_,_⟩ | ⟨_,_,_,_,_,_,_,_,_,_,eq⟩ <;> try omega
    rw [eq]
    rfl

theorem pieceLonger (p : Piece) : (utf8EncodeChar p.char).length ≤ p.read.length := by
  cases p with
  | raw c _ => exact Nat.le_refl _
  | short e => cases e <;> decide
  | unit q single => rw [Piece.read,unitChar (Nat.lt_trans (quadSmall q) (by decide)) single]; exact Nat.le_refl _
  | pair hi lo high low =>
    obtain ⟨six,four⟩ := pairLonger high low
    rw [Piece.read,six,Piece.char,four]
    decide

theorem pieceExact (p : Piece) : p.read = utf8EncodeChar p.char ↔ p.known = true := by
  cases p with
  | raw c _ => exact ⟨fun _ => rfl,fun _ => rfl⟩
  | short e => cases e <;> decide
  | unit q single => exact ⟨fun _ => rfl,fun _ => unitChar (Nat.lt_trans (quadSmall q) (by decide)) single⟩
  | pair hi lo high low =>
    obtain ⟨six,four⟩ := pairLonger high low
    refine ⟨fun same => ?_,nofun⟩
    have length := congrArg List.length same
    rw [Piece.read,six,Piece.char,four] at length
    cases length

theorem piecesLonger (ps : List Piece) : (denoted ps).length ≤ (ps.flatMap Piece.read).length := by
  induction ps with
  | nil => exact Nat.le_refl _
  | cons p ps ih =>
    have one := pieceLonger p
    simp only [denoted,List.map_cons,List.flatMap_cons,List.length_append] at ih ⊢
    omega

theorem piecesExact (ps : List Piece) : ps.flatMap Piece.read = denoted ps ↔ ∀ p ∈ ps, p.known = true := by
  induction ps with
  | nil => exact ⟨fun _ p mem => absurd mem List.not_mem_nil,fun _ => rfl⟩
  | cons p ps ih =>
    have split_ : denoted (p :: ps) = utf8EncodeChar p.char ++ denoted ps := rfl
    rw [split_,List.flatMap_cons,List.forall_mem_cons,← ih,← pieceExact]
    refine ⟨fun same => ?_,fun ⟨one,rest⟩ => by rw [one,rest]⟩
    have one := pieceLonger p
    have rest := piecesLonger ps
    have total := congrArg List.length same
    rw [List.length_append,List.length_append] at total
    exact List.append_inj same (by omega)

section
variable {F : Type} [Doubles F]

theorem literalValue (n : Nat) (ps : List Piece) (rest : Bytes) :
    jsonParse (n + 1) (literal ps ++ rest) = some (.string (ps.flatMap Piece.read) : JVal F) := by
  have read := literalRead ps rest
  have blank : isspace 34 = false := by decide
  rw [jsonParse,literal,List.cons_append,List.append_assoc,List.singleton_append,parseValue,skipWs,List.dropWhile_cons_of_neg (by simp [blank])]
  simp only [if_true,read,Option.map_some]

/-- A string literal gives the text it denotes exactly when it has no `\b`, no `\f` and no pair of surrogates. -/
theorem literalKeptIff (n : Nat) (ps : List Piece) (rest : Bytes) :
    jsonParse (n + 1) (literal ps ++ rest) = some (.string (denoted ps) : JVal F) ↔ ∀ p ∈ ps, p.known = true := by
  rw [literalValue,← piecesExact,Option.some.injEq,JVal.string.injEq]

end

/-- `"\b"` is read as the letter. -/
theorem backspaceLost : ¬ ∀ (ps : List Piece) (n : Nat), jsonParse (n + 1) (literal ps) = some (.string (denoted ps) : JVal Int) := by
  intro all
  have read := literalValue (F := Int) 0 [.short .b] []
  rw [List.append_nil,all,Option.some.injEq,JVal.string.injEq] at read
  revert read
  decide

end Napastak.Json
