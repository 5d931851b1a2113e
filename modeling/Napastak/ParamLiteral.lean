import Napastak.NamedParams

/-! The literals the expander writes: each is one lexeme, its sign apart, and reads back as its value. -/
namespace Napastak.Sql
open Query Munch

/-- What `%.*g` writes for a finite number, without its sign. -/
def Printed (x : Bytes) (st : NumState) : Prop :=
  ∃ c w, x = c :: w ∧ isdigit c = true ∧ path numNext .int x = some st ∧ (st = .int → x.length ≤ 17)

/-- What doubles promise: `==` is symmetric, 17 digits give a number back, signs and whole numbers are read as such. -/
structure LawfulDoubles (F : Type) [JsonDoubles F] : Prop where
  symm : ∀ a b : F, Doubles.eq a b = Doubles.eq b a
  negInt : ∀ i : Int, 0 < i → JsonDoubles.neg (Doubles.ofInt i : F) = Doubles.ofInt (-i)
  inside : ∀ d : F, JsonDoubles.inLong d = true → Doubles.eq d (Doubles.ofInt (JsonDoubles.toLong d).toInt) = true →
    JsonDoubles.toLong d ≠ Int64.minValue
  form : ∀ d : F, JsonDoubles.finite d = true → ∀ p, 15 ≤ p → p ≤ 17 →
    ∃ x st, Printed x st ∧ (JsonDoubles.printG p d = x ∨ JsonDoubles.printG p d = 45 :: x)
  exact : ∀ d : F, JsonDoubles.finite d = true → Doubles.eq (strtod (JsonDoubles.printG 17 d)) d = true
  signed : ∀ x st, Printed x st → (strtod (45 :: x) : F) = JsonDoubles.neg (strtod x)
  whole : ∀ x, Printed x .int → (strtod x : F) = Doubles.ofInt (strtoll x).toInt

section
variable {F : Type} [JsonDoubles F]

/-- A value whose literal reads back as the value. -/
def Plain : JVal F → Prop
  | .string s => 39 ∉ s
  | .number d => JsonDoubles.finite d = true
  | .compound => False
  | _ => True

/-- The byte does not belong to the lexeme. -/
def Apart (F : Type) [Doubles F] (x : Bytes) (y : UInt8) : Prop := ∀ ts go, Lexeme F x ts go → go y = false

def unsigned : Bytes → Bytes
  | 45 :: x => x
  | x => x

theorem digitsPath {x : Bytes} (digits : ∀ c ∈ x, isdigit c = true) : path numNext .int x = some .int := by
  induction x with
  | nil => rfl
  | cons c x ih =>
    rw [path,numNext,if_pos (digits c (List.mem_cons_self ..))]
    exact ih fun d hd => digits d (List.mem_cons_of_mem _ hd)

theorem decimalDigits (n : Nat) : ∃ c w, decimal n = c :: w ∧ isdigit c = true ∧ path numNext .int (decimal n) = some .int := by
  have digits : ∀ c ∈ decimal n, isdigit c = true := fun c hc => decide_eq_true (decimalBytes _ _ c hc)
  cases h : decimal n with
  | nil => exact absurd h (decimalSome _ _)
  | cons c w => exact ⟨c,w,rfl,digits c (h ▸ List.mem_cons_self ..),h ▸ digitsPath digits⟩

/-- A literal, its sign apart, is one lexeme; with the sign it has the value. -/
structure Scans (v : JVal F) where
  sign : Bytes
  body : Bytes
  tokens : List (Token F)
  go : UInt8 → Bool
  split : literal v = sign ++ body
  unsigned : unsigned (literal v) = body
  lexeme : Lexeme F body tokens go
  value : sign = [] ∧ LiteralOf v tokens ∨ sign = [45] ∧ body.head? ≠ some 45 ∧ LiteralOf v (tok F .minus :: tokens)

theorem digitHead {c : UInt8} (digit_ : isdigit c = true) : c ≠ 45 := (digitClass digit_).2.1

theorem unsignedSelf {x : Bytes} (head : x.head? ≠ some 45) : unsigned x = x := by
  unfold unsigned
  split
  · exact absurd rfl head
  · rfl

theorem numberLexeme {x w : Bytes} {c : UInt8} {st : NumState} (is : x = c :: w) (digit_ : isdigit c = true)
    (taken : path numNext .int x = some st) : Lexeme F x [numToken F x st] fun y => (numNext st y).isSome := by
  subst is
  exact .number digit_ taken

theorem numberValue {x : Bytes} {st : NumState} (printed : Printed x st) (lawful : LawfulDoubles F) :
    literalValue (numToken F x st) = some (.number (strtod x)) := by
  unfold numToken
  split
  · rename_i int
    rw [lawful.whole x (int ▸ printed)]
    rfl
  · rfl

theorem printedScans (lawful : LawfulDoubles F) {d : F} {x : Bytes} {st : NumState} (printed : Printed x st)
    (text : literal (.number d) = x ∨ literal (.number d) = 45 :: x)
    (back : Doubles.eq (strtod (literal (.number d))) d = true) : Nonempty (Scans (.number d)) := by
  obtain ⟨c,w,is,digit_,taken,_⟩ := id printed
  have head : x.head? ≠ some 45 := fun e => digitHead digit_ (by rw [is] at e; exact Option.some.inj e)
  have lexeme := numberLexeme (F := F) is digit_ taken
  rcases text with text | text
  · rw [text] at back
    exact ⟨⟨[],x,_,_,text,by rw [text,unsignedSelf head],lexeme,
      .inl ⟨rfl,.inl ⟨_,_,rfl,numberValue printed lawful,back⟩⟩⟩⟩
  · rw [text,lawful.signed x st printed] at back
    exact ⟨⟨[45],x,_,_,text,by rw [text]; rfl,lexeme,
      .inr ⟨rfl,head,.inr ⟨_,_,_,d,rfl,rfl,numberValue printed lawful,rfl,back⟩⟩⟩⟩

theorem fmtScans (lawful : LawfulDoubles F) {d : F} (finite : JsonDoubles.finite d = true)
    (text : literal (.number d) = jsonFmtDouble d) : Nonempty (Scans (.number d)) := by
  have one : ∃ p, 15 ≤ p ∧ p ≤ 17 ∧ jsonFmtDouble d = JsonDoubles.printG p d ∧
      Doubles.eq (strtod (JsonDoubles.printG p d)) d = true := by
    unfold jsonFmtDouble
    simp only
    split
    · rename_i back
      exact ⟨15,by omega,by omega,rfl,back⟩
    · split
      · rename_i back
        exact ⟨16,by omega,by omega,rfl,back⟩
      · exact ⟨17,by omega,by omega,rfl,lawful.exact d finite⟩
  obtain ⟨p,lo,hi,is,back⟩ := one
  obtain ⟨x,st,printed,shape⟩ := lawful.form d finite p lo hi
  rw [← is] at shape back
  rw [← text] at shape back
  exact printedScans lawful printed shape back

/-- The digits of a negative number read back as its magnitude. -/
theorem readsMagnitude {v : Int64} (least : v ≠ Int64.minValue) (below : v.toInt < 0) :
    (-v).toInt = -v.toInt ∧ strtoll (decimal v.toInt.natAbs) = -v := by
  have other : (-v).toInt = -v.toInt := by
    have lo := Int64.le_toInt v
    have ne : v.toInt ≠ Int64.minValue.toInt := fun e => least (Int64.toInt_inj.mp e)
    rw [Int64.toInt_minValue] at ne
    rw [Int64.toInt_neg,Int.bmod_eq_of_le (by omega) (by omega)]
  have back := strtollLld (-v)
  rw [lld,other,if_neg (by omega),Int.natAbs_neg] at back
  exact ⟨other,back⟩

theorem longScans (lawful : LawfulDoubles F) {d : F} (whole : Doubles.eq d (Doubles.ofInt (JsonDoubles.toLong d).toInt) = true)
    (inside : JsonDoubles.inLong d = true) (text : literal (.number d) = lld (JsonDoubles.toLong d)) :
    Nonempty (Scans (.number d)) := by
  have least := lawful.inside d inside whole
  rw [lawful.symm] at whole
  obtain ⟨c,w,is,digit_,taken⟩ := decimalDigits (JsonDoubles.toLong d).toInt.natAbs
  have lexeme := numberLexeme (F := F) is digit_ taken
  have head : (decimal (JsonDoubles.toLong d).toInt.natAbs).head? ≠ some 45 := fun e => by
    rw [is] at e
    exact digitHead digit_ (Option.some.inj e)
  rw [lld] at text
  split at text
  · rename_i below
    obtain ⟨other,magnitude⟩ := readsMagnitude least below
    have value : literalValue (numToken F (decimal (JsonDoubles.toLong d).toInt.natAbs) .int) =
        some (.number (Doubles.ofInt (-(JsonDoubles.toLong d).toInt))) := by
      rw [numToken,if_pos rfl,magnitude,← other]
      rfl
    refine ⟨⟨[45],_,_,_,text,by rw [text]; rfl,lexeme,.inr ⟨rfl,head,.inr ⟨_,_,_,d,rfl,rfl,value,rfl,?_⟩⟩⟩⟩
    rw [lawful.negInt _ (by omega),Int.neg_neg]
    exact whole
  · rename_i above
    have value : literalValue (numToken F (decimal (JsonDoubles.toLong d).toInt.natAbs) .int) =
        some (.number (Doubles.ofInt (JsonDoubles.toLong d).toInt)) := by
      have back := strtollLld (JsonDoubles.toLong d)
      rw [lld,if_neg above] at back
      rw [numToken,if_pos rfl,back]
      rfl
    exact ⟨⟨[],_,_,_,text,by rw [text,unsignedSelf head]; rfl,lexeme,.inl ⟨rfl,.inl ⟨_,_,rfl,value,whole⟩⟩⟩⟩

theorem wordScans {v w : JVal F} {c : UInt8} {x : Bytes} (text : literal v = c :: x) (letter : isalpha c = true)
    (inside : x.all wordChar = true) (value : literalValue (wordToken F (c :: x)) = some w) (same : sameValue w v) :
    Nonempty (Scans v) := by
  have head : (c :: x).head? ≠ some 45 := fun e => (letterClass (.inl letter)).2.1 (Option.some.inj e)
  exact ⟨⟨[],c :: x,_,_,text,by rw [text,unsignedSelf head],.word (.inl letter) (List.all_eq_true.mp inside),
    .inl ⟨rfl,.inl ⟨_,w,rfl,value,same⟩⟩⟩⟩

theorem pairedPlain {s : Bytes} (plain : 39 ∉ s) : Paired s ∧ doubled s = s := by
  induction s with
  | nil => exact ⟨.nil,rfl⟩
  | cons c s ih =>
    have ne : c ≠ 39 := fun e => plain (e ▸ List.mem_cons_self ..)
    obtain ⟨paired,same⟩ := ih fun e => plain (List.mem_cons_of_mem _ e)
    refine ⟨.other ne paired,?_⟩
    rw [doubled] at same ⊢
    rw [List.flatMap_cons,if_neg ne,same]
    rfl

/-- The literal of a plain value reads back as the value. -/
theorem plainScans (lawful : LawfulDoubles F) {v : JVal F} (plain : Plain v) : Nonempty (Scans v) := by
  cases v with
  | null => exact wordScans (w := .null) rfl rfl (by rfl) (by rfl) rfl
  | bool b =>
    cases b with
    | false => exact wordScans (w := .bool false) rfl rfl (by rfl) (by rfl) rfl
    | true => exact wordScans (w := .bool true) rfl rfl (by rfl) (by rfl) rfl
  | number d =>
    cases whole : Doubles.eq d (Doubles.ofInt (JsonDoubles.toLong d).toInt) && JsonDoubles.inLong d with
    | true =>
      have text : literal (.number d) = lld (JsonDoubles.toLong d) := by rw [literal,numText,if_pos whole]
      rw [Bool.and_eq_true] at whole
      exact longScans lawful whole.1 whole.2 text
    | false => exact fmtScans lawful plain (by rw [literal,numText,if_neg (by rw [whole]; exact Bool.false_ne_true)])
  | string s =>
    obtain ⟨paired,same⟩ := pairedPlain plain
    exact ⟨⟨[],39 :: (s ++ [39]),_,_,by rw [literal,same]; rfl,by rw [literal,same]; rfl,.string paired,
      .inl ⟨rfl,.inl ⟨_,.string s,rfl,rfl,rfl⟩⟩⟩⟩
  | compound => cases plain

/-- Scanned before what does not join it, a plain value's literal gives that one literal. -/
theorem literalLexes (lawful : LawfulDoubles F) {v : JVal F} (plain : Plain v) {r : Bytes}
    (apart : ∀ y, r.head? = some y → Apart F (unsigned (literal v)) y) :
    ∃ ts, lexAll F (literal v ++ r) = ts ++ lexAll F r ∧ LiteralOf v ts := by
  obtain ⟨⟨sign,body,ts,go,split,bare,lexeme,value⟩⟩ := plainScans lawful plain
  have stop : ∀ y, r.head? = some y → go y = false := fun y hy => apart y hy ts go (bare ▸ lexeme)
  rcases value with ⟨none_,value⟩ | ⟨minus_,head,value⟩
  · exact ⟨ts,by rw [split,none_,List.nil_append,lexAllAppend lexeme stop],value⟩
  · refine ⟨_,?_,value⟩
    have op : Lexeme F [45] [tok F .minus] (opGoes 45 []) := .op rfl
    have behind : ∀ y, (body ++ r).head? = some y → opGoes 45 [] y = false := fun y hy => by
      have mine : body.head? = some y := by
        cases body with
        | nil => exact absurd rfl (lexemeSome lexeme)
        | cons c x => exact hy
      have ne : y ≠ 45 := fun e => head (by rw [mine,e])
      simp [opGoes,ne]
    rw [split,minus_,List.append_assoc,lexAllAppend op behind,lexAllAppend lexeme stop]
    rfl

end

theorem apartBlank {F : Type} [Doubles F] {c : UInt8} (blank : isspace c = true) (y : UInt8) : Apart F [c] y := by
  intro ts go lexeme
  generalize is : [c] = x at lexeme
  cases lexeme with
  | space _ => rfl
  | line _ => cases is
  | block _ => cases is
  | op known =>
    cases is
    rw [(operatorClass known).1] at blank
    cases blank
  | pair _ _ => cases is
  | quoted _ _ => simp at is
  | string _ => simp at is
  | number digit_ _ =>
    cases is
    rw [(digitClass digit_).1] at blank
    cases blank
  | word letter _ =>
    cases is
    rw [(letterClass letter).1] at blank
    cases blank
  | stray _ => rfl

/-! ### Whole numbers -/

/-- Whole numbers of at most 17 digits, as the numbers of a request that has no others. -/
@[reducible] def wholeNumbers : JsonDoubles Int64 where
  lt a b := decide (a < b)
  eq a b := decide (a = b)
  zero := 0
  ofInt := Int64.ofInt
  strtod s := match s with
    | 45 :: x => some (-strtoll x,[])
    | x => some (strtoll x,[])
  fmt := lld
  toLong := id
  inLong d := decide (-9200000000000000000 ≤ d.toInt ∧ d.toInt ≤ 9200000000000000000)
  printG _ d := lld d
  neg d := -d
  finite d := decide ((decimal d.toInt.natAbs).length ≤ 17)

theorem unsignedRead {c : UInt8} (other : c ≠ 45) {x : Bytes} : wholeNumbers.strtod (c :: x) = some (strtoll (c :: x),[]) := by
  simp only [Doubles.strtod]
  split
  · rename_i e
    exact absurd (List.cons.inj e).1 other
  · rfl

theorem wholeLawful : @LawfulDoubles Int64 wholeNumbers := by
  let _ : JsonDoubles Int64 := wholeNumbers
  have read : ∀ x : Bytes, x.head? ≠ some 45 → (strtod x : Int64) = strtoll x := fun x head => by
    unfold strtod
    cases x with
    | nil => rfl
    | cons c x =>
      have other : c ≠ 45 := fun e => head (congrArg some e)
      show ((wholeNumbers.strtod (c :: x)).map Prod.fst).getD 0 = _
      rw [unsignedRead other]
      rfl
  have unsignedHead : ∀ {x st}, Printed x st → x.head? ≠ some 45 := fun {x st} printed e => by
    obtain ⟨c,w,rfl,digit_,_⟩ := printed
    exact digitHead digit_ (Option.some.inj e)
  refine ⟨fun a b => ?_,fun i _ => ?_,fun d inside _ e => ?_,fun d finite p _ _ => ?_,fun d finite => ?_,fun x st printed => ?_,
    fun x printed => ?_⟩
  · exact decide_eq_decide.mpr eq_comm
  · exact (Int64.ofInt_neg ..).symm
  · have far := of_decide_eq_true inside
    rw [show d = Int64.minValue from e,Int64.toInt_minValue] at far
    omega
  · obtain ⟨c,w,is,digit_,taken⟩ := decimalDigits d.toInt.natAbs
    refine ⟨_,.int,⟨c,w,is,digit_,taken,fun _ => of_decide_eq_true finite⟩,?_⟩
    show lld d = _ ∨ lld d = _
    rw [lld]
    split
    · exact .inr rfl
    · exact .inl rfl
  · have least : d ≠ Int64.minValue := fun e => by
      rw [e] at finite
      exact absurd finite (by decide)
    refine decide_eq_true ?_
    show (strtod (lld d) : Int64) = d
    by_cases below : d.toInt < 0
    · rw [lld,if_pos below]
      show -strtoll (decimal d.toInt.natAbs) = d
      rw [(readsMagnitude least below).2,Int64.neg_neg]
    · obtain ⟨c,w,is,digit_,_⟩ := decimalDigits d.toInt.natAbs
      have text : lld d = decimal d.toInt.natAbs := by rw [lld,if_neg below]
      rw [read (lld d) (by rw [text,is]; exact fun e => digitHead digit_ (Option.some.inj e)),strtollLld]
  · rw [read x (unsignedHead printed)]
    rfl
  · rw [read x (unsignedHead printed)]
    exact (Int64.ofInt_toInt _).symm

end Napastak.Sql
