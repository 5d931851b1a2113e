import Napastak.Decimal
import Napastak.Json

/-! What the writer writes is read back. -/
namespace Napastak.Json
open Query

/-! The text of a tree apart from the buffer it is appended to. -/

mutual
def Tree.text : Tree → Bytes
  | .null => ascii "null"
  | .bool b => if b then ascii "true" else ascii "false"
  | .int v => lld v
  | .str s => 34 :: (s.flatMap escape ++ [34])
  | .arr ts => 91 :: (itemsText ts ++ [93])
  | .obj fs => 123 :: (fieldsText fs ++ [125])
def itemsText : List Tree → Bytes
  | [] => []
  | t :: ts => t.text ++ moreItems ts
def moreItems : List Tree → Bytes
  | [] => []
  | t :: ts => 44 :: (t.text ++ moreItems ts)
def fieldText : Bytes × Tree → Bytes
  | (k,t) => 34 :: (k ++ 34 :: 58 :: t.text)
def fieldsText : List (Bytes × Tree) → Bytes
  | [] => []
  | f :: fs => fieldText f ++ moreFields fs
def moreFields : List (Bytes × Tree) → Bytes
  | [] => []
  | f :: fs => 44 :: (fieldText f ++ moreFields fs)
end

/-- A text behind which a comma is due. -/
def Closed (s : Bytes) : Prop := ∃ u c, s = u ++ [c] ∧ c ≠ 91 ∧ c ≠ 123 ∧ c ≠ 58

theorem Closed.behind {s : Bytes} (closed : Closed s) (j : Bytes) : Closed (j ++ s) := by
  obtain ⟨u,c,rfl,apart⟩ := closed
  exact ⟨j ++ u,c,(List.append_assoc ..).symm,apart⟩

theorem commaClosed {j : Bytes} (closed : Closed j) : jbComma j = j ++ [44] := by
  obtain ⟨u,c,rfl,a,b,d⟩ := closed
  unfold jbComma
  rw [List.getLast?_concat]
  exact if_neg (by simp [a,b,d])

theorem commaOpen (j : Bytes) {c : UInt8} (opens : c = 91 ∨ c = 123 ∨ c = 58) : jbComma (j ++ [c]) = j ++ [c] := by
  unfold jbComma
  rw [List.getLast?_concat]
  exact if_pos opens

theorem lldClosed (v : Int64) : Closed (lld v) := by
  refine ⟨(lld v).dropLast,(lld v).getLast (lldSome v),(List.dropLast_append_getLast _).symm,?_⟩
  have bounds := lldBytes v _ (List.getLast_mem (lldSome v))
  refine ⟨?_,?_,?_⟩ <;> intro is <;> rw [is] at bounds <;> exact absurd bounds (by decide)

theorem textClosed (t : Tree) : Closed t.text := by
  cases t with
  | null => exact ⟨[110,117,108],108,by decide⟩
  | bool b =>
    cases b with
    | false => exact ⟨[102,97,108,115],101,by decide⟩
    | true => exact ⟨[116,114,117],101,by decide⟩
  | int v => exact lldClosed v
  | str s => exact ⟨34 :: s.flatMap escape,34,rfl,by decide⟩
  | arr ts => exact ⟨91 :: itemsText ts,93,rfl,by decide⟩
  | obj fs => exact ⟨123 :: fieldsText fs,125,rfl,by decide⟩

theorem fieldClosed (f : Bytes × Tree) : Closed (fieldText f) := by
  obtain ⟨k,t⟩ := f
  have apart := (textClosed t).behind (34 :: (k ++ [34,58]))
  simpa only [fieldText,List.cons_append,List.append_assoc,List.nil_append] using apart

mutual
theorem writeText : ∀ (t : Tree) (j : Bytes), t.write j = jbComma j ++ t.text
  | .null, _ => rfl
  | .bool _, _ => rfl
  | .int _, _ => rfl
  | .str _, _ => rfl
  | .arr [], j => by rw [Tree.write,writeItems,jbArrEnd,jbArrBegin,List.append_assoc]; rfl
  | .arr (t :: ts), j => by
    rw [Tree.write,writeItems,writeText t,jbArrBegin,commaOpen _ (.inl rfl),
      writeMoreItems ts _ ((textClosed t).behind _),jbArrEnd]
    simp only [Tree.text,itemsText,List.append_assoc,List.cons_append,List.nil_append]
  | .obj [], j => by rw [Tree.write,writeFields,jbObjEnd,jbObjBegin,List.append_assoc]; rfl
  | .obj (f :: fs), j => by
    rw [Tree.write,writeFields,writeFieldText f,jbObjBegin,commaOpen _ (.inr (.inl rfl)),
      writeMoreFields fs _ ((fieldClosed f).behind _),jbObjEnd]
    simp only [Tree.text,fieldsText,List.append_assoc,List.cons_append,List.nil_append]
theorem writeMoreItems : ∀ (ts : List Tree) (j : Bytes), Closed j → writeItems j ts = j ++ moreItems ts
  | [], _, _ => by rw [writeItems,moreItems,List.append_nil]
  | t :: ts, j, closed => by
    rw [writeItems,writeText t,writeMoreItems ts _ ((textClosed t).behind _),commaClosed closed]
    simp only [List.append_assoc]
    rfl
theorem writeFieldText : ∀ (f : Bytes × Tree) (j : Bytes), writeField j f = jbComma j ++ fieldText f
  | (k,t), j => by
    have apart : jbKey j k = jbComma j ++ 34 :: (k ++ [34]) ++ [58] := by simp [jbKey]
    rw [writeField,writeText t,apart,commaOpen _ (.inr (.inr rfl)),fieldText]
    simp only [List.append_assoc,List.cons_append,List.nil_append]
theorem writeMoreFields : ∀ (fs : List (Bytes × Tree)) (j : Bytes), Closed j → writeFields j fs = j ++ moreFields fs
  | [], _, _ => by rw [writeFields,moreFields,List.append_nil]
  | f :: fs, j, closed => by
    rw [writeFields,writeFieldText f,writeMoreFields fs _ ((fieldClosed f).behind _),commaClosed closed]
    simp only [List.append_assoc]
    rfl
end

/-! Strings. -/

/-- A key that reads as it is written. -/
def PlainKey (k : Bytes) : Prop := 34 ∉ k ∧ 92 ∉ k

theorem charsQuote (s : Bytes) : parseChars (34 :: s) = ([],s) := by
  rw [parseChars.eq_def]
  rfl

theorem charsOther {c : UInt8} (quote : c ≠ 34) (slash : c ≠ 92) (s : Bytes) :
    parseChars (c :: s) = (c :: (parseChars s).1,(parseChars s).2) := by
  rw [parseChars.eq_def]
  dsimp only
  rw [if_neg quote,if_pos slash]

theorem charsSlash {e : UInt8} (unit : e ≠ 117) (s : Bytes) :
    parseChars (92 :: e :: s) = (unescape e :: (parseChars s).1,(parseChars s).2) := by
  rw [parseChars.eq_def]
  dsimp only
  rw [if_neg (by decide),if_neg (by decide),if_pos unit]

theorem charsUnit (h₁ h₂ h₃ h₄ : UInt8) (s : Bytes) :
    parseChars (92 :: 117 :: h₁ :: h₂ :: h₃ :: h₄ :: s) = (codeUnit [h₁,h₂,h₃,h₄] ++ (parseChars s).1,(parseChars s).2) := by
  rw [parseChars.eq_def]
  dsimp only
  rw [if_neg (by decide),if_neg (by decide),if_neg (by decide)]

theorem charsPlain {k : Bytes} (plain : PlainKey k) (rest : Bytes) : parseChars (k ++ 34 :: rest) = (k,rest) := by
  induction k with
  | nil => exact charsQuote rest
  | cons c k ih =>
    have quote : c ≠ 34 := fun is => plain.1 (is ▸ List.mem_cons_self)
    have slash : c ≠ 92 := fun is => plain.2 (is ▸ List.mem_cons_self)
    have tail := ih ⟨fun mem => plain.1 (List.mem_cons_of_mem _ mem),fun mem => plain.2 (List.mem_cons_of_mem _ mem)⟩
    rw [List.cons_append,charsOther quote slash,tail]

theorem controlUnit : ∀ n < 32, codeUnit [48,48,hexDigit (UInt8.ofNat n / 16),hexDigit (UInt8.ofNat n % 16)] = [UInt8.ofNat n] := by
  decide

/-- Every byte comes back from what it is written as. -/
theorem charsEscape (c : UInt8) (s : Bytes) : parseChars (escape c ++ s) = (c :: (parseChars s).1,(parseChars s).2) := by
  unfold escape
  by_cases quote : c = 34
  · rw [if_pos quote,quote]
    exact charsSlash (by decide) s
  rw [if_neg quote]
  by_cases slash : c = 92
  · rw [if_pos slash,slash]
    exact charsSlash (by decide) s
  rw [if_neg slash]
  by_cases newline : c = 10
  · rw [if_pos newline,newline]
    exact charsSlash (by decide) s
  rw [if_neg newline]
  by_cases back : c = 13
  · rw [if_pos back,back]
    exact charsSlash (by decide) s
  rw [if_neg back]
  by_cases tab : c = 9
  · rw [if_pos tab,tab]
    exact charsSlash (by decide) s
  rw [if_neg tab]
  by_cases control : c < 32
  · have unit := controlUnit c.toNat (UInt8.lt_iff_toNat_lt.mp control)
    rw [UInt8.ofNat_toNat] at unit
    rw [if_pos control,List.cons_append,List.cons_append,List.cons_append,List.cons_append,List.cons_append,
      List.cons_append,List.nil_append,charsUnit,unit]
    rfl
  · rw [if_neg control]
    exact charsOther quote slash s

theorem charsString (s rest : Bytes) : parseChars (s.flatMap escape ++ 34 :: rest) = (s,rest) := by
  induction s with
  | nil => exact charsQuote rest
  | cons c s ih => rw [List.flatMap_cons,List.append_assoc,charsEscape,ih]

/-! Values. -/

mutual
/-- All keys of a tree read as they are written. -/
def Tree.Plain : Tree → Prop
  | .arr ts => plainItems ts
  | .obj fs => plainFields fs
  | _ => True
def plainItems : List Tree → Prop
  | [] => True
  | t :: ts => t.Plain ∧ plainItems ts
def plainField : Bytes × Tree → Prop
  | (k,t) => PlainKey k ∧ t.Plain
def plainFields : List (Bytes × Tree) → Prop
  | [] => True
  | f :: fs => plainField f ∧ plainFields fs
end

/-- The end of the text or of a value. -/
def Ends (rest : Bytes) : Prop := rest = [] ∨ ∃ c s, rest = c :: s ∧ (c = 44 ∨ c = 93 ∨ c = 125)

/-- `strtod` reads a whole number to its end and rounds it as the cast to `double` does. -/
def ReadsWhole (F : Type) [Doubles F] : Prop :=
  ∀ (v : Int64) (rest : Bytes), Ends rest → Doubles.strtod (lld v ++ rest) = some ((Doubles.ofInt v.toInt : F),rest)

theorem skipNone {c : UInt8} (h : isspace c = false) (s : Bytes) : skipWs (c :: s) = c :: s :=
  List.dropWhile_cons_of_neg (by simp [h])

theorem lldHead (v : Int64) : ∃ c w, lld v = c :: w ∧ (c = 45 ∨ isdigit c = true) := by
  unfold lld
  split
  · exact ⟨45,_,rfl,.inl rfl⟩
  · cases is : decimal v.toInt.natAbs with
    | nil => exact absurd is (decimalSome _ _)
    | cons c w => exact ⟨c,w,rfl,.inr (decide_eq_true (decimalBytes _ _ c (is ▸ List.mem_cons_self)))⟩

/-- The first byte of a number opens nothing else. -/
theorem numberHead {c : UInt8} (h : c = 45 ∨ isdigit c = true) :
    isspace c = false ∧ c ≠ 34 ∧ c ≠ 91 ∧ c ≠ 123 ∧ c ≠ 93 ∧ c ≠ 125 ∧ c ≠ 110 ∧ c ≠ 116 ∧ c ≠ 102 := by
  rcases h with rfl | digit
  · decide
  · obtain ⟨low,high⟩ := of_decide_eq_true digit
    obtain ⟨space,_⟩ := digitNoSpace low
    refine ⟨space,?_,?_,?_,?_,?_,?_,?_,?_⟩ <;> rintro rfl <;> revert low high <;> decide

theorem textHead (t : Tree) : ∃ c w, t.text = c :: w ∧ isspace c = false ∧ c ≠ 93 ∧ c ≠ 125 := by
  cases t with
  | null => exact ⟨110,[117,108,108],by decide⟩
  | bool b =>
    cases b with
    | false => exact ⟨102,[97,108,115,101],by decide⟩
    | true => exact ⟨116,[114,117,101],by decide⟩
  | int v =>
    obtain ⟨c,w,is,first⟩ := lldHead v
    obtain ⟨space,_,_,_,square,curly,_⟩ := numberHead first
    exact ⟨c,w,is,space,square,curly⟩
  | str s => exact ⟨34,_,rfl,by decide⟩
  | arr ts => exact ⟨91,_,rfl,by decide⟩
  | obj fs => exact ⟨123,_,rfl,by decide⟩

theorem skipEnd {c : UInt8} (h : c = 44 ∨ c = 93 ∨ c = 125 ∨ c = 58 ∨ c = 34) (s : Bytes) : skipWs (c :: s) = c :: s := by
  refine skipNone ?_ s
  rcases h with rfl | rfl | rfl | rfl | rfl <;> rfl

theorem skipText (t : Tree) (s : Bytes) : skipWs (t.text ++ s) = t.text ++ s := by
  obtain ⟨c,w,is,space,_⟩ := textHead t
  rw [is]
  exact skipNone space _

variable {F : Type} [Doubles F]

theorem numberRead (reads : ReadsWhole F) (v : Int64) (n : Nat) (rest : Bytes) (ends : Ends rest) :
    parseValue (n + 1) (lld v ++ rest) = some ((.number (Doubles.ofInt v.toInt) : JVal F),rest) := by
  obtain ⟨c,w,is,first⟩ := lldHead v
  obtain ⟨space,quote,square,curly,_,_,nul,tru,fals⟩ := numberHead first
  have read := reads v rest ends
  rw [is,List.cons_append] at read ⊢
  have other : ∀ {d : UInt8} {x}, c ≠ d → (d :: x : Bytes).isPrefixOf (c :: (w ++ rest)) = false := by
    intro d x ne
    simp [List.isPrefixOf,Ne.symm ne]
  unfold parseValue
  rw [skipNone space]
  dsimp only
  rw [if_neg quote,if_neg square,if_neg curly,show ascii "null" = [110,117,108,108] from by decide,
    show ascii "true" = [116,114,117,101] from by decide,show ascii "false" = [102,97,108,115,101] from by decide,
    other nul,other tru,other fals,if_neg Bool.false_ne_true,if_neg Bool.false_ne_true,if_neg Bool.false_ne_true,
    if_pos first,read]

theorem stringRead (n : Nat) (s rest : Bytes) :
    parseValue (n + 1) (34 :: (s.flatMap escape ++ 34 :: rest)) = some ((.string s : JVal F),rest) := by
  unfold parseValue
  rw [skipEnd (by decide)]
  dsimp only
  rw [if_pos rfl,charsString]

/-- What follows an item of a list. -/
theorem moreEnds (ts : List Tree) (rest : Bytes) : Ends (moreItems ts ++ 93 :: rest) := by
  cases ts with
  | nil => exact .inr ⟨93,rest,rfl,.inr (.inl rfl)⟩
  | cons t ts => exact .inr ⟨44,_,rfl,.inl rfl⟩

theorem moreFieldsEnds (fs : List (Bytes × Tree)) (rest : Bytes) : Ends (moreFields fs ++ 125 :: rest) := by
  cases fs with
  | nil => exact .inr ⟨125,rest,rfl,.inr (.inr rfl)⟩
  | cons f fs => exact .inr ⟨44,_,rfl,.inl rfl⟩

theorem keyRead {k : Bytes} (plain : PlainKey k) (rest : Bytes) : parseKey (34 :: (k ++ 34 :: rest)) = (some k,rest) := by
  unfold parseKey
  dsimp only
  rw [if_pos rfl,charsPlain plain]

mutual
theorem valueRead (reads : ReadsWhole F) : ∀ (t : Tree), t.Plain → ∀ (n : Nat) (rest : Bytes), 3 * t.text.length ≤ n →
    Ends rest → parseValue n (t.text ++ rest) = some ((t.value : JVal F),rest)
  | .null, _, n, rest, fuel, _ => by
    obtain ⟨n,rfl⟩ : ∃ k, n = k + 1 := ⟨n - 1,by have : (Tree.null).text.length = 4 := rfl; omega⟩
    rfl
  | .bool false, _, n, rest, fuel, _ => by
    obtain ⟨n,rfl⟩ : ∃ k, n = k + 1 := ⟨n - 1,by have : (Tree.bool false).text.length = 5 := rfl; omega⟩
    rfl
  | .bool true, _, n, rest, fuel, _ => by
    obtain ⟨n,rfl⟩ : ∃ k, n = k + 1 := ⟨n - 1,by have : (Tree.bool true).text.length = 4 := rfl; omega⟩
    rfl
  | .int v, _, n, rest, fuel, ends => by
    rw [Tree.text] at fuel ⊢
    have some_ : 0 < (lld v).length := List.length_pos_of_ne_nil (lldSome v)
    obtain ⟨n,rfl⟩ : ∃ k, n = k + 1 := ⟨n - 1,by omega⟩
    exact numberRead reads v n rest ends
  | .str s, _, n, rest, fuel, _ => by
    rw [Tree.text] at fuel ⊢
    rw [List.length_cons] at fuel
    obtain ⟨n,rfl⟩ : ∃ k, n = k + 1 := ⟨n - 1,by omega⟩
    rw [List.cons_append,List.append_assoc]
    exact stringRead n s rest
  | .arr ts, plain, n, rest, fuel, _ => by
    rw [Tree.text] at fuel ⊢
    rw [List.length_cons,List.length_append,List.length_singleton] at fuel
    obtain ⟨n,rfl⟩ : ∃ k, n = k + 2 := ⟨n - 2,by omega⟩
    rw [List.cons_append,List.append_assoc,List.singleton_append]
    unfold parseValue
    rw [skipNone (by decide)]
    dsimp only
    rw [if_neg (by decide),if_pos rfl]
    unfold parseArray
    have items := itemsRead reads ts plain
    cases ts with
    | nil => rfl
    | cons t ts =>
      have items := items (List.cons_ne_nil _ _) n rest (by omega)
      obtain ⟨c,w,is,space,close,_⟩ := textHead t
      rw [itemsText,is,List.cons_append,List.cons_append] at items ⊢
      rw [skipNone space,List.head?_cons,if_neg (by simpa using close),items]
      rfl
  | .obj fs, plain, n, rest, fuel, _ => by
    rw [Tree.text] at fuel ⊢
    rw [List.length_cons,List.length_append,List.length_singleton] at fuel
    obtain ⟨n,rfl⟩ : ∃ k, n = k + 2 := ⟨n - 2,by omega⟩
    rw [List.cons_append,List.append_assoc,List.singleton_append]
    unfold parseValue
    rw [skipNone (by decide)]
    dsimp only
    rw [if_neg (by decide),if_neg (by decide),if_pos rfl]
    unfold parseObject
    have fields := fieldsRead reads fs plain
    cases fs with
    | nil => rfl
    | cons f fs =>
      have fields := fields (List.cons_ne_nil _ _) n rest (by omega)
      obtain ⟨k,t⟩ := f
      rw [fieldsText,fieldText,List.cons_append,List.cons_append] at fields ⊢
      rw [skipEnd (by decide),List.head?_cons,if_neg (by decide),fields]
      rfl
theorem itemsRead (reads : ReadsWhole F) : ∀ (ts : List Tree), plainItems ts → ts ≠ [] → ∀ (n : Nat) (rest : Bytes),
    3 * (itemsText ts).length < n → parseItems n (itemsText ts ++ 93 :: rest) = some ((itemValues ts : List (JVal F)),rest)
  | [], _, some_, _, _, _ => absurd rfl some_
  | t :: ts, plain, _, n, rest, fuel => by
    rw [itemsText,List.length_append] at fuel
    obtain ⟨n,rfl⟩ : ∃ k, n = k + 1 := ⟨n - 1,by omega⟩
    unfold parseItems
    rw [itemsText,List.append_assoc,skipText,valueRead reads t plain.1 n _ (by omega) (moreEnds ts rest),Option.bind_some]
    dsimp only
    have more := itemsRead reads ts plain.2
    cases ts with
    | nil =>
      rw [moreItems,List.nil_append,skipEnd (by decide)]
      rfl
    | cons u ts =>
      rw [moreItems,List.length_cons] at fuel
      have more := more (List.cons_ne_nil _ _) n rest (by rw [itemsText]; omega)
      rw [itemsText] at more
      rw [moreItems,List.cons_append,skipEnd (by decide)]
      dsimp only
      rw [if_neg (by decide),if_pos rfl,more]
      rfl
theorem fieldRead (reads : ReadsWhole F) : ∀ (f : Bytes × Tree), plainField f → ∀ (n : Nat) (rest : Bytes),
    3 * f.2.text.length ≤ n → Ends rest → parseValue n (f.2.text ++ rest) = some ((f.2.value : JVal F),rest)
  | (_,t), plain => valueRead reads t plain.2
theorem fieldsRead (reads : ReadsWhole F) : ∀ (fs : List (Bytes × Tree)), plainFields fs → fs ≠ [] → ∀ (n : Nat) (rest : Bytes),
    3 * (fieldsText fs).length < n →
      parseFields n (fieldsText fs ++ 125 :: rest) = some ((fieldValues fs : List (Option Bytes × JVal F)),rest)
  | [], _, some_, _, _, _ => absurd rfl some_
  | f :: fs, plain, _, n, rest, fuel => by
    have value := fieldRead reads f plain.1
    have more := fieldsRead reads fs plain.2
    obtain ⟨k,t⟩ := f
    rw [fieldsText,fieldText] at fuel ⊢
    simp only [List.length_append,List.length_cons] at fuel
    obtain ⟨n,rfl⟩ : ∃ k, n = k + 1 := ⟨n - 1,by omega⟩
    have value := value n (moreFields fs ++ 125 :: rest) (by dsimp only; omega) (moreFieldsEnds fs rest)
    unfold parseFields
    rw [List.append_assoc,List.cons_append,List.append_assoc,List.cons_append,List.cons_append,skipEnd (by decide),
      keyRead plain.1.1]
    dsimp only at value ⊢
    rw [skipEnd (by decide),skipColon,if_pos rfl,skipText,value,Option.bind_some]
    dsimp only
    cases fs with
    | nil =>
      rw [moreFields,List.nil_append,skipEnd (by decide)]
      rfl
    | cons g fs =>
      rw [moreFields,List.length_cons] at fuel
      have more := more (List.cons_ne_nil _ _) n rest (by rw [fieldsText]; omega)
      rw [fieldsText] at more
      rw [moreFields,List.cons_append,skipEnd (by decide)]
      dsimp only
      rw [if_neg (by decide),if_pos rfl,more]
      rfl
end

/-- A tree with plain keys is read back, each integer as the double nearest to it. -/
theorem treeReadBack (reads : ReadsWhole F) (t : Tree) (plain : t.Plain) (n : Nat) (fuel : 3 * (t.write []).length ≤ n) :
    jsonParse n (t.write []) = some (t.value : JVal F) := by
  rw [writeText,jbComma,List.getLast?_nil,List.nil_append] at fuel ⊢
  have read := valueRead reads t plain n [] fuel (.inl rfl)
  rw [List.append_nil] at read
  rw [jsonParse,read]
  rfl

theorem digitsFold (acc : Nat) (ds : Bytes) (digits : ∀ c ∈ ds, isdigit c = true) :
    ds.foldl (fun (n : Int) d => n * 10 + ((d.toNat : Int) - 48)) acc = digitsValue acc ds := by
  induction ds generalizing acc with
  | nil => rfl
  | cons c ds ih =>
    have here := digits c List.mem_cons_self
    have low : 48 ≤ c.toNat := UInt8.le_iff_toNat_le.mp (of_decide_eq_true here).1
    rw [List.foldl_cons,digitsValue,if_pos here,← ih _ fun d mem => digits d (List.mem_cons_of_mem _ mem)]
    congr 1
    omega

theorem decimalDigit (n : Nat) : ∀ c ∈ decimal n, isdigit c = true := fun c mem => decide_eq_true (decimalBytes _ _ c mem)

theorem takeDecimal (n : Nat) {rest : Bytes} (ends : Ends rest) : (decimal n ++ rest).takeWhile isdigit = decimal n := by
  rw [List.takeWhile_append_of_pos (decimalDigit n)]
  rcases ends with rfl | ⟨c,s,rfl,rfl | rfl | rfl⟩
  · exact List.append_nil _
  all_goals rw [List.takeWhile_cons_of_neg (by decide),List.append_nil]

/-- A number without a sign starts with a digit. -/
theorem decimalUnsigned {n : Nat} {c : UInt8} {rest s : Bytes} (h : decimal n ++ rest = c :: s) : isdigit c = true := by
  cases is : decimal n with
  | nil => exact absurd is (decimalSome _ _)
  | cons d w =>
    rw [is,List.cons_append] at h
    cases h
    exact decimalDigit n c (is ▸ List.mem_cons_self)

theorem decimalFold (n : Nat) : (decimal n).foldl (fun (n : Int) d => n * 10 + ((d.toNat : Int) - 48)) 0 = n := by
  rw [show (0 : Int) = ((0 : Nat) : Int) from rfl,digitsFold 0 _ (decimalDigit _)]
  exact congrArg _ (digitsDecimal (Nat.le_refl _))

theorem wholeReads : ReadsWhole Int := by
  intro v rest ends
  have some_ : (decimal v.toInt.natAbs).isEmpty = false := by
    cases is : decimal v.toInt.natAbs with
    | nil => exact absurd is (decimalSome _ _)
    | cons c w => rfl
  have taken := takeDecimal v.toInt.natAbs ends
  have dropped : (decimal v.toInt.natAbs ++ rest).drop (decimal v.toInt.natAbs).length = rest := List.drop_left
  by_cases negative : v.toInt < 0
  · have same : -(v.toInt.natAbs : Int) = v.toInt := by omega
    rw [lld,if_pos negative,List.cons_append]
    unfold Doubles.strtod instDoublesInt
    dsimp only
    split
    · rename_i sign
      cases sign
      dsimp only
      rw [taken,some_,decimalFold,dropped,if_neg Bool.false_ne_true,if_pos rfl,same]
      rfl
    · rename_i sign
      cases sign
    · rename_i other _
      exact absurd rfl (other _)
  · have same : (v.toInt.natAbs : Int) = v.toInt := by omega
    rw [lld,if_neg negative]
    unfold Doubles.strtod instDoublesInt
    dsimp only
    split
    · rename_i sign
      exact absurd (decimalUnsigned sign) (by decide)
    · rename_i sign
      exact absurd (decimalUnsigned sign) (by decide)
    · dsimp only
      rw [taken,some_,decimalFold,dropped,if_neg Bool.false_ne_true,if_neg Bool.false_ne_true,same]
      rfl

/-- A quote in a key ends the key. -/
theorem quoteInKey : ¬ ∀ t : Tree, ∃ k, ∀ n, k ≤ n → jsonParse n (t.write []) = some (t.value : JVal Int) := by
  intro claim
  obtain ⟨k,read⟩ := claim (.obj [([34],.null)])
  have broken : jsonParse (k + 6) (Tree.write [] (.obj [([34],.null)])) =
      some (.object [(some [],.string [58,110,117,108,108,125])] : JVal Int) := rfl
  have same := read (k + 6) (by omega)
  rw [broken] at same
  cases same

theorem treeReadBackSome : Tree.Plain (.obj [([107],.arr [.int (-7),.str [34,92,10,1]])]) ∧
    jsonParse 200 (Tree.write [] (.obj [([107],.arr [.int (-7),.str [34,92,10,1]])])) =
      some (Tree.value (.obj [([107],.arr [.int (-7),.str [34,92,10,1]])]) : JVal Int) :=
  have plain : Tree.Plain (.obj [([107],.arr [.int (-7),.str [34,92,10,1]])]) :=
    ⟨⟨⟨by decide,by decide⟩,trivial,trivial,trivial⟩,trivial⟩
  ⟨plain,treeReadBack wholeReads _ plain 200 (by decide)⟩

end Napastak.Json
