import Napastak.ParamLiteral
import Napastak.PgWirePortals

/-! When the text with its values is scanned as the template with one literal for every `$N`. -/
namespace Napastak.PgTemplate
open Query Munch Sql
open PgWire (sqlValue withValues isRaw paramIndex paramValue putByte putText appendValue substituteFrom substituteParams
  substituteCap)

/-! ### What the text is to be -/

/-- A stretch of a template: a lexeme with its tokens, or `$` and digits. -/
inductive Stretch (F : Type)
  | text (x : Bytes) (ts : List (Token F))
  | param (ds : Bytes)
  deriving DecidableEq

def Stretch.source {F : Type} : Stretch F → Bytes
  | .text x _ => x
  | .param ds => 36 :: ds

/-- A decimal number without a sign. -/
def Numeral (x : Bytes) : Prop := ∃ whole fraction exponent : Bytes, x = whole ++ (fraction ++ exponent) ∧
  whole ≠ [] ∧ (∀ c ∈ whole, isdigit c = true) ∧
  (fraction = [] ∨ ∃ ds, fraction = 46 :: ds ∧ ∀ c ∈ ds, isdigit c = true) ∧
  (exponent = [] ∨ ∃ m sign ds, exponent = m :: (sign ++ ds) ∧ (m = 101 ∨ m = 69) ∧ (sign = [] ∨ sign = [43] ∨ sign = [45]) ∧
    ds ≠ [] ∧ ∀ c ∈ ds, isdigit c = true)

def Whole (x : Bytes) : Prop := ∀ c ∈ x, isdigit c = true

/-- The value of `$N`. -/
def bound (values : List (Option Bytes)) (ds : Bytes) : Option (Option Bytes) :=
  match digitsValue 0 ds with
  | 0 => none
  | n + 1 => values[n]?

section
variable (F : Type) [Doubles F]

/-- The scanner, which stops at a placeholder outside strings, quoted names and comments. -/
def stretchStep : Bytes → Stretch F × Bytes
  | [] => (.text [] [],[])
  | c :: s =>
    if c = 36 ∧ s.head?.any isdigit then (.param (s.takeWhile isdigit),s.dropWhile isdigit)
    else (.text ((c :: s).take ((c :: s).length - (lexStep F (c :: s)).2.length)) (lexStep F (c :: s)).1,(lexStep F (c :: s)).2)

/-- The tokens and placeholders of a template. -/
def stretches (sql : Bytes) : List (Stretch F) := scan (stretchStep F) sql

end

section
variable {F : Type} [Doubles F]

/-- The token is the number. -/
def NumberIs (x : Bytes) (t : Token F) : Prop :=
  (Numeral x ∧ Whole x ∧ t.type = .numInt ∧ t.ival.toInt = digitsValue 0 x) ∨
    Numeral x ∧ ¬ Whole x ∧ t.type = .numFloat ∧ t.fval = strtod x

/-- One literal that denotes the value, as text or, when it reads as one, as a boolean or a number; a minus counts as
part of a negative number. -/
def Denotes : Option Bytes → List (Token F) → Prop
  | none, ts => ∃ t, ts = [t] ∧ t.type = .null
  | some v, ts =>
    (∃ t, ts = [t] ∧ (t.type = .string ∧ t.text = v ∨ t.type = .true_ ∧ strcasecmp v (ascii "true") = 0 ∨
      t.type = .false_ ∧ strcasecmp v (ascii "false") = 0 ∨ NumberIs v t)) ∨
    ∃ m t x, ts = [m,t] ∧ m.type = .minus ∧ v = 45 :: x ∧ NumberIs x t

/-- The tokens of a template with a literal for every placeholder. -/
inductive Substituted (values : List (Option Bytes)) : List (Stretch F) → List (Token F) → Prop
  | nil : Substituted values [] []
  | text {x : Bytes} {us ts : List (Token F)} {sts : List (Stretch F)} : Substituted values sts ts →
      Substituted values (.text x us :: sts) (us ++ ts)
  | param {ds : Bytes} {v : Option Bytes} {us ts : List (Token F)} {sts : List (Stretch F)} : bound values ds = some v →
      Denotes v us → Substituted values sts ts → Substituted values (.param ds :: sts) (us ++ ts)

variable (F) in
/-- The tokens of the text `xq_substitute_params` makes are those of the template with a literal for every placeholder. -/
def KeepsTokens (values : List (Option Bytes)) (sql : Bytes) : Prop :=
  Substituted values (stretches F sql) (lexAll F (substituteParams sql values))

/-! ### The condition -/

/-- A value that is one literal: a text without a quote, a boolean, a number without a plus that fits, or NULL. -/
def PlainValue : Option Bytes → Prop
  | none => True
  | some v =>
    if isRaw v then strcasecmp v (ascii "true") = 0 ∨ strcasecmp v (ascii "false") = 0 ∨
      ∃ x, (v = x ∨ v = 45 :: x) ∧ Numeral x ∧ (Whole x → digitsValue 0 x < 2 ^ 63)
    else 39 ∉ v

/-- The byte that follows in the text with its values. -/
def nextByte (values : List (Option Bytes)) : List (Stretch F) → Option UInt8
  | [] => none
  | .param ds :: _ => (bound values ds).bind fun v => (sqlValue v).head?
  | st :: _ => st.source.head?

/-- No `$` of the text stands before a digit. -/
def still : Bytes → Bool
  | c :: d :: s => !(c = 36 && isdigit d) && still (d :: s)
  | _ => true

/-- No placeholder reaches from one text into the next. -/
def Unjoined (x r : Bytes) : Prop :=
  ∀ z y, x.getLast? = some z → r.head? = some y → ¬ ((z = 36 ∨ isdigit z = true) ∧ isdigit y = true)

/-- A stretch of the template keeps its tokens: it has no placeholder inside, or is a comment that stays one; what comes
behind a lexeme does not join it; the index of a placeholder is in range and its value plain. -/
def StretchFits (values : List (Option Bytes)) (rest : List (Stretch F)) : Stretch F → Prop
  | .param ds => ∃ v, bound values ds = some v ∧ PlainValue v ∧
      ∀ y, nextByte values rest = some y → Apart F (unsigned (sqlValue v)) y
  | .text x ts => (36 ∈ x → Unjoined x (rest.flatMap Stretch.source)) ∧
      (still x = true ∧
          (∀ ds sts, rest = .param ds :: sts → ∀ y, nextByte values rest = some y → Apart F x y) ∨
        ts = [] ∧ ∃ go, Lexeme F (withValues values x) [] go ∧ ∀ y, nextByte values rest = some y → go y = false)

def StretchesFit (values : List (Option Bytes)) : List (Stretch F) → Prop
  | [] => True
  | st :: rest => StretchFits values rest st ∧ StretchesFit values rest

variable (F) in
/-- The text goes into the buffer, and every stretch fits. -/
structure TemplateFits (values : List (Option Bytes)) (sql : Bytes) : Prop where
  room : (withValues values sql).length < substituteCap sql values
  stretches : StretchesFit values (stretches F sql)

end

/-! ### Placeholders -/

theorem digitsGrow (acc : Nat) (ds : Bytes) : acc ≤ digitsValue acc ds := by
  induction ds generalizing acc with
  | nil => exact Nat.le_refl acc
  | cons c ds ih =>
    rw [digitsValue]
    split
    · exact Nat.le_trans (by omega) (ih _)
    · exact Nat.le_refl acc

theorem indexStop {r : Bytes} (stop : ∀ y, r.head? = some y → isdigit y = false) (acc : Int) : paramIndex acc r = (acc,r) := by
  cases r with
  | nil => rfl
  | cons y r => rw [paramIndex,if_neg (Bool.eq_false_iff.mp (stop y rfl))]

/-- An index that fits an `int` is read as it is. -/
theorem indexRead {ds r : Bytes} (digits_ : Whole ds) (stop : ∀ y, r.head? = some y → isdigit y = false) {acc : Nat}
    (less : digitsValue acc ds < 2 ^ 31) : paramIndex acc (ds ++ r) = ((digitsValue acc ds : Int),r) := by
  induction ds generalizing acc with
  | nil => exact indexStop stop acc
  | cons c ds ih =>
    have here := digits_ c List.mem_cons_self
    rw [digitsValue,if_pos here] at less ⊢
    have grown := Nat.lt_of_le_of_lt (digitsGrow _ ds) less
    have range : 48 ≤ c ∧ c ≤ 57 := of_decide_eq_true here
    have lo : 48 ≤ c.toNat := UInt8.le_iff_toNat_le.mp range.1
    have value : ((acc : Int) * 10 + (c.toNat - 48)).bmod (2 ^ 32) = ((acc * 10 + (c.toNat - 48) : Nat) : Int) := by
      rw [Int.bmod_eq_of_le (by omega) (by omega)]
      omega
    rw [List.cons_append,paramIndex,if_pos here,value]
    exact ih (fun d mem => digits_ d (List.mem_cons_of_mem _ mem)) less

theorem wholeTaken (s : Bytes) : Whole (s.takeWhile isdigit) := fun c mem => List.all_eq_true.mp List.all_takeWhile c mem

theorem boundRead {values : List (Option Bytes)} {v : Option Bytes} (count : values.length < 2 ^ 31) {s : Bytes}
    (known : bound values (s.takeWhile isdigit) = some v) :
    paramValue values (paramIndex 0 s).1 = v ∧ (paramIndex 0 s).2 = s.dropWhile isdigit := by
  have index : ∃ n, digitsValue 0 (s.takeWhile isdigit) = n + 1 ∧ values[n]? = some v := by
    rw [bound] at known
    split at known
    · cases known
    · exact ⟨_,by assumption,known⟩
  obtain ⟨n,number,at_⟩ := index
  obtain ⟨less,is⟩ := List.getElem?_eq_some_iff.mp at_
  have read := @indexRead _ (s.dropWhile isdigit) (wholeTaken s) (fun y hy => dropStop hy) 0 (by omega)
  rw [List.takeWhile_append_dropWhile] at read
  have whole : paramIndex 0 s = (((n + 1 : Nat) : Int),s.dropWhile isdigit) := by rw [← number]; exact read
  rw [whole]
  refine ⟨?_,rfl⟩
  rw [paramValue,if_pos (by omega),List.getD_eq_getElem?_getD,Int.toNat_natCast,Nat.add_sub_cancel,at_]
  rfl

/-! ### The text with its values -/

theorem unjoinedBehind {c : UInt8} {s t r : Bytes} (apart : Unjoined (c :: s) r) (behind : t <:+ s) : Unjoined t r := by
  obtain ⟨u,rfl⟩ := behind
  intro z y last head
  refine apart z y ?_ head
  rw [← List.cons_append,List.getLast?_append,last]
  rfl

theorem indexBehind (acc : Int) (s : Bytes) : (paramIndex acc s).2 <:+ s := by
  induction s generalizing acc with
  | nil => exact List.suffix_rfl
  | cons c s ih =>
    rw [paramIndex]
    split
    · exact (ih _).trans (List.suffix_cons c s)
    · exact List.suffix_rfl

theorem indexAppend {s r : Bytes} (some_ : s ≠ []) (apart : Unjoined s r) (acc : Int) :
    paramIndex acc (s ++ r) = ((paramIndex acc s).1,(paramIndex acc s).2 ++ r) := by
  induction s generalizing acc with
  | nil => exact absurd rfl some_
  | cons c s ih =>
    rw [List.cons_append,paramIndex,paramIndex]
    by_cases here : isdigit c = true
    · rw [if_pos here,if_pos here]
      cases s with
      | nil => exact indexStop (fun y hy => Bool.eq_false_iff.mpr fun digit_ => apart c y rfl hy ⟨Or.inr here,digit_⟩) _
      | cons d s => exact ih (List.cons_ne_nil _ _) (unjoinedBehind apart List.suffix_rfl) _
    · rw [if_neg here,if_neg here]
      rfl

section
variable {values : List (Option Bytes)}

theorem valuesNil : withValues values [] = [] := by rw [withValues]

theorem valuesParam {s : Bytes} (digit_ : s.head?.any isdigit = true) :
    withValues values (36 :: s) = sqlValue (paramValue values (paramIndex 0 s).1) ++ withValues values (paramIndex 0 s).2 := by
  rw [withValues,if_pos ⟨rfl,digit_⟩]

theorem valuesByte {c : UInt8} {s : Bytes} (other : ¬ (c = 36 ∧ s.head?.any isdigit = true)) :
    withValues values (c :: s) = c :: withValues values s := by
  rw [withValues,if_neg other]

/-- Over two texts that no placeholder joins, the values are put into each. -/
theorem valuesAppend {x r : Bytes} (apart : Unjoined x r) :
    withValues values (x ++ r) = withValues values x ++ withValues values r := by
  induction h : x.length using Nat.strongRecOn generalizing x with
  | _ n ih =>
    cases x with
    | nil => rw [valuesNil]; rfl
    | cons c s =>
      rw [List.length_cons] at h
      by_cases here : c = 36 ∧ s.head?.any isdigit = true
      · obtain ⟨rfl,digit_⟩ := here
        have some_ : s ≠ [] := fun e => by rw [e] at digit_; cases digit_
        have first : (s ++ r).head?.any isdigit = true := by rwa [List.head?_append_of_ne_nil _ some_]
        have behind := indexBehind 0 s
        rw [List.cons_append,valuesParam first,valuesParam digit_,indexAppend some_ (unjoinedBehind apart List.suffix_rfl),
          ih _ (by have := behind.length_le; omega) (unjoinedBehind apart behind) rfl,List.append_assoc]
      · have other : ¬ (c = 36 ∧ (s ++ r).head?.any isdigit = true) := by
          rintro ⟨dollar,digit_⟩
          cases s with
          | nil =>
            obtain ⟨y,hy,is⟩ := Option.any_eq_true _ _ |>.mp digit_
            exact apart c y rfl hy ⟨Or.inl dollar,is⟩
          | cons d s => exact here ⟨dollar,digit_⟩
        rw [List.cons_append,valuesByte other,valuesByte here,ih _ (by omega) (unjoinedBehind apart List.suffix_rfl) rfl]
        rfl

/-- A text without `$` is copied. -/
theorem valuesPlain {x : Bytes} (plain : 36 ∉ x) (r : Bytes) : withValues values (x ++ r) = x ++ withValues values r := by
  induction x with
  | nil => rfl
  | cons c x ih =>
    rw [List.cons_append,valuesByte fun e => plain (e.1 ▸ List.mem_cons_self),ih fun mem => plain (List.mem_cons_of_mem _ mem)]
    rfl

theorem stillCopied : ∀ {x : Bytes}, still x = true → withValues values x = x
  | [], _ => valuesNil
  | [c], _ => by rw [valuesByte (by simp),valuesNil]
  | c :: d :: s, h => by
    rw [still,Bool.and_eq_true,Bool.not_eq_true',Bool.and_eq_false_iff,decide_eq_false_iff_not] at h
    have other : ¬ (c = 36 ∧ (d :: s).head?.any isdigit = true) := by
      rintro ⟨dollar,digit_⟩
      rcases h.1 with ne | no
      · exact ne dollar
      · exact Bool.eq_false_iff.mp no digit_
    rw [valuesByte other,stillCopied h.2]

theorem valuesText {x r : Bytes} (apart : 36 ∈ x → Unjoined x r) :
    withValues values (x ++ r) = withValues values x ++ withValues values r := by
  by_cases dollar : 36 ∈ x
  · exact valuesAppend (apart dollar)
  · have alone := @valuesPlain values _ dollar []
    rw [List.append_nil,valuesNil,List.append_nil] at alone
    rw [valuesPlain dollar,alone]

end

/-! ### The buffer -/

theorem putTextLess {cap : Nat} {out : Bytes} (less : out.length < cap) (v : Bytes) : (putText cap out v).length < cap := by
  induction v generalizing out with
  | nil => rwa [putText]
  | cons c v ih =>
    rw [putText]
    split
    · refine ih ?_
      rw [List.length_append]
      split
      · rw [List.length_cons,List.length_singleton]
        omega
      · rw [List.length_singleton]
        omega
    · exact less

theorem putByteLess {cap : Nat} {out : Bytes} (less : out.length < cap) (c : UInt8) : (putByte cap out c).length < cap := by
  rw [putByte]
  split
  · rwa [List.length_append]
  · exact less

theorem appendLess {cap : Nat} {out : Bytes} (less : out.length < cap) (v : Option Bytes) : (appendValue cap out v).length < cap := by
  cases v with
  | none =>
    rw [appendValue]
    split
    · rwa [List.length_append]
    · exact less
  | some v =>
    rw [appendValue]
    split
    · split
      · rwa [List.length_append]
      · exact less
    · exact putByteLess (putTextLess (putByteLess less 39) v) 39

theorem substituteLess {cap : Nat} (values : List (Option Bytes)) {out : Bytes} (less : out.length < cap) (s : Bytes) :
    (substituteFrom cap values out s).length < cap := by
  fun_induction substituteFrom cap values out s with
  | case1 out => exact less
  | case2 out c s param ih => exact ih (appendLess less _)
  | case3 out c s other ih => exact ih (putByteLess less c)

/-- Nothing is left out exactly when the whole text goes into the buffer. -/
theorem textWhole (values : List (Option Bytes)) (sql : Bytes) :
    substituteParams sql values = withValues values sql ↔ (withValues values sql).length < substituteCap sql values := by
  refine ⟨fun same => ?_,fun room => ?_⟩
  · rw [← same]
    exact substituteLess values (show 0 < substituteCap sql values by rw [substituteCap]; omega) sql
  · have text := PgWire.substituteFits [] sql (by rwa [List.length_nil,Nat.zero_add])
    rwa [List.nil_append] at text

/-! ### Literals -/

theorem digitBlank {c : UInt8} (digit_ : isdigit c = true) : isspace c = false ∧ c ≠ 45 ∧ c ≠ 43 :=
  digitNoSpace (show 48 ≤ c ∧ c ≤ 57 from of_decide_eq_true digit_).1

theorem strtollWhole {x : Bytes} (whole : Whole x) (less : digitsValue 0 x < 2 ^ 63) : (strtoll x).toInt = digitsValue 0 x := by
  have read : strtoll x = saturate (digitsValue 0 x) := by
    cases x with
    | nil => rfl
    | cons c x =>
      obtain ⟨blank,minus_,plus_⟩ := digitBlank (whole c List.mem_cons_self)
      rw [strtoll,List.dropWhile_cons_of_neg (Bool.eq_false_iff.mp blank)]
      split
      · exact absurd (List.cons.inj ‹_›).1 minus_
      · exact absurd (List.cons.inj ‹_›).1 plus_
      · rfl
  rw [read,saturate,if_neg (by omega),if_neg (by omega)]
  exact Int64.toInt_ofInt_of_le (by omega) (by omega)

theorem exponentStart {st : NumState} (before : st = .int ∨ st = .frac) {m : UInt8} (mark : m = 101 ∨ m = 69) :
    numNext st m = some .exp := by
  rcases before with rfl | rfl <;> rcases mark with rfl | rfl <;> rfl

theorem signTaken {sign : Bytes} (one : sign = [] ∨ sign = [43] ∨ sign = [45]) {ds : Bytes} (some_ : ds ≠ [])
    (digits_ : ∀ c ∈ ds, isdigit c = true) : path numNext .exp (sign ++ ds) = some .expDigits := by
  have stays : ∀ {t : Bytes}, (∀ c ∈ t, isdigit c = true) → path numNext .expDigits t = some .expDigits := fun all =>
    pathStays fun c mem => by rw [numNext,if_pos (all c mem)]
  rcases one with rfl | rfl | rfl
  · obtain ⟨c,t,rfl⟩ := List.exists_cons_of_ne_nil some_
    rw [List.nil_append,path,numNext,if_pos (Or.inr (Or.inr (digits_ c List.mem_cons_self)))]
    exact stays fun d mem => digits_ d (List.mem_cons_of_mem _ mem)
  · exact stays digits_
  · exact stays digits_

/-- A numeral is one lexeme of the scanner, an integer exactly when it is whole. -/
theorem numeralTaken {x : Bytes} (num : Numeral x) :
    (∃ c w, x = c :: w ∧ isdigit c = true) ∧ ∃ st, path numNext .int x = some st ∧ (Whole x ↔ st = .int) := by
  obtain ⟨whole,fraction,exponent,rfl,some_,digits_,part,power⟩ := num
  refine ⟨?_,?_⟩
  · obtain ⟨c,w,rfl⟩ := List.exists_cons_of_ne_nil some_
    exact ⟨c,_,rfl,digits_ c List.mem_cons_self⟩
  have behind : ∃ st, path numNext .int fraction = some st ∧ (st = .int ∨ st = .frac) ∧ (fraction = [] ↔ st = .int) := by
    rcases part with rfl | ⟨ds,rfl,all⟩
    · exact ⟨.int,rfl,Or.inl rfl,by simp⟩
    · have stays : path numNext .frac ds = some .frac := pathStays fun c mem => by rw [numNext,if_pos (all c mem)]
      exact ⟨.frac,stays,Or.inr rfl,by simp⟩
  obtain ⟨st,left,before,bare⟩ := behind
  have inside : ∀ {t : Bytes}, t ⊆ whole ++ (fraction ++ exponent) → ∀ c, c ∈ t → isdigit c = false → ¬ Whole (whole ++ (fraction ++ exponent)) :=
    fun sub c mem no all => Bool.eq_false_iff.mp no (all c (sub mem))
  rcases power with rfl | ⟨m,sign,ds,rfl,mark,one,exists_,all⟩
  · refine ⟨st,by rw [List.append_nil,pathAppend,digitsPath digits_]; exact left,?_⟩
    rw [← bare]
    refine ⟨fun all => ?_,fun none_ c mem => digits_ c (by rw [none_] at mem; simpa using mem)⟩
    rcases part with none_ | ⟨ds,rfl,_⟩
    · exact none_
    · exact absurd all (inside (t := [46]) (by simp) 46 List.mem_cons_self rfl)
  · refine ⟨.expDigits,?_,fun all_ => ?_,fun e => by cases e⟩
    · rw [pathAppend,digitsPath digits_,Option.bind_some,pathAppend,left,Option.bind_some,path,exponentStart before mark]
      exact signTaken one exists_ all
    · exact absurd all_ (inside (t := [m]) (by simp) m List.mem_cons_self (by rcases mark with rfl | rfl <;> rfl))

section
variable {F : Type} [Doubles F]

theorem numeralIs {x : Bytes} {st : NumState} (num : Numeral x) (whole : Whole x ↔ st = .int)
    (fits : Whole x → digitsValue 0 x < 2 ^ 63) : NumberIs x (numToken F x st) := by
  by_cases int : st = .int
  · have all := whole.mpr int
    rw [numToken,if_pos int]
    exact Or.inl ⟨num,all,rfl,strtollWhole all (fits all)⟩
  · rw [numToken,if_neg int]
    exact Or.inr ⟨num,mt whole.mp int,rfl,rfl⟩

theorem alphaLower {c : UInt8} (letter : isalpha (tolower c) = true) : isalpha c = true := by
  by_cases upper : 65 ≤ c ∧ c ≤ 90
  · exact decide_eq_true (Or.inl upper)
  · rwa [tolower,if_neg upper] at letter

theorem upperLower (c : UInt8) : toupper (tolower c) = toupper c := by
  by_cases upper : 65 ≤ c ∧ c ≤ 90
  · have lo : 65 ≤ c.toNat := UInt8.le_iff_toNat_le.mp upper.1
    have hi : c.toNat ≤ 90 := UInt8.le_iff_toNat_le.mp upper.2
    have sum : (c + 32).toNat = c.toNat + 32 := by
      rw [UInt8.toNat_add]
      exact Nat.mod_eq_of_lt (show c.toNat + 32 < 256 by omega)
    have lower : 97 ≤ c + 32 ∧ c + 32 ≤ 122 := by
      rw [UInt8.le_iff_toNat_le,UInt8.le_iff_toNat_le,sum]
      exact ⟨show 97 ≤ c.toNat + 32 by omega,show c.toNat + 32 ≤ 122 by omega⟩
    have not_ : ¬ (97 ≤ c ∧ c ≤ 122) := fun both => by
      have : 97 ≤ c.toNat := UInt8.le_iff_toNat_le.mp both.1
      omega
    rw [tolower,if_pos upper,toupper,if_pos lower,toupper,if_neg not_]
    exact UInt8.add_sub_cancel c 32
  · rw [tolower,if_neg upper]

/-- A text that is a keyword but for the case of its letters is that word. -/
theorem keywordLexeme {v : Bytes} {c : UInt8} {w : Bytes} (same : strcasecmp v (c :: w) = 0)
    (letters : ∀ d ∈ (c :: w).map tolower, isalpha d = true) (short : w.length < 127) :
    Lexeme F v [wordToken F v] wordChar ∧ (∃ d t, v = d :: t ∧ isalpha d = true) ∧
      (v.take 127).map toupper = (c :: w).map toupper := by
  have lower : v.map tolower = (c :: w).map tolower := strcmpZero same
  have upper : v.map toupper = (c :: w).map toupper := by
    have twice := congrArg (List.map toupper) lower
    simp only [List.map_map] at twice
    have one : toupper ∘ tolower = toupper := funext upperLower
    rwa [one] at twice
  have all : ∀ d ∈ v, isalpha d = true := fun d mem => alphaLower (letters _ (lower ▸ List.mem_map_of_mem mem))
  have count : v.length = w.length + 1 := by
    have := congrArg List.length lower
    rwa [List.length_map,List.length_map,List.length_cons] at this
  obtain ⟨d,t,rfl⟩ := List.exists_cons_of_length_eq_add_one count
  refine ⟨.word (Or.inl (all d List.mem_cons_self)) fun e mem => ?_,⟨d,t,rfl,all d List.mem_cons_self⟩,?_⟩
  · rw [wordChar,all e (List.mem_cons_of_mem _ mem)]
    rfl
  · rw [List.take_of_length_le (by omega),upper]

theorem wordType {v : Bytes} {k : String × TkType} (upper : (v.take 127).map toupper = ascii k.1)
    (known : (keywords.find? fun e => ascii e.1 = ascii k.1) = some k) : (wordToken F v).type = k.2 := by
  rw [wordToken,upper,known]

/-- A plain value, its sign apart, is written as one lexeme; with the sign it denotes the value. -/
theorem valueScans {v : Option Bytes} (plain : PlainValue v) : ∃ sign body tokens go,
    sqlValue v = sign ++ body ∧ unsigned (sqlValue v) = body ∧ Lexeme F body tokens go ∧
      (sign = [] ∧ Denotes v tokens ∨ sign = [45] ∧ body.head? ≠ some 45 ∧ Denotes v (tok F .minus :: tokens)) := by
  cases v with
  | none =>
    have word : Lexeme F (ascii "NULL") [wordToken F (ascii "NULL")] wordChar :=
      Lexeme.word (c := 78) (w := ascii "ULL") (Or.inl rfl) (by decide +kernel)
    exact ⟨[],_,_,_,rfl,rfl,word,Or.inl ⟨rfl,_,rfl,wordType (k := ("NULL",.null)) (by decide) (by decide)⟩⟩
  | some v =>
    rw [PlainValue] at plain
    rw [sqlValue]
    split at plain
    · rename_i raw
      rw [if_pos raw]
      have word : ∀ {c w}, strcasecmp v (c :: w) = 0 → (∀ d ∈ (c :: w).map tolower, isalpha d = true) → w.length < 127 →
          ∀ {k : String × TkType}, (c :: w).map toupper = ascii k.1 → (keywords.find? fun e => ascii e.1 = ascii k.1) = some k →
          Lexeme F v [wordToken F v] wordChar ∧ v.head? ≠ some 45 ∧ (wordToken F v).type = k.2 := by
        intro c w same letters short k upper known
        obtain ⟨lexeme,⟨d,t,rfl,letter⟩,is⟩ := @keywordLexeme F _ _ _ _ same letters short
        exact ⟨lexeme,fun e => (letterClass (Or.inl letter)).2.1 (Option.some.inj e),wordType (is.trans upper) known⟩
      rcases plain with same | same | ⟨x,is,num,fits⟩
      · obtain ⟨lexeme,head,type⟩ := @word 116 (ascii "rue") same (by decide +kernel) (by decide +kernel) ("TRUE",.true_) (by decide +kernel) (by decide +kernel)
        exact ⟨[],v,_,_,rfl,unsignedSelf head,lexeme,Or.inl ⟨rfl,Or.inl ⟨_,rfl,Or.inr (Or.inl ⟨type,same⟩)⟩⟩⟩
      · obtain ⟨lexeme,head,type⟩ := @word 102 (ascii "alse") same (by decide +kernel) (by decide +kernel) ("FALSE",.false_) (by decide +kernel) (by decide +kernel)
        exact ⟨[],v,_,_,rfl,unsignedSelf head,lexeme,Or.inl ⟨rfl,Or.inl ⟨_,rfl,Or.inr (Or.inr (Or.inl ⟨type,same⟩))⟩⟩⟩
      · obtain ⟨⟨c,w,start,digit_⟩,st,taken,whole⟩ := numeralTaken num
        have lexeme : Lexeme F x [numToken F x st] fun y => (numNext st y).isSome := by
          subst start
          exact .number digit_ taken
        have value := @numeralIs F _ _ _ num whole fits
        have head : x.head? ≠ some 45 := fun e => digitHead digit_ (by rw [start] at e; exact Option.some.inj e)
        rcases is with rfl | rfl
        · exact ⟨[],v,_,_,rfl,unsignedSelf head,lexeme,Or.inl ⟨rfl,Or.inl ⟨_,rfl,Or.inr (Or.inr (Or.inr value))⟩⟩⟩
        · exact ⟨[45],x,_,_,rfl,rfl,lexeme,Or.inr ⟨rfl,head,Or.inr ⟨_,_,x,rfl,rfl,rfl,value⟩⟩⟩
    · rename_i raw
      rw [if_neg raw]
      obtain ⟨paired,same⟩ := pairedPlain plain
      rw [doubled] at same
      rw [same]
      exact ⟨[],_,_,_,rfl,rfl,.string paired,Or.inl ⟨rfl,Or.inl ⟨_,rfl,Or.inl ⟨rfl,rfl⟩⟩⟩⟩

/-- Scanned before what does not join it, a plain value gives that one literal. -/
theorem valueLexes {v : Option Bytes} (plain : PlainValue v) {r : Bytes}
    (apart : ∀ y, r.head? = some y → Apart F (unsigned (sqlValue v)) y) :
    ∃ ts, lexAll F (sqlValue v ++ r) = ts ++ lexAll F r ∧ Denotes v ts := by
  obtain ⟨sign,body,ts,go,split,bare,lexeme,value⟩ := @valueScans F _ _ plain
  have stop : ∀ y, r.head? = some y → go y = false := fun y hy => apart y hy ts go (bare ▸ lexeme)
  rcases value with ⟨none_,value⟩ | ⟨minus_,head,value⟩
  · exact ⟨ts,by rw [split,none_,List.nil_append,lexAllAppend lexeme stop],value⟩
  · refine ⟨_,?_,value⟩
    have op : Lexeme F [45] [tok F .minus] (opGoes 45 []) := .op rfl
    have behind : ∀ y, (body ++ r).head? = some y → opGoes 45 [] y = false := fun y hy => by
      have mine : body.head? = some y := by
        rwa [List.head?_append_of_ne_nil _ (lexemeSome lexeme)] at hy
      have ne : y ≠ 45 := fun e => head (by rw [mine,e])
      simp [opGoes,ne]
    rw [split,minus_,List.append_assoc,lexAllAppend op behind,lexAllAppend lexeme stop]
    rfl

end

/-! ### Stretches -/

section
variable {F : Type} [Doubles F]

theorem paramStep {s : Bytes} (digit_ : s.head?.any isdigit = true) :
    stretchStep F (36 :: s) = (.param (s.takeWhile isdigit),s.dropWhile isdigit) := if_pos ⟨rfl,digit_⟩

theorem textStep {c : UInt8} {s : Bytes} (other : ¬ (c = 36 ∧ s.head?.any isdigit = true)) :
    stretchStep F (c :: s) = (.text ((c :: s).take ((c :: s).length - (lexStep F (c :: s)).2.length)) (lexStep F (c :: s)).1,
      (lexStep F (c :: s)).2) := if_neg other

theorem stretchSource (c : UInt8) (s : Bytes) : (stretchStep F (c :: s)).1.source ++ (stretchStep F (c :: s)).2 = c :: s ∧
    (stretchStep F (c :: s)).1.source ≠ [] := by
  by_cases here : c = 36 ∧ s.head?.any isdigit = true
  · rw [here.1,paramStep here.2]
    exact ⟨congrArg (36 :: ·) List.takeWhile_append_dropWhile,List.cons_ne_nil _ _⟩
  · obtain ⟨x,ne,is,taken⟩ := lexStepSplit (F := F) c s
    rw [textStep here]
    simp only [Stretch.source,taken]
    exact ⟨is.symm,ne⟩

theorem stretchShorter (c : UInt8) (s : Bytes) : (stretchStep F (c :: s)).2.length < (c :: s).length :=
  sourceShorter stretchSource c s

theorem stretchesStep (c : UInt8) (s : Bytes) :
    stretches F (c :: s) = (stretchStep F (c :: s)).1 :: stretches F (stretchStep F (c :: s)).2 := scanStep stretchShorter c s

theorem stretchesSource (s : Bytes) : (stretches F s).flatMap Stretch.source = s := scanSource stretchSource s

variable {values : List (Option Bytes)}

/-- What the induction over a template gives for each of its ends. -/
structure Rendered (values : List (Option Bytes)) (s : Bytes) : Prop where
  tokens : Substituted values (stretches F s) (lexAll F (withValues values s))
  head : (withValues values s).head? = nextByte values (stretches F s)
  short : s.length ≤ 1 → withValues values s = s

/-- The byte behind a text is the one behind it in the template, or the first of a value. -/
theorem nextCases {r : Bytes} {y : UInt8} (h : nextByte values (stretches F r) = some y) :
    r.head? = some y ∨ ∃ ds sts, stretches F r = .param ds :: sts := by
  cases r with
  | nil => cases h
  | cons d r =>
    rw [stretchesStep] at h ⊢
    obtain ⟨is,ne⟩ := stretchSource (F := F) d r
    have first : (stretchStep F (d :: r)).1.source.head? = some d := by
      cases source : (stretchStep F (d :: r)).1.source with
      | nil => exact absurd source ne
      | cons e t =>
        rw [source] at is
        rw [List.head?_cons,(List.cons.inj is).1]
    cases st : (stretchStep F (d :: r)).1 with
    | param ds => exact Or.inr ⟨ds,_,rfl⟩
    | text x ts =>
      rw [st] at h first
      exact Or.inl (first.symm.trans h)

theorem renderText {c : UInt8} {s x r : Bytes} {ts : List (Token F)} (other : ¬ (c = 36 ∧ s.head?.any isdigit = true))
    (step : stretchStep F (c :: s) = (.text x ts,r)) (scanned : Scanned F (c :: s) ts r) (lexed : lexStep F (c :: s) = (ts,r))
    (fits : StretchFits values (stretches F r) (.text x ts)) (rest : Rendered (F := F) values r) :
    Rendered (F := F) values (c :: s) := by
  obtain ⟨apart,kept⟩ := fits
  obtain ⟨is,ne⟩ := stretchSource (F := F) c s
  rw [step] at is ne
  have whole : x ++ r = c :: s := is
  have ne : x ≠ [] := ne
  rw [stretchesSource] at apart
  have split := @valuesText values _ _ apart
  rw [whole] at split
  have parts : stretches F (c :: s) = .text x ts :: stretches F r := by rw [stretchesStep,step]
  have first : x.head? = some c := by
    rw [← List.head?_append_of_ne_nil x ne,whole]
    rfl
  have kept' : (withValues values (c :: s)).head? = nextByte values (stretches F (c :: s)) := by
    rw [valuesByte other,parts]
    exact first.symm
  have single : (c :: s).length ≤ 1 → withValues values (c :: s) = c :: s := fun le => by
    have none_ : s = [] := List.eq_nil_of_length_eq_zero (by rw [List.length_cons] at le; omega)
    rw [valuesByte other,none_,valuesNil]
  refine ⟨?_,kept',single⟩
  rw [parts,split]
  rcases kept with ⟨still_,behind⟩ | ⟨none_,go,lexeme,stop⟩
  · rw [stillCopied still_]
    have tokens : lexAll F (x ++ withValues values r) = ts ++ lexAll F (withValues values r) := by
      rcases scanned with ⟨x0,go,is0,lexeme,stop⟩ | ⟨_,_,_,short⟩
      · rw [← List.append_cancel_right (whole.trans is0)] at lexeme
        refine lexAllAppend lexeme fun y hy => ?_
        rw [rest.head] at hy
        rcases nextCases hy with here | ⟨ds,tail,param⟩
        · exact stop y here
        · exact behind ds tail param y hy ts go lexeme
      · rw [rest.short short,whole,lexAllStep,lexed]
    rw [tokens]
    exact .text rest.tokens
  · rw [lexAllAppend lexeme fun y hy => stop y (rest.head ▸ hy),none_]
    exact .text rest.tokens

theorem renderParam (count : values.length < 2 ^ 31) {s : Bytes} (digit_ : s.head?.any isdigit = true)
    (fits : StretchFits values (stretches F (s.dropWhile isdigit)) (.param (s.takeWhile isdigit)))
    (rest : Rendered (F := F) values (s.dropWhile isdigit)) : Rendered (F := F) values (36 :: s) := by
  obtain ⟨v,known,plain,apart⟩ := fits
  obtain ⟨value,left⟩ := boundRead count known
  have parts : stretches F (36 :: s) = .param (s.takeWhile isdigit) :: stretches F (s.dropWhile isdigit) := by
    rw [stretchesStep,paramStep digit_]
  have text : withValues values (36 :: s) = sqlValue v ++ withValues values (s.dropWhile isdigit) := by
    rw [valuesParam digit_,value,left]
  obtain ⟨ts,tokens,denotes⟩ := @valueLexes F _ _ plain (withValues values (s.dropWhile isdigit)) fun y hy =>
    apart y (rest.head ▸ hy)
  obtain ⟨sign,body,_,_,split,_,lexeme,_⟩ := @valueScans F _ _ plain
  have ne : sqlValue v ≠ [] := by
    rw [split]
    exact List.append_ne_nil_of_right_ne_nil _ (lexemeSome lexeme)
  refine ⟨?_,?_,fun le => ?_⟩
  · rw [parts,text,tokens]
    exact .param known denotes rest.tokens
  · rw [parts,text,List.head?_append_of_ne_nil _ ne,nextByte,known]
    rfl
  · cases s with
    | nil => cases digit_
    | cons d s =>
      rw [List.length_cons,List.length_cons] at le
      omega

/-- The induction over the template, from its end. -/
theorem fitsRendered (count : values.length < 2 ^ 31) {s : Bytes} (fits : StretchesFit values (stretches F s)) :
    Rendered (F := F) values s := by
  induction h : s.length using Nat.strongRecOn generalizing s with
  | _ n ih =>
    cases s with
    | nil => exact ⟨by rw [valuesNil]; exact .nil,by rw [valuesNil]; rfl,fun _ => valuesNil⟩
    | cons c s =>
      rw [stretchesStep] at fits
      obtain ⟨here,behind⟩ := fits
      have rest := ih _ (by rw [← h]; exact stretchShorter c s) behind rfl
      by_cases param : c = 36 ∧ s.head?.any isdigit = true
      · obtain ⟨rfl,digit_⟩ := param
        rw [paramStep digit_] at here rest
        exact renderParam count digit_ here rest
      · have step := textStep (F := F) param
        rw [step] at here rest
        exact renderText param step (lexStepSound c s) rfl here rest

/-- The tokens of a text stretch are kept. -/
theorem textKept {sts : List (Stretch F)} {ts : List (Token F)} (sub : Substituted values sts ts) {x : Bytes} {us : List (Token F)}
    (mem : .text x us ∈ sts) : us ⊆ ts := by
  induction sub with
  | nil => cases mem
  | text _ ih =>
    rcases List.mem_cons.mp mem with is | later
    · cases is
      exact List.subset_append_left _ _
    · exact List.Subset.trans (ih later) (List.subset_append_right _ _)
  | param _ _ _ ih =>
    rcases List.mem_cons.mp mem with is | later
    · cases is
    · exact List.Subset.trans (ih later) (List.subset_append_right _ _)

end

/-- A blank ends every lexeme but a comment. -/
theorem apartSpace {F : Type} [Doubles F] {x : Bytes} (head : x.head? ≠ some 45) : Apart F x 32 := by
  intro ts go lexeme
  cases lexeme with
  | space _ => rfl
  | line _ => exact absurd rfl head
  | block _ => rfl
  | @op c t pairs known =>
    obtain ⟨before,after,table,_⟩ := List.lookup_eq_some_iff.mp known
    have mem : (c,t,pairs) ∈ operatorTable := table ▸ List.mem_append_right _ List.mem_cons_self
    have all : ∀ o ∈ operatorTable, opGoes o.1 o.2.2 32 = false := by decide
    exact all _ mem
  | pair _ _ => rfl
  | quoted _ _ => rfl
  | string _ => rfl
  | @number _ _ st _ _ => cases st <;> rfl
  | word _ _ => rfl
  | stray _ => rfl

/-- The buffer is measured with every value once. -/
def reused : Bytes := ascii "DELETE FROM t WHERE a=$1 AND b=$1 AND c=$1 AND tenant=7"

/-- Two values can make up for each other: the first turns its minus into a comment, the second, in a comment, writes
both tokens anew. So the condition is not necessary. -/
theorem valuesMakeUp : @KeepsTokens Int64 wholeNumbers.toDoubles [some (ascii "-5"),some (ascii "\n- -5 --")] (ascii "-$1 --$2") ∧
    ¬ @TemplateFits Int64 wholeNumbers.toDoubles [some (ascii "-5"),some (ascii "\n- -5 --")] (ascii "-$1 --$2") := by
  let _ : JsonDoubles Int64 := wholeNumbers
  have five : NumberIs (ascii "5") (⟨.numInt,ascii "5",5,0⟩ : Token Int64) :=
    Or.inl ⟨⟨ascii "5",[],[],rfl,by decide +kernel,by decide +kernel,Or.inl rfl,Or.inl rfl⟩,
      (show ∀ c ∈ ascii "5", isdigit c = true by decide +kernel),rfl,by decide⟩
  refine ⟨?_,fun fits => ?_⟩
  · have tokens : lexAll Int64 (substituteParams (ascii "-$1 --$2") [some (ascii "-5"),some (ascii "\n- -5 --")]) =
        [⟨.minus,[],0,0⟩,⟨.minus,[],0,0⟩,⟨.numInt,ascii "5",5,0⟩] := by decide +kernel
    rw [KeepsTokens,tokens]
    show @Substituted Int64 _ _ [ .text [45] [⟨.minus,[],0,0⟩], .param (ascii "1"), .text [32] [], .text (ascii "--$2") []]
      ([⟨.minus,[],0,0⟩] ++ ([⟨.minus,[],0,0⟩,⟨.numInt,ascii "5",5,0⟩] ++ ([] ++ ([] ++ []))))
    exact .text (.param rfl (Or.inr ⟨_,_,_,rfl,rfl,rfl,five⟩) (.text (.text .nil)))
  · obtain ⟨⟨_,quiet_ | ⟨none_,_⟩⟩,_⟩ := fits.stretches
    · exact absurd (quiet_.2 (ascii "1") _ rfl 45 rfl _ _ (.op rfl)) (by decide)
    · cases none_

end Napastak.PgTemplate
