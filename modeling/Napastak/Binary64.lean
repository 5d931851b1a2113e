import Napastak.QueryJson
import Napastak.DecArithExact
import Napastak.Lib.Rounding
import Mathlib.Data.List.DropRight

/-! Doubles by the rationals they hold: `strtod` on a JSON number, the cast to 64 bits, `%lld` and `%g`. -/
namespace Napastak.Binary64
open Query Rfc8259 Rounding Munch
open DecArith (dv dvCat)

/-! ### Numbers -/

def expPower : Option (UInt8 × Option UInt8 × Bytes) → ℤ
  | none => 0
  | some (_,sign,ds) => if sign = some 45 then -dv ds else dv ds

/-- What a number of the grammar stands for. -/
def numberValue (n : Number) : ℚ :=
  (if n.minus then -1 else 1) * dv (n.whole ++ n.frac.getD []) * 10 ^ (expPower n.exp - (n.frac.getD []).length)

/-! ### The code -/

inductive Double
  | finite (q : ℚ)
  | inf (minus : Bool)
  deriving DecidableEq, Repr

/-- 53 binary digits, none of them behind 2^-1074. -/
def nearest (v : ℚ) : ℚ := onGrid (2 ^ max (Int.log 2 |v| - 52) (-1074)) v

def toDouble (v : ℚ) : Double := if 2 ^ 1024 ≤ |nearest v| then .inf (v < 0) else .finite (nearest v)

def strtod (n : Number) : Double := toDouble (numberValue n)

/-- `(int64_t)d`: what does not fit is the smallest number. -/
def toLong : Double → Int64
  | .finite q =>
    let i := if q < 0 then ⌈q⌉ else ⌊q⌋
    if -2 ^ 63 ≤ i ∧ i < 2 ^ 63 then Int64.ofInt i else Int64.minValue
  | .inf _ => Int64.minValue

/-- Six digits and the exponent of the first. -/
def sixDigits (q : ℚ) : Nat × ℤ :=
  let e := place 10 6 q
  let m := (roundEven (q / 10 ^ e)).natAbs
  if m = 10 ^ 6 then (10 ^ 5,e + 6) else (m,e + 5)

def unpadded (f : Bytes) : Bytes := f.rdropWhile (· = 48)

def point (f : Bytes) : Bytes := if f = [] then [] else 46 :: f

def expDigits (a : Nat) : Bytes := if a < 10 then [48,digit a] else decimal a

/-- `%g`. -/
def fmtG : Double → Bytes
  | .inf minus => if minus then ascii "-inf" else ascii "inf"
  | .finite q =>
    let ds := decimal (sixDigits q).1
    let x := (sixDigits q).2
    if q = 0 then [48]
    else (if q < 0 then [45] else []) ++
      if -4 ≤ x ∧ x < 6 then
        if 0 ≤ x then ds.take (x.toNat + 1) ++ point (unpadded (ds.drop (x.toNat + 1)))
        else 48 :: point (unpadded (List.replicate (-x - 1).toNat 48 ++ ds))
      else ds.take 1 ++ (point (unpadded (ds.drop 1)) ++ 101 :: (if x < 0 then 45 else 43) :: expDigits x.natAbs)

/-- A whole number by `%lld`, another by `%g`. -/
def numberText (d : Double) : Bytes := if d = toDouble (toLong d).toInt then lld (toLong d) else fmtG d

example : numberText (.finite (-3/2)) = ascii "-1.5" := by decide +kernel

/-! ### One value for a text -/

theorem wholeFirst (n : Number) : ∀ c, (n.whole ++ (fracText n.frac ++ expText n.exp)).head? = some c → c ≠ 45 := by
  obtain ⟨some_,digits⟩ := n.wholeDigits.1
  obtain ⟨d,w,is⟩ := List.exists_cons_of_ne_nil some_
  rw [is] at digits ⊢
  rintro _ ⟨⟩ rfl
  have := digits 45 List.mem_cons_self
  cases this

theorem expStop (n : Number) : ∀ c, (expText n.exp).head? = some c → isdigit c = false ∧ c ≠ 46 := by
  intro c is
  cases exp : n.exp with
  | none =>
    rw [exp] at is
    cases is
  | some e =>
    obtain ⟨e,sign,ds⟩ := e
    rw [exp] at is
    cases is
    rcases (n.expDigits _ _ _ exp).1 with rfl | rfl <;> exact ⟨rfl,by decide⟩

theorem fracStop (n : Number) : ∀ c, (fracText n.frac ++ expText n.exp).head? = some c → isdigit c = false := by
  intro c is
  cases frac : n.frac with
  | none =>
    rw [frac] at is
    exact (expStop n c is).1
  | some ds =>
    rw [frac] at is
    cases is
    rfl

/-- Two numbers with one text are the same number. -/
theorem numberParts {n k : Number} (same : n.text = k.text) :
    n.minus = k.minus ∧ n.whole = k.whole ∧ n.frac = k.frac ∧ expPower n.exp = expPower k.exp := by
  rw [Number.text,Number.text] at same
  have signs : n.minus = k.minus ∧ n.whole ++ (fracText n.frac ++ expText n.exp) = k.whole ++ (fracText k.frac ++ expText k.exp) := by
    have first := wholeFirst n
    have second := wholeFirst k
    generalize n.whole ++ (fracText n.frac ++ expText n.exp) = x at same first ⊢
    generalize k.whole ++ (fracText k.frac ++ expText k.exp) = y at same second ⊢
    generalize n.minus = a at same ⊢
    generalize k.minus = b at same ⊢
    cases a <;> cases b <;> simp only [if_true,Bool.false_eq_true,if_false,List.nil_append,List.singleton_append] at same
    · exact ⟨rfl,same⟩
    · exact absurd rfl (first 45 (by rw [same]; rfl))
    · exact absurd rfl (second 45 (by rw [← same]; rfl))
    · exact ⟨rfl,(List.cons.inj same).2⟩
  obtain ⟨minus,same⟩ := signs
  obtain ⟨taken,left⟩ := takeStop n.wholeDigits.1.2 (fracStop n)
  obtain ⟨taken',left'⟩ := takeStop k.wholeDigits.1.2 (fracStop k)
  rw [same,taken'] at taken
  rw [same,left'] at left
  refine ⟨minus,taken.symm,?_⟩
  have dot {m : Number} {ds x : Bytes} (is : expText m.exp = 46 :: ds ++ x) : False := (expStop m 46 (by rw [is]; rfl)).2 rfl
  have exps : n.frac = k.frac ∧ expText n.exp = expText k.exp := by
    cases fn : n.frac with
    | none =>
      cases fk : k.frac with
      | none =>
        rw [fn,fk] at left
        exact ⟨rfl,left.symm⟩
      | some ds =>
        rw [fn,fk] at left
        exact (dot left.symm).elim
    | some ds =>
      cases fk : k.frac with
      | none =>
        rw [fn,fk] at left
        exact (dot left).elim
      | some es =>
        rw [fn,fk] at left
        have rest : es ++ expText k.exp = ds ++ expText n.exp := (List.cons.inj left).2
        have first := takeStop (k.fracDigits es fk).2 fun c is => (expStop k c is).1
        have second := takeStop (n.fracDigits ds fn).2 fun c is => (expStop n c is).1
        rw [rest,second.1,second.2] at first
        exact ⟨congrArg some first.1,first.2⟩
  refine ⟨exps.1,?_⟩
  have same := exps.2
  cases en : n.exp with
  | none =>
    cases ek : k.exp with
    | none => rfl
    | some e => rw [en,ek] at same; cases same
  | some e =>
    cases ek : k.exp with
    | none => rw [en,ek] at same; cases same
    | some f =>
      obtain ⟨e,sign,ds⟩ := e
      obtain ⟨f,sign',es⟩ := f
      rw [en,ek] at same
      have rest := (List.cons.inj same).2
      have plain {m : Number} {e : UInt8} {s : Option UInt8} {xs ys : Bytes} {c : UInt8} (is : m.exp = some (e,s,xs)) (sign : c = 43 ∨ c = 45)
          (eq : xs = c :: ys) : False := by
        have := (m.expDigits e s xs is).2.2.2 c (by rw [eq]; exact List.mem_cons_self)
        rcases sign with rfl | rfl <;> cases this
      cases sign with
      | none =>
        cases sign' with
        | none => exact congrArg (fun xs => expPower (some (e,none,xs))) rest
        | some c => exact (plain en ((k.expDigits _ _ _ ek).2.1 c rfl) rest).elim
      | some c =>
        cases sign' with
        | none => exact (plain ek ((n.expDigits _ _ _ en).2.1 c rfl) rest.symm).elim
        | some d =>
          obtain ⟨rfl,rfl⟩ := List.cons.inj rest
          rfl

theorem numberValueText {n k : Number} (same : n.text = k.text) : numberValue n = numberValue k := by
  obtain ⟨minus,whole,frac,exp⟩ := numberParts same
  rw [numberValue,numberValue,minus,whole,frac,exp]

/-! ### Doubles -/

/-- What a double can hold, its range apart. -/
def Held (q : ℚ) : Prop := ∃ m e : ℤ, |m| < 2 ^ 53 ∧ -1074 ≤ e ∧ q = m * 2 ^ e

def lastPlace (v : ℚ) : ℤ := max (Int.log 2 |v| - 52) (-1074)

theorem lastPlaceIs (v : ℚ) : lastPlace v = max (place 2 53 v) (-1074) := by
  rw [lastPlace,place]
  congr 1
  push_cast
  ring

theorem twoPos (e : ℤ) : (0 : ℚ) < 2 ^ e := zpow_pos two_pos e

theorem nearestNear (v : ℚ) : |nearest v - v| ≤ 2 ^ lastPlace v / 2 := onGridNear (twoPos _) v

theorem nearestHeld (v : ℚ) : Held (nearest v) := by
  by_cases some_ : v = 0
  · refine ⟨0,0,by norm_num,by norm_num,?_⟩
    rw [some_,nearest,onGrid,zero_div,roundEvenOf (m := 0) (by norm_num)]
    simp
  have high := (placeBounds (b := 2) (p := 53) (by decide) some_).2
  have step := twoPos (lastPlace v)
  have least : -1074 ≤ lastPlace v := le_max_right _ _
  have reach : |v / 2 ^ lastPlace v| ≤ ((2 ^ 53 : ℤ) : ℚ) := by
    have far : (2 : ℚ) ^ (place 2 53 v + (53 : Nat)) ≤ 2 ^ (lastPlace v + (53 : Nat)) :=
      zpow_le_zpow_right₀ one_le_two (by rw [lastPlaceIs]; have := le_max_left (place 2 53 v) (-1074); omega)
    rw [abs_div,abs_of_pos step,div_le_iff₀ step]
    rw [zpow_add₀ two_ne_zero (lastPlace v),zpow_natCast] at far
    push_cast at high far ⊢
    linarith
  obtain ⟨low,up⟩ := abs_le.mp reach
  have size : |roundEven (v / 2 ^ lastPlace v)| ≤ 2 ^ 53 :=
    abs_le.mpr ⟨roundEvenLow (by push_cast at low ⊢; exact low),roundEvenHigh up⟩
  rcases lt_or_eq_of_le size with less | full
  · exact ⟨_,_,less,least,rfl⟩
  · rcases (abs_eq (by norm_num)).mp full with is | is
    · refine ⟨2 ^ 52,lastPlace v + 1,by norm_num,by omega,?_⟩
      rw [nearest,onGrid,← lastPlace,is,zpow_add_one₀ two_ne_zero]
      push_cast
      ring
    · refine ⟨-2 ^ 52,lastPlace v + 1,by norm_num,by omega,?_⟩
      rw [nearest,onGrid,← lastPlace,is,zpow_add_one₀ two_ne_zero]
      push_cast
      ring

theorem heldNearest {q : ℚ} (held : Held q) : nearest q = q := by
  obtain ⟨m,e,size,least,is⟩ := held
  by_cases some_ : q = 0
  · rw [some_,nearest,onGrid,zero_div,roundEvenOf (m := 0) (by norm_num)]
    simp
  have low := (placeBounds (b := 2) (p := 53) (by decide) some_).1
  have size' : |(m : ℚ)| < 2 ^ 53 := by exact_mod_cast size
  have behind : lastPlace q ≤ e := by
    rw [lastPlaceIs]
    refine max_le ?_ least
    by_contra no
    have far : (2 : ℚ) ^ ((53 : ℤ) + e) ≤ 2 ^ (place 2 53 q + (53 : Nat) - 1) := zpow_le_zpow_right₀ one_le_two (by omega)
    have reach : |q| < 2 ^ ((53 : ℤ) + e) := by
      rw [is,abs_mul,abs_of_pos (twoPos e),zpow_add₀ two_ne_zero]
      exact mul_lt_mul_of_pos_right (by exact_mod_cast size') (twoPos e)
    push_cast at low far
    linarith
  obtain ⟨n,en⟩ : ∃ n : Nat, e = lastPlace q + n := ⟨(e - lastPlace q).toNat,by omega⟩
  have grid : q = ((m * 2 ^ n : ℤ) : ℚ) * 2 ^ lastPlace q := by
    nth_rewrite 1 [is]
    rw [en,zpow_add₀ two_ne_zero,zpow_natCast]
    push_cast
    ring
  exact (congrArg (onGrid (2 ^ lastPlace q)) grid).trans ((onGridExact (twoPos _) _).trans grid.symm)

theorem nearestIff {v : ℚ} : nearest v = v ↔ Held v := ⟨fun is => is ▸ nearestHeld v,heldNearest⟩

/-- Behind 53 digits there is no more to lose than half of the last. -/
theorem normalNear {v : ℚ} (normal : 2 ^ (-1022 : ℤ) ≤ |v|) : |nearest v - v| ≤ |v| / 2 ^ 53 := by
  have pos : 0 < |v| := lt_of_lt_of_le (twoPos _) normal
  have order : -1022 ≤ Int.log 2 |v| := (Int.zpow_le_iff_le_log (by decide) pos).mp (by exact_mod_cast normal)
  have last : lastPlace v = Int.log 2 |v| - 52 := max_eq_left (by omega)
  have low := Int.zpow_log_le_self (b := 2) (by decide) pos
  have near := nearestNear v
  rw [last,zpow_sub₀ two_ne_zero] at near
  push_cast at low
  calc |nearest v - v| ≤ 2 ^ Int.log 2 |v| / 2 ^ (52 : ℤ) / 2 := near
    _ = 2 ^ Int.log 2 |v| / 2 ^ 53 := by rw [div_div]; norm_num
    _ ≤ |v| / 2 ^ 53 := div_le_div_of_nonneg_right low (by positivity)

/-- In the range of 53 digits the six digits of the double are the number just where it has no more. -/
theorem sixIff {v : ℚ} (normal : 2 ^ (-1022 : ℤ) ≤ |v|) : toDigits 10 6 (nearest v) = v ↔ Digits 10 6 v := by
  refine ⟨fun is => is ▸ toDigitsDigits (by decide) (by decide) _,fun digits => toDigitsOf (by decide) digits ?_⟩
  have near := normalNear normal
  have size := abs_sub_abs_le_abs_sub v (nearest v)
  rw [abs_sub_comm v] at size
  have pos := abs_nonneg v
  push_cast
  linarith

/-! ### Whole numbers -/

/-- A whole number of 64 bits. -/
def Whole (q : ℚ) : Prop := ∃ i : ℤ, -2 ^ 63 ≤ i ∧ i < 2 ^ 63 ∧ q = i

theorem nearestWhole (i : ℤ) : ∃ j : ℤ, nearest i = j := by
  by_cases small : |i| < 2 ^ 53
  · exact ⟨i,heldNearest ⟨i,0,small,by decide,by simp⟩⟩
  have large : (2 : ℚ) ^ (53 : ℤ) ≤ |(i : ℚ)| := by
    have := not_lt.mp small
    exact_mod_cast this
  have pos : 0 < |(i : ℚ)| := lt_of_lt_of_le (twoPos _) large
  have order : 53 ≤ Int.log 2 |(i : ℚ)| := (Int.zpow_le_iff_le_log (by decide) pos).mp (by exact_mod_cast large)
  obtain ⟨n,is⟩ : ∃ n : Nat, lastPlace i = n := ⟨(lastPlace i).toNat,by
    have : Int.log 2 |(i : ℚ)| - 52 ≤ lastPlace i := le_max_left _ _
    omega⟩
  refine ⟨roundEven (i / 2 ^ lastPlace i) * 2 ^ n,?_⟩
  rw [nearest,onGrid,← lastPlace]
  nth_rewrite 2 [is]
  push_cast
  rw [zpow_natCast]

theorem longSmall (l : Int64) : |nearest l.toInt| < 2 ^ 1024 := by
  have low := l.le_toInt
  have high := l.toInt_lt
  have size : |(l.toInt : ℚ)| ≤ 2 ^ 63 := by
    have : |l.toInt| ≤ 2 ^ 63 := abs_le.mpr ⟨by omega,by omega⟩
    exact_mod_cast this
  by_cases zero : l.toInt = 0
  · rw [zero,heldNearest ⟨0,0,by norm_num,by norm_num,by simp⟩,Int.cast_zero,abs_zero]
    exact pow_pos two_pos 1024
  have normal : (2 : ℚ) ^ (-1022 : ℤ) ≤ |(l.toInt : ℚ)| := by
    have one : (1 : ℚ) ≤ |(l.toInt : ℚ)| := by
      have := Int.one_le_abs zero
      exact_mod_cast this
    exact (zpow_le_one_of_nonpos₀ one_le_two (by decide)).trans one
  have near := normalNear normal
  have apart := abs_sub_abs_le_abs_sub (nearest l.toInt) l.toInt
  refine lt_of_le_of_lt (b := (2 : ℚ) ^ 65) ?_ (pow_lt_pow_right₀ one_lt_two (by decide))
  linarith

theorem toLongWhole {i : ℤ} (low : -2 ^ 63 ≤ i) (high : i < 2 ^ 63) : (toLong (.finite i)).toInt = i := by
  have cut : (if (i : ℚ) < 0 then ⌈(i : ℚ)⌉ else ⌊(i : ℚ)⌋) = i := by split <;> simp
  simp only [toLong,cut,if_pos (And.intro low high)]
  exact Int64.toInt_ofInt_of_le low (by omega)

/-- The code prints as whole what is a whole number of 64 bits. -/
theorem wholeIff {q : ℚ} (held : Held q) : Double.finite q = toDouble (toLong (.finite q)).toInt ↔ Whole q := by
  constructor
  · intro same
    rw [toDouble,if_neg (not_le.mpr (longSmall _)),Double.finite.injEq] at same
    obtain ⟨j,is⟩ := nearestWhole (toLong (.finite q)).toInt
    rw [is] at same
    subst same
    by_cases range : -2 ^ 63 ≤ j ∧ j < 2 ^ 63
    · exact ⟨j,range.1,range.2,rfl⟩
    have cut : (if (j : ℚ) < 0 then ⌈(j : ℚ)⌉ else ⌊(j : ℚ)⌋) = j := by split <;> simp
    have least : toLong (.finite j) = Int64.minValue := by simp only [toLong,cut,if_neg range]
    have own : nearest ((-2 ^ 63 : ℤ) : ℚ) = ((-2 ^ 63 : ℤ) : ℚ) := heldNearest ⟨-1,63,by norm_num,by norm_num,by norm_num⟩
    rw [least,Int64.toInt_minValue,own] at is
    have : (-2 ^ 63 : ℤ) = j := by exact_mod_cast is
    omega
  · rintro ⟨i,low,high,rfl⟩
    rw [toLongWhole low high,toDouble,heldNearest held,if_neg]
    have size : |(i : ℚ)| ≤ 2 ^ 63 := by
      have : |i| ≤ 2 ^ 63 := abs_le.mpr ⟨low,by omega⟩
      exact_mod_cast this
    exact not_le.mpr (lt_of_le_of_lt size (pow_lt_pow_right₀ one_lt_two (by decide)))

/-! ### Texts -/

def signFactor (minus : Bool) : ℚ := if minus then -1 else 1

/-- A number from its parts, with a fraction where there are digits for it. -/
theorem numberOf (minus : Bool) {w f : Bytes} (whole : Digits w ∧ (w.length = 1 ∨ w.head? ≠ some 48)) (frac : ∀ c ∈ f, isdigit c = true)
    (exp : Option (UInt8 × Option UInt8 × Bytes))
    (exps : ∀ e s ds, exp = some (e,s,ds) → (e = 101 ∨ e = 69) ∧ (∀ c, s = some c → c = 43 ∨ c = 45) ∧ Digits ds) :
    ∃ k : Number, k.text = (if minus then [45] else []) ++ (w ++ (point f ++ expText exp)) ∧
      numberValue k = signFactor minus * (dv (w ++ f) * 10 ^ (-(f.length : ℤ))) * 10 ^ expPower exp := by
  by_cases some_ : f = []
  · subst some_
    refine ⟨⟨minus,w,none,exp,whole,nofun,exps⟩,rfl,?_⟩
    simp [numberValue,signFactor]
  · refine ⟨⟨minus,w,some f,exp,whole,fun ds is => Option.some.inj is ▸ ⟨some_,frac⟩,exps⟩,?_,?_⟩
    · rw [Number.text,fracText,point,if_neg some_]
    · simp only [numberValue,signFactor,Option.getD_some]
      rw [sub_eq_add_neg,zpow_add₀ (by norm_num : (10 : ℚ) ≠ 0)]
      ring

/-- The zeros at the end of a fraction can go. -/
theorem unpaddedValue {w : Bytes} (whole : ∀ c ∈ w, isdigit c = true) (f : Bytes) (frac : ∀ c ∈ f, isdigit c = true) :
    (∀ c ∈ unpadded f, isdigit c = true) ∧
      (dv (w ++ unpadded f) : ℚ) * 10 ^ (-((unpadded f).length : ℤ)) = dv (w ++ f) * 10 ^ (-(f.length : ℤ)) := by
  induction f using List.reverseRecOn with
  | nil => exact ⟨nofun,rfl⟩
  | append_singleton f c ih =>
    have front : ∀ d ∈ f, isdigit d = true := fun d mem => frac d (List.mem_append_left _ mem)
    by_cases zero : c = 48
    · subst zero
      have cut : unpadded (f ++ [48]) = unpadded f := List.rdropWhile_concat_pos _ _ _ rfl
      have more : dv (w ++ (f ++ [48])) = dv (w ++ f) * 10 := by
        rw [← List.append_assoc,@dvCat _ [48] (DecArith.digitsCat whole front) (DecArith.zerosDigits 1)]
        rfl
      rw [cut,more,List.length_append,List.length_singleton]
      refine ⟨(ih front).1,(ih front).2.trans ?_⟩
      push_cast
      rw [neg_add,zpow_add₀ (by norm_num : (10 : ℚ) ≠ 0)]
      norm_num
      ring
    · have kept : unpadded (f ++ [c]) = f ++ [c] := List.rdropWhile_concat_neg _ _ _ (by simpa using zero)
      rw [kept]
      exact ⟨frac,rfl⟩

/-- What `%lld` prints reads as the number. -/
theorem lldReads (v : Int64) : ∃ k : Number, k.text = lld v ∧ numberValue k = v.toInt := by
  obtain ⟨k,text,value⟩ := numberOf (decide (v.toInt < 0)) (QueryJson.decimalWhole v.toInt.natAbs) (f := []) (by rintro _ ⟨⟩) none (by rintro _ _ _ ⟨⟩)
  refine ⟨k,?_,?_⟩
  · rw [text,lld]
    split <;> simp_all [point,expText]
  · rw [value,List.append_nil,show dv (decimal v.toInt.natAbs) = v.toInt.natAbs from digitsDecimal (Nat.le_refl _)]
    have size : ((v.toInt.natAbs : ℕ) : ℚ) = |(v.toInt : ℚ)| := by
      rw [← Int.cast_abs,← Int.natCast_natAbs]
      rfl
    rw [size]
    by_cases neg : v.toInt < 0
    · have : (v.toInt : ℚ) < 0 := by exact_mod_cast neg
      simp [signFactor,neg,expPower,abs_of_neg this]
    · have : (0 : ℚ) ≤ v.toInt := by exact_mod_cast not_lt.mp neg
      simp [signFactor,neg,expPower,abs_of_nonneg this]

/-- Six digits, the first of them no zero, and the power of ten of the first. -/
theorem sixDigitsIs {q : ℚ} (some_ : q ≠ 0) : 10 ^ 5 ≤ (sixDigits q).1 ∧ (sixDigits q).1 < 10 ^ 6 ∧
    toDigits 10 6 q = signFactor (q < 0) * ((sixDigits q).1 * 10 ^ ((sixDigits q).2 - 5)) := by
  obtain ⟨low,high⟩ := roundedSize (b := 10) (p := 6) (by decide) (by decide) some_
  push_cast at low high
  have ten : (10 : ℚ) ≠ 0 := by norm_num
  -- the sign of what is rounded
  have sign : (roundEven (q / 10 ^ place 10 6 q) : ℚ) = signFactor (q < 0) * (roundEven (q / 10 ^ place 10 6 q)).natAbs := by
    have size : (((roundEven (q / 10 ^ place 10 6 q)).natAbs : ℕ) : ℚ) = |(roundEven (q / 10 ^ place 10 6 q) : ℚ)| := by
      rw [← Int.cast_abs,← Int.natCast_natAbs]
      rfl
    have step : (0 : ℚ) < 10 ^ place 10 6 q := zpow_pos (by norm_num) _
    rw [size]
    by_cases neg : q < 0
    · have down : roundEven (q / 10 ^ place 10 6 q) ≤ 0 := roundEvenHigh (by exact_mod_cast (div_neg_of_neg_of_pos neg step).le)
      have down' : (roundEven (q / 10 ^ place 10 6 q) : ℚ) ≤ 0 := by exact_mod_cast down
      simp [signFactor,neg,abs_of_nonpos down']
    · have up : 0 ≤ roundEven (q / 10 ^ place 10 6 q) := roundEvenLow (by exact_mod_cast div_nonneg (not_lt.mp neg) step.le)
      have up' : (0 : ℚ) ≤ (roundEven (q / 10 ^ place 10 6 q) : ℚ) := by exact_mod_cast up
      simp [signFactor,neg,abs_of_nonneg up']
  have value : toDigits 10 6 q = signFactor (q < 0) * (((roundEven (q / 10 ^ place 10 6 q)).natAbs : ℚ) * 10 ^ place 10 6 q) := by
    rw [toDigits,onGrid]
    push_cast
    rw [sign]
    ring
  rw [value,sixDigits]
  push_cast at value ⊢
  rw [Int.abs_eq_natAbs] at low high
  generalize roundEven (q / 10 ^ place 10 6 q) = r at low high
  generalize place 10 6 q = e
  split
  · rename_i full
    refine ⟨le_refl _,by norm_num,?_⟩
    rw [full,show e + 6 - 5 = e + 1 by ring,zpow_add_one₀ ten]
    push_cast
    ring
  · refine ⟨by omega,by omega,?_⟩
    rw [add_sub_cancel_right]

theorem sixLong {m : Nat} (low : 10 ^ 5 ≤ m) (high : m < 10 ^ 6) : (decimal m).length = 6 := by
  have short := decimalShort (k := 5) m high (Nat.le_refl _)
  have value : dv (decimal m) = m := digitsDecimal (Nat.le_refl _)
  have less := DecArith.dvLess (Json.decimalDigit m)
  rw [value] at less
  by_contra other
  have shorter : (decimal m).length ≤ 5 := by
    change (decimalGo m m).length ≤ 5
    change ¬(decimalGo m m).length = 6 at other
    omega
  have := Nat.pow_le_pow_right (show 0 < 10 by decide) shorter
  omega

theorem expDigitsIs (a : Nat) : Digits (expDigits a) ∧ dv (expDigits a) = a := by
  rw [expDigits]
  split
  · rename_i small
    refine ⟨⟨List.cons_ne_nil _ _,fun c mem => ?_⟩,?_⟩
    · rcases List.mem_cons.mp mem with rfl | mem
      · rfl
      · rw [List.mem_singleton.mp mem]
        exact (DecArith.digitIs small).1
    · exact DecArith.dvOne small
  · exact ⟨(QueryJson.decimalWhole a).1,digitsDecimal (Nat.le_refl _)⟩

/-- What `%g` prints reads as the six digits of the double. -/
theorem fmtGReads {q : ℚ} (some_ : q ≠ 0) : ∃ k : Number, k.text = fmtG (.finite q) ∧ numberValue k = toDigits 10 6 q := by
  obtain ⟨low,high,value⟩ := sixDigitsIs some_
  rw [value]
  simp only [fmtG,if_neg some_]
  generalize (sixDigits q).2 = x
  generalize (sixDigits q).1 = m at low high
  have long := sixLong low high
  have digits := Json.decimalDigit m
  have whole := QueryJson.decimalWhole m
  have read : dv (decimal m) = m := digitsDecimal (Nat.le_refl _)
  generalize decimal m = ds at long digits whole read
  have ten : (10 : ℚ) ≠ 0 := by norm_num
  have lead : ds.head? ≠ some 48 := whole.2.resolve_left (by omega)
  -- any split of the digits has the same value
  have split_ {n : Nat} (le : n ≤ 6) : (∀ c ∈ ds.take n, isdigit c = true) ∧ (∀ c ∈ ds.drop n, isdigit c = true) ∧
      (dv (ds.take n ++ unpadded (ds.drop n)) : ℚ) * 10 ^ (-((unpadded (ds.drop n)).length : ℤ)) = m * 10 ^ ((n : ℤ) - 6) := by
    have front : ∀ c ∈ ds.take n, isdigit c = true := fun c mem => digits c (List.mem_of_mem_take mem)
    have back : ∀ c ∈ ds.drop n, isdigit c = true := fun c mem => digits c (List.mem_of_mem_drop mem)
    refine ⟨front,back,?_⟩
    rw [(unpaddedValue front _ back).2,List.take_append_drop,read,List.length_drop,long]
    congr 2
    omega
  have first {n : Nat} (pos : 0 < n) : Digits (ds.take n) ∧ ((ds.take n).length = 1 ∨ (ds.take n).head? ≠ some 48) := by
    refine ⟨⟨fun empty => ?_,fun c mem => digits c (List.mem_of_mem_take mem)⟩,.inr ?_⟩
    · have := congrArg List.length empty
      rw [List.length_take,long] at this
      change min n 6 = 0 at this
      omega
    · rwa [List.head?_take,if_neg (by omega)]
  by_cases near : -4 ≤ x ∧ x < 6
  · rw [if_pos near]
    by_cases up : 0 ≤ x
    · rw [if_pos up]
      have le : x.toNat + 1 ≤ 6 := by omega
      obtain ⟨front,back,same⟩ := split_ le
      obtain ⟨k,text,is⟩ := numberOf (decide (q < 0)) (first (Nat.succ_pos x.toNat)) (unpaddedValue front _ back).1 none nofun
      refine ⟨k,?_,?_⟩
      · rw [text]
        simp [expText]
      · rw [is,same,expPower,zpow_zero,mul_one]
        congr 3
        push_cast
        omega
    · rw [if_neg up]
      have zeros : ∀ c ∈ List.replicate (-x - 1).toNat 48 ++ ds, isdigit c = true :=
        DecArith.digitsCat (DecArith.zerosDigits _) digits
      have zero : Digits [48] := ⟨List.cons_ne_nil _ _,DecArith.zerosDigits 1⟩
      obtain ⟨good,same⟩ := unpaddedValue zero.2 _ zeros
      obtain ⟨k,text,is⟩ := numberOf (decide (q < 0)) ⟨zero,.inl rfl⟩ good none nofun
      refine ⟨k,?_,?_⟩
      · rw [text]
        simp [expText]
      · have all : dv ([48] ++ (List.replicate (-x - 1).toNat 48 ++ ds)) = m := by
          rw [← List.append_assoc,dvCat (DecArith.digitsCat zero.2 (DecArith.zerosDigits _)) digits,
            show dv ([48] ++ List.replicate (-x - 1).toNat 48) = 0 from DecArith.dvZeros ((-x - 1).toNat + 1),read]
          omega
        rw [is,same,all,expPower,zpow_zero,mul_one,List.length_append,List.length_replicate,long]
        congr 3
        push_cast
        omega
  · rw [if_neg near]
    obtain ⟨front,back,same⟩ := split_ (show 1 ≤ 6 by decide)
    obtain ⟨some_,power⟩ := expDigitsIs x.natAbs
    have exps : ∀ (e : UInt8) (s : Option UInt8) (ds : Bytes), some (101,some (if x < 0 then 45 else 43),expDigits x.natAbs) = some (e,s,ds) →
        (e = 101 ∨ e = 69) ∧ (∀ c, s = some c → c = 43 ∨ c = 45) ∧ Digits ds := by
      rintro _ _ _ ⟨⟩
      refine ⟨.inl rfl,fun c is => ?_,some_⟩
      cases is
      split
      · exact .inr rfl
      · exact .inl rfl
    obtain ⟨k,text,is⟩ := numberOf (decide (q < 0)) (first Nat.one_pos) (unpaddedValue front _ back).1 _ exps
    refine ⟨k,?_,?_⟩
    · rw [text]
      simp [expText]
    · have sign : expPower (some (101,some (if x < 0 then 45 else 43),expDigits x.natAbs)) = x := by
        rw [expPower,power]
        by_cases down : x < 0
        · rw [if_pos down,if_pos rfl]
          omega
        · rw [if_neg down,if_neg (by decide)]
          omega
      rw [is,same,sign,mul_assoc,mul_assoc,← zpow_add₀ ten]
      congr 3
      push_cast
      ring

/-! ### When a number stays what it is -/

/-- A whole number of 64 bits in 53 binary digits, or another one in six decimal digits: in the range where doubles have all
of their digits, or still the six digits of its double. -/
def Kept (v : ℚ) : Prop :=
  (Whole v ∧ Held v) ∨ (¬Whole (nearest v) ∧ |nearest v| < 2 ^ 1024 ∧ Digits 10 6 v ∧
    (2 ^ (-1022 : ℤ) ≤ |v| ∨ toDigits 10 6 (nearest v) = v))

theorem infNumber (minus : Bool) (k : Number) : k.text ≠ fmtG (.inf minus) := by
  intro same
  have letter : (105 : UInt8) ∈ k.text := by
    rw [same,fmtG]
    cases minus <;> decide
  have := numberBytes k 105 letter
  cases this

theorem keptIff (n : Number) : (∃ k : Number, k.text = numberText (strtod n) ∧ numberValue k = numberValue n) ↔
    Kept (numberValue n) := by
  rw [strtod]
  generalize numberValue n = v
  have read {t : Bytes} {v w : ℚ} (reads : ∃ k : Number, k.text = t ∧ numberValue k = w) :
      (∃ k : Number, k.text = t ∧ numberValue k = v) ↔ w = v := by
    obtain ⟨k,text,value⟩ := reads
    constructor
    · rintro ⟨l,text',rfl⟩
      rw [← value]
      exact numberValueText (text.trans text'.symm)
    · rintro rfl
      exact ⟨k,text,value⟩
  have held := nearestHeld v
  by_cases range : 2 ^ 1024 ≤ |nearest v|
  · have never : ¬Kept v := by
      rintro (⟨⟨i,low,high,rfl⟩,held⟩ | ⟨_,less,_⟩)
      · rw [heldNearest held] at range
        have size : |(i : ℚ)| ≤ 2 ^ 63 := by
          have : |i| ≤ 2 ^ 63 := abs_le.mpr ⟨low,by omega⟩
          exact_mod_cast this
        exact absurd range (not_le.mpr (lt_of_le_of_lt size (pow_lt_pow_right₀ one_lt_two (by decide))))
      · exact absurd range (not_le.mpr less)
    refine iff_of_false ?_ never
    rintro ⟨k,text,_⟩
    have other : Double.inf (decide (v < 0)) ≠ toDouble (toLong (.inf (decide (v < 0)))).toInt := by
      rw [toDouble,if_neg (not_le.mpr (longSmall _))]
      nofun
    rw [toDouble,if_pos range,numberText,if_neg other] at text
    exact infNumber _ k text
  rw [toDouble,if_neg range,numberText]
  by_cases whole : Whole (nearest v)
  · rw [if_pos ((wholeIff held).mpr whole),read (lldReads _)]
    obtain ⟨i,low,high,is⟩ := id whole
    rw [is,toLongWhole low high,← is,nearestIff]
    refine ⟨fun held => .inl ⟨heldNearest held ▸ whole,held⟩,?_⟩
    rintro (⟨_,held⟩ | ⟨no,_⟩)
    · exact held
    · exact absurd whole no
  · have some_ : nearest v ≠ 0 := fun zero => whole ⟨0,by decide,by decide,by rw [zero,Int.cast_zero]⟩
    rw [if_neg fun same => whole ((wholeIff held).mp same),read (fmtGReads some_)]
    constructor
    · intro is
      have digits : Digits 10 6 v := is ▸ toDigitsDigits (by decide) (by decide) _
      exact .inr ⟨whole,not_le.mp range,digits,.inr is⟩
    · rintro (⟨whole',held⟩ | ⟨_,_,digits,normal | is⟩)
      · exact absurd ((heldNearest held).symm ▸ whole') whole
      · exact (sixIff normal).mpr digits
      · exact is

end Napastak.Binary64
