import Napastak.Val
import Napastak.DecArithExact

/-! The order that `vcmp` puts cells in, and where it is none. -/
namespace Napastak.ValOrder
open Query DecArith

/-! ### Integers -/

/-- The number that an integer string denotes. -/
def intValue : Bytes → Int
  | 43 :: t => dv t
  | 45 :: t => -(dv t : Int)
  | s => dv s

/-- Digits without a zero in front of others. -/
structure Normal (ds : Bytes) : Prop where
  digits : Digits ds
  some_ : ds ≠ []
  lead : 1 < ds.length → ds.head? ≠ some 48

theorem stripSpec {ds : Bytes} (digits : Digits ds) (some_ : ds ≠ []) : Normal (stripZeros ds) ∧ dv (stripZeros ds) = dv ds := by
  induction ds with
  | nil => exact absurd rfl some_
  | cons c ds ih =>
    have tail : Digits ds := fun d mem => digits d (List.mem_cons_of_mem _ mem)
    rw [stripZeros.eq_def]
    split
    · rename_i is
      cases is
      obtain ⟨normal,value⟩ := ih tail (List.cons_ne_nil _ _)
      refine ⟨normal,value.trans ?_⟩
      rw [dv,dv,digitsValue.eq_def (0 : Nat) (48 :: _)]
      rfl
    · rename_i only
      refine ⟨⟨digits,List.cons_ne_nil _ _,fun more head => ?_⟩,rfl⟩
      cases head
      cases ds with
      | nil => exact absurd more (by decide)
      | cons d ds => exact only d ds rfl

theorem normalZero {ds : Bytes} (normal : Normal ds) : dv ds = 0 ↔ ds = [48] := by
  constructor
  · intro zero
    have all := dvNone normal.digits zero
    obtain ⟨c,rest,is⟩ := List.exists_cons_of_ne_nil normal.some_
    have first : c = 48 := all c (is ▸ List.mem_cons_self)
    cases rest with
    | nil => rw [is,first]
    | cons d rest => exact absurd (by rw [is,first]; rfl) (normal.lead (by rw [is]; simp))
  · rintro rfl
    rfl

theorem dvCons {c : UInt8} {ds : Bytes} (digits : Digits (c :: ds)) : dv (c :: ds) = (c.toNat - 48) * 10 ^ ds.length + dv ds := by
  have one : Digits [c] := fun d mem => List.mem_singleton.mp mem ▸ digits c List.mem_cons_self
  have tail : Digits ds := fun d mem => digits d (List.mem_cons_of_mem _ mem)
  have value : dv [c] = c.toNat - 48 := by simp [dv,digitsValue,digits c List.mem_cons_self]
  rw [← value,← dvCat one tail]
  rfl

theorem leadSize {ds : Bytes} (normal : Normal ds) (some_ : dv ds ≠ 0) : 10 ^ ds.length ≤ dv ds * 10 := by
  obtain ⟨c,rest,is⟩ := List.exists_cons_of_ne_nil normal.some_
  have digits := normal.digits
  rw [is] at digits
  have own := digits c List.mem_cons_self
  have low : 48 ≤ c.toNat := UInt8.le_iff_toNat_le.mp (of_decide_eq_true own).1
  have ne : c.toNat ≠ 48 := fun same => by
    have c48 : c = 48 := UInt8.toNat_inj.mp same
    cases rest with
    | nil => exact some_ ((normalZero normal).mpr (by rw [is,c48]))
    | cons d rest => exact normal.lead (by rw [is]; simp) (by rw [is,c48]; rfl)
  have power : 0 < 10 ^ rest.length := Nat.pow_pos (by decide)
  rw [is,dvCons digits,List.length_cons,Nat.pow_succ]
  refine Nat.mul_le_mul_right _ (Nat.le_trans ?_ (Nat.le_add_right _ _))
  exact Nat.le_mul_of_pos_left _ (by omega)

theorem sameLength {ds es : Bytes} (left : Digits ds) (right : Digits es) (length : ds.length = es.length) :
    (strcmp ds es < 0 ↔ dv ds < dv es) ∧ (strcmp ds es = 0 ↔ dv ds = dv es) := by
  induction ds generalizing es with
  | nil =>
    cases es with
    | nil => simp [strcmp]
    | cons e es => cases length
  | cons d ds ih =>
    cases es with
    | nil => cases length
    | cons e es =>
      have tail : Digits ds := fun x mem => left x (List.mem_cons_of_mem _ mem)
      have tail' : Digits es := fun x mem => right x (List.mem_cons_of_mem _ mem)
      have length' : ds.length = es.length := Nat.succ.inj length
      obtain ⟨less,same⟩ := ih tail tail' length'
      have low : 48 ≤ d.toNat := UInt8.le_iff_toNat_le.mp (of_decide_eq_true (left d List.mem_cons_self)).1
      have low' : 48 ≤ e.toNat := UInt8.le_iff_toNat_le.mp (of_decide_eq_true (right e List.mem_cons_self)).1
      have bound := dvLess tail
      have bound' := dvLess tail'
      rw [dvCons left,dvCons right,strcmp,← length']
      rw [← length'] at bound'
      -- the first digits that differ decide, whatever follows
      have step : ∀ {j k : Nat}, j < k → j * 10 ^ ds.length + 10 ^ ds.length ≤ k * 10 ^ ds.length := fun {j k} lt => by
        rw [← Nat.succ_mul]
        exact Nat.mul_le_mul_right _ lt
      rcases Nat.lt_trichotomy d.toNat e.toNat with lt | eq | gt
      · have := step (show d.toNat - 48 < e.toNat - 48 by omega)
        rw [if_pos (UInt8.lt_iff_toNat_lt.mpr lt)]
        exact ⟨⟨fun _ => by omega,fun _ => by decide⟩,⟨fun h => absurd h (by decide),fun h => by omega⟩⟩
      · have byte : d = e := UInt8.toNat_inj.mp eq
        rw [byte,if_neg (UInt8.lt_irrefl e),if_neg (UInt8.lt_irrefl e)]
        exact ⟨⟨fun h => by have := less.mp h; omega,fun h => less.mpr (by omega)⟩,
          ⟨fun h => by have := same.mp h; omega,fun h => same.mpr (by omega)⟩⟩
      · have := step (show e.toNat - 48 < d.toNat - 48 by omega)
        rw [if_neg fun lt => Nat.lt_asymm gt (UInt8.lt_iff_toNat_lt.mp lt),if_pos (UInt8.lt_iff_toNat_lt.mpr gt)]
        exact ⟨⟨fun h => absurd h (by decide),fun h => by omega⟩,⟨fun h => absurd h (by decide),fun h => by omega⟩⟩

/-- The comparison of two numbers written without zeros in front. -/
def magnitude (a b : Bytes) : Int := if a.length ≠ b.length then if a.length < b.length then -1 else 1 else strcmp a b

theorem magnitudeIs {a b : Bytes} (left : Normal a) (right : Normal b) (some_ : dv a ≠ 0) (some' : dv b ≠ 0) :
    (magnitude a b < 0 ↔ dv a < dv b) ∧ (magnitude a b = 0 ↔ dv a = dv b) := by
  have shorter : ∀ {x y : Bytes}, Normal x → Normal y → dv y ≠ 0 → x.length < y.length → dv x < dv y := fun {x y} lx ly ny lt => by
    have small := dvLess lx.digits
    have large := leadSize ly ny
    have power : 10 ^ (x.length + 1) ≤ 10 ^ y.length := Nat.pow_le_pow_right (by decide) lt
    rw [Nat.pow_succ] at power
    omega
  rw [magnitude]
  split
  · rename_i ne
    split
    · rename_i lt
      have := shorter left right some' lt
      exact ⟨⟨fun _ => this,fun _ => by decide⟩,⟨fun h => absurd h (by decide),fun h => by omega⟩⟩
    · have := shorter right left some_ (by omega)
      exact ⟨⟨fun h => absurd h (by decide),fun h => by omega⟩,⟨fun h => absurd h (by decide),fun h => by omega⟩⟩
  · rename_i same
    exact sameLength left.digits right.digits (Decidable.not_not.mp same)

theorem intPartsIs {s : Bytes} (int : isIntStr s = true) :
    Normal (intParts s).2 ∧ ((intParts s).1 = 1 ∧ intValue s = dv (intParts s).2 ∨ (intParts s).1 = -1 ∧ intValue s = -(dv (intParts s).2 : Int)) := by
  have strip : ∀ {p : Bytes}, (!p.isEmpty && p.all isdigit) = true → Normal (stripZeros p) ∧ dv (stripZeros p) = dv p := fun {p} all => by
    simp only [Bool.and_eq_true,Bool.not_eq_true',List.isEmpty_eq_false_iff] at all
    exact stripSpec (List.all_eq_true.mp all.2) all.1
  rw [intParts.eq_def]
  split
  · rename_i t
    obtain ⟨normal,value⟩ := @strip t int
    exact ⟨normal,.inl ⟨rfl,congrArg Nat.cast value.symm⟩⟩
  · rename_i t
    obtain ⟨normal,value⟩ := @strip t int
    exact ⟨normal,.inr ⟨rfl,congrArg (fun n : Nat => -(n : Int)) value.symm⟩⟩
  · rename_i notPlus notMinus
    have all : (!s.isEmpty && s.all isdigit) = true := by
      cases s with
      | nil => exact int
      | cons c t =>
        have plain : ¬(c = 43 ∨ c = 45) := fun sign => sign.elim (fun e => notPlus t (by rw [e])) fun e => notMinus t (by rw [e])
        simpa [isIntStr,plain] using int
    have whole : intValue s = dv s := by
      rw [intValue.eq_def]
      split
      · exact absurd rfl (notPlus _)
      · exact absurd rfl (notMinus _)
      · rfl
    obtain ⟨normal,value⟩ := strip all
    exact ⟨normal,.inl ⟨rfl,by rw [whole,value]⟩⟩

theorem intStrCmpIs {s t : Bytes} (left : isIntStr s = true) (right : isIntStr t = true) :
    (intStrCmp s t < 0 ↔ intValue s < intValue t) ∧ (intStrCmp s t = 0 ↔ intValue s = intValue t) := by
  obtain ⟨normalS,signS⟩ := intPartsIs left
  obtain ⟨normalT,signT⟩ := intPartsIs right
  have zeroS := normalZero normalS
  have zeroT := normalZero normalT
  have sizes := magnitudeIs normalS normalT
  have is : intStrCmp s t = if dv (intParts s).2 = 0 ∧ dv (intParts t).2 = 0 then 0
      else if dv (intParts s).2 = 0 then if (intParts t).1 > 0 then -1 else 1
      else if dv (intParts t).2 = 0 then if (intParts s).1 > 0 then 1 else -1
      else if (intParts s).1 ≠ (intParts t).1 then if (intParts s).1 < (intParts t).1 then -1 else 1
      else if (intParts s).1 > 0 then magnitude (intParts s).2 (intParts t).2 else -magnitude (intParts s).2 (intParts t).2 := by
    simp only [zeroS,zeroT]
    simp [intStrCmp,magnitude]
  rw [is]
  generalize dv (intParts s).2 = m at *
  generalize dv (intParts t).2 = n at *
  generalize magnitude (intParts s).2 (intParts t).2 = k at *
  rcases signS with ⟨one,value⟩ | ⟨one,value⟩ <;> rcases signT with ⟨one',value'⟩ | ⟨one',value'⟩ <;> rw [one,one',value,value']
  all_goals
    by_cases m0 : m = 0
    · by_cases n0 : n = 0 <;> simp [m0,n0] <;> omega
    · by_cases n0 : n = 0
      · simp [m0,n0] <;> omega
      · have := sizes m0 n0
        simp [m0,n0] <;> omega

/-- The sign of the comparison is that of the two numbers. -/
theorem intStrCmpSign {s t : Bytes} (left : isIntStr s = true) (right : isIntStr t = true) :
    (intStrCmp s t).sign = (intValue s - intValue t).sign := by
  obtain ⟨less,same⟩ := intStrCmpIs left right
  rcases Int.lt_trichotomy (intStrCmp s t) 0 with below | zero | above_
  · have := less.mp below
    rw [Int.sign_eq_neg_one_of_neg below,Int.sign_eq_neg_one_of_neg (by omega)]
  · have := same.mp zero
    rw [zero,this,Int.sub_self]
  · have := fun lt => Int.lt_asymm above_ (less.mpr lt)
    have := fun eq => Int.ne_of_gt above_ (same.mpr eq)
    rw [Int.sign_eq_one_of_pos above_,Int.sign_eq_one_of_pos (by omega)]

/-- `-007` and a number of thirty digits with a zero in front. -/
theorem intStrCmpSignLong : (intStrCmp (ascii "-007") (ascii "+0123456789012345678901234567890")).sign =
    (intValue (ascii "-007") - intValue (ascii "+0123456789012345678901234567890")).sign :=
  intStrCmpSign (by decide) (by decide)

/-! ### Cells -/

/-- What `double` and `strtod` give: comparisons that fail on a number without order, and integers read in their order. -/
structure Ieee (F : Type) [Doubles F] : Prop where
  asymm : ∀ {x y : F}, Doubles.lt x y = true → Doubles.lt y x = false
  weak : ∀ {x y z : F}, Doubles.eq x x = true → Doubles.eq y y = true → Doubles.eq z z = true → Doubles.lt x y = false →
    Doubles.lt y z = false → Doubles.lt x z = false
  eqIs : ∀ {x y : F}, Doubles.eq x y = true ↔
    Doubles.eq x x = true ∧ Doubles.eq y y = true ∧ Doubles.lt x y = false ∧ Doubles.lt y x = false
  nan : ∀ {x y : F}, Doubles.eq x x = false → Doubles.lt x y = false ∧ Doubles.lt y x = false
  intRead : ∀ {s : Bytes}, isIntStr s = true → ∃ x : F, pnum (some s) = some x ∧ Doubles.eq x x = true
  intMono : ∀ {s t : Bytes} {x y : F}, isIntStr s = true → isIntStr t = true → pnum (some s) = some x → pnum (some t) = some y →
    intValue s ≤ intValue t → Doubles.lt y x = false

section
variable {F : Type} [Doubles F]

/-- A total preorder on these cells, whose equality is `veq`. -/
structure Coherent (F : Type) [Doubles F] (cells : List Bytes) : Prop where
  flips : ∀ s ∈ cells, ∀ t ∈ cells, (vcmp (vstrS s : Val F) (vstrS t)).sign = -(vcmp (vstrS t : Val F) (vstrS s)).sign
  total : ∀ s ∈ cells, ∀ t ∈ cells, vcmp (vstrS s : Val F) (vstrS t) ≤ 0 ∨ vcmp (vstrS t : Val F) (vstrS s) ≤ 0
  trans : ∀ s ∈ cells, ∀ t ∈ cells, ∀ u ∈ cells, vcmp (vstrS s : Val F) (vstrS t) ≤ 0 → vcmp (vstrS t : Val F) (vstrS u) ≤ 0 →
    vcmp (vstrS s : Val F) (vstrS u) ≤ 0
  equal : ∀ s ∈ cells, ∀ t ∈ cells, veq (vstrS s : Val F) (vstrS t) = true ↔ vcmp (vstrS s : Val F) (vstrS t) = 0

/-- The smaller number: integers by their value, others by their doubles. -/
def NumLess (F : Type) [Doubles F] (s t : Bytes) : Prop :=
  if isIntStr s && isIntStr t then intValue s < intValue t
  else ∃ x y : F, pnum (some s) = some x ∧ pnum (some t) = some y ∧ Doubles.lt x y = true

structure Clean (F : Type) [Doubles F] (cells : List Bytes) : Prop where
  /-- A number without order stands beside no other number. -/
  ordered : ∀ s ∈ cells, ∀ t ∈ cells, ∀ x y : F, pnum (some s) = some x → pnum (some t) = some y → Doubles.eq x x = false → s = t
  /-- Numbers with a text between them, byte by byte, have that order. -/
  between : ∀ s ∈ cells, ∀ t ∈ cells, ∀ u ∈ cells, (pnum (some s) : Option F).isSome = true → (pnum (some t) : Option F) = none →
    (pnum (some u) : Option F).isSome = true → strcmp s t < 0 → strcmp t u < 0 → NumLess F s u
  /-- Two integers with one double stand beside no other number of that double. -/
  apart : ∀ s ∈ cells, ∀ t ∈ cells, ∀ u ∈ cells, ∀ x y z : F, isIntStr s = true → isIntStr t = true → isIntStr u = false →
    intValue s < intValue t → pnum (some s) = some x → pnum (some t) = some y → pnum (some u) = some z →
    ¬(Doubles.eq x z = true ∧ Doubles.eq z y = true)

theorem vcmpCells (s t : Bytes) : vcmp (vstrS s : Val F) (vstrS t) =
    if isIntStr s && isIntStr t then intStrCmp s t
    else match (pnum (some s) : Option F), (pnum (some t) : Option F) with
      | some x, some y => numCmp x y
      | _, _ => strcmp s t := rfl

theorem vcmpInts {s t : Bytes} (left : isIntStr s = true) (right : isIntStr t = true) :
    vcmp (vstrS s : Val F) (vstrS t) = intStrCmp s t := by
  rw [vcmpCells,left,right]
  rfl

theorem vcmpNums {s t : Bytes} {x y : F} (notInts : (isIntStr s && isIntStr t) = false) (left : pnum (some s) = some x)
    (right : pnum (some t) = some y) : vcmp (vstrS s : Val F) (vstrS t) = numCmp x y := by
  rw [vcmpCells,notInts,left,right]
  rfl

theorem vcmpText (ieee : Ieee F) {s t : Bytes} (text : (pnum (some s) : Option F) = none ∨ (pnum (some t) : Option F) = none) :
    vcmp (vstrS s : Val F) (vstrS t) = strcmp s t := by
  have notInt : ∀ {r : Bytes}, (pnum (some r) : Option F) = none → isIntStr r = false := fun {r} none_ => by
    cases int : isIntStr r with
    | false => rfl
    | true =>
      obtain ⟨x,read,_⟩ := ieee.intRead int
      rw [none_] at read
      cases read
  rw [vcmpCells]
  rcases text with none_ | none_
  · rw [notInt none_,none_]
    rfl
  · rw [notInt none_,none_,Bool.and_false,if_neg Bool.false_ne_true]
    split
    · rename_i is
      cases is
    · rfl

theorem numCmpLe (ieee : Ieee F) (x y : F) : numCmp x y ≤ 0 ↔ Doubles.lt y x = false := by
  rw [numCmp]
  cases less : Doubles.lt x y with
  | true => simp [ieee.asymm less]
  | false => cases more : Doubles.lt y x <;> simp

theorem numCmpZero (x y : F) : numCmp x y = 0 ↔ Doubles.lt x y = false ∧ Doubles.lt y x = false := by
  rw [numCmp]
  cases less : Doubles.lt x y with
  | true => simp
  | false => cases more : Doubles.lt y x <;> simp

theorem numCmpFlip (ieee : Ieee F) (x y : F) : numCmp y x = -numCmp x y := by
  rw [numCmp,numCmp]
  cases less : Doubles.lt x y with
  | true => simp [ieee.asymm less]
  | false => cases more : Doubles.lt y x <;> simp

theorem intStrCmpFlip {s t : Bytes} (left : isIntStr s = true) (right : isIntStr t = true) :
    (intStrCmp s t).sign = -(intStrCmp t s).sign := by
  obtain ⟨less,same⟩ := intStrCmpIs left right
  obtain ⟨less',same'⟩ := intStrCmpIs right left
  rcases Int.lt_trichotomy (intValue s) (intValue t) with lt | eq | gt
  · have first := less.mpr lt
    have second : 0 < intStrCmp t s := by
      have := mt less'.mp (by omega)
      have := mt same'.mp (by omega)
      omega
    rw [Int.sign_eq_neg_one_of_neg first,Int.sign_eq_one_of_pos second]
  · rw [same.mpr eq,same'.mpr eq.symm]
    rfl
  · have first := less'.mpr gt
    have second : 0 < intStrCmp s t := by
      have := mt less.mp (by omega)
      have := mt same.mp (by omega)
      omega
    rw [Int.sign_eq_neg_one_of_neg first,Int.sign_eq_one_of_pos second]
    rfl

theorem vcmpFlip (ieee : Ieee F) (s t : Bytes) : (vcmp (vstrS s : Val F) (vstrS t)).sign = -(vcmp (vstrS t : Val F) (vstrS s)).sign := by
  cases left : (pnum (some s) : Option F) with
  | none => rw [vcmpText ieee (.inl left),vcmpText ieee (.inr left),strcmpFlip t s,Int.sign_neg]
  | some x =>
    cases right : (pnum (some t) : Option F) with
    | none => rw [vcmpText ieee (.inr right),vcmpText ieee (.inl right),strcmpFlip t s,Int.sign_neg]
    | some y =>
      cases ints : isIntStr s && isIntStr t with
      | true =>
        obtain ⟨sInt,tInt⟩ := Bool.and_eq_true_iff.mp ints
        rw [vcmpInts sInt tInt,vcmpInts tInt sInt,intStrCmpFlip sInt tInt]
      | false => rw [vcmpNums ints left right,vcmpNums (by rw [Bool.and_comm]; exact ints) right left,numCmpFlip ieee y x,Int.sign_neg]

theorem vcmpOver {s t : Bytes} (ieee : Ieee F) : 0 < vcmp (vstrS s : Val F) (vstrS t) ↔ vcmp (vstrS t : Val F) (vstrS s) < 0 := by
  have flip := vcmpFlip ieee s t
  rw [← Int.sign_eq_one_iff_pos,← Int.sign_eq_neg_one_iff_neg]
  omega

/-- Of two numbers, `vcmp` puts the smaller first. -/
theorem vcmpNumLess (ieee : Ieee F) {s t : Bytes} {x y : F} (left : pnum (some s) = some x) (right : pnum (some t) = some y) :
    vcmp (vstrS s : Val F) (vstrS t) < 0 ↔ NumLess F s t := by
  rw [NumLess]
  cases ints : isIntStr s && isIntStr t with
  | true =>
    obtain ⟨sInt,tInt⟩ := Bool.and_eq_true_iff.mp ints
    rw [if_pos rfl,vcmpInts sInt tInt]
    exact (intStrCmpIs sInt tInt).1
  | false =>
    rw [if_neg Bool.false_ne_true,vcmpNums ints left right]
    have le := numCmpLe ieee y x
    rw [numCmpFlip ieee x y] at le
    constructor
    · intro less
      refine ⟨x,y,left,right,?_⟩
      cases lt : Doubles.lt x y with
      | true => rfl
      | false => have := le.mpr lt; omega
    · rintro ⟨x',y',left',right',lt⟩
      rw [left] at left'
      rw [right] at right'
      cases left'
      cases right'
      have := mt le.mp (by rw [lt]; exact Bool.false_ne_true.symm)
      omega

theorem vcmpSelf (ieee : Ieee F) (s : Bytes) : vcmp (vstrS s : Val F) (vstrS s) = 0 := by
  have flip := vcmpFlip ieee s s
  exact Int.sign_eq_zero_iff_zero.mp (by omega)

/-- Equality and the comparison part only at a number without order. -/
theorem veqVcmp (ieee : Ieee F) {s t : Bytes} (ordered : ∀ x y : F, pnum (some s) = some x → pnum (some t) = some y →
    Doubles.eq x x = false ∨ Doubles.eq y y = false → s = t) :
    veq (vstrS s : Val F) (vstrS t) = true ↔ vcmp (vstrS s : Val F) (vstrS t) = 0 := by
  by_cases same : s = t
  · subst same
    exact iff_of_true (by simp [veq,vstrS,strcmpSelf]) (vcmpSelf ieee s)
  · have differ : strcmp s t ≠ 0 := fun zero => same (strcmpZero zero)
    have is : veq (vstrS s : Val F) (vstrS t) = if isIntStr s && isIntStr t then decide (intStrCmp s t = 0)
        else match (pnum (some s) : Option F), (pnum (some t) : Option F) with
          | some x, some y => Doubles.eq x y
          | _, _ => false := by
      simp [veq,vstrS,differ]
      all_goals rfl
    rw [is,vcmpCells]
    cases ints : isIntStr s && isIntStr t with
    | true => simp
    | false =>
      simp only [Bool.false_eq_true,if_false]
      split
      · rename_i x y left right
        rw [ieee.eqIs,numCmpZero]
        have own : Doubles.eq x x = true ∧ Doubles.eq y y = true := by
          cases first : Doubles.eq x x with
          | false => exact absurd (ordered x y left right (.inl first)) same
          | true =>
            cases second : Doubles.eq y y with
            | false => exact absurd (ordered x y left right (.inr second)) same
            | true => exact ⟨rfl,rfl⟩
        exact ⟨fun all => all.2.2,fun order => ⟨own.1,own.2,order⟩⟩
      · exact iff_of_false Bool.false_ne_true differ

theorem intStrCmpLe {s t : Bytes} (left : isIntStr s = true) (right : isIntStr t = true) :
    intStrCmp s t ≤ 0 ↔ intValue s ≤ intValue t := by
  obtain ⟨less,same⟩ := intStrCmpIs left right
  rw [Int.le_iff_lt_or_eq,Int.le_iff_lt_or_eq,less,same]

theorem vcmpDoubles (ieee : Ieee F) {p q : Bytes} {v w : F} (pv : pnum (some p) = some v) (qw : pnum (some q) = some w)
    (le : vcmp (vstrS p : Val F) (vstrS q) ≤ 0) : Doubles.lt w v = false := by
  cases ints : isIntStr p && isIntStr q with
  | true =>
    obtain ⟨pInt,qInt⟩ := Bool.and_eq_true_iff.mp ints
    rw [vcmpInts pInt qInt] at le
    exact ieee.intMono pInt qInt pv qw ((intStrCmpLe pInt qInt).mp le)
  | false =>
    rw [vcmpNums ints pv qw] at le
    exact (numCmpLe ieee v w).mp le

/-- Numbers by themselves: the doubles decide, unless two integers share one. -/
theorem numsTrans (ieee : Ieee F) {cells : List Bytes} (clean : Clean F cells) {s t u : Bytes} (sIn : s ∈ cells) (tIn : t ∈ cells)
    (uIn : u ∈ cells) {x y z : F} (left : pnum (some s) = some x) (mid : pnum (some t) = some y) (right : pnum (some u) = some z)
    (first : vcmp (vstrS s : Val F) (vstrS t) ≤ 0) (second : vcmp (vstrS t : Val F) (vstrS u) ≤ 0) :
    vcmp (vstrS s : Val F) (vstrS u) ≤ 0 := by
  -- a number without order is beside itself only
  by_cases xOwn : Doubles.eq x x = true
  swap
  · rw [clean.ordered s sIn t tIn x y left mid (Bool.not_eq_true _ ▸ xOwn)]
    exact second
  by_cases yOwn : Doubles.eq y y = true
  swap
  · rw [← clean.ordered t tIn u uIn y z mid right (Bool.not_eq_true _ ▸ yOwn)]
    exact first
  by_cases zOwn : Doubles.eq z z = true
  swap
  · rw [clean.ordered u uIn t tIn z y right mid (Bool.not_eq_true _ ▸ zOwn)]
    exact first
  have yx := vcmpDoubles ieee left mid first
  have zy := vcmpDoubles ieee mid right second
  have zx := ieee.weak zOwn yOwn xOwn zy yx
  cases ints : isIntStr s && isIntStr u with
  | false =>
    rw [vcmpNums ints left right]
    exact (numCmpLe ieee x z).mpr zx
  | true =>
    obtain ⟨sInt,uInt⟩ := Bool.and_eq_true_iff.mp ints
    rw [vcmpInts sInt uInt,intStrCmpLe sInt uInt]
    by_contra wrong
    cases tInt : isIntStr t with
    | true =>
      rw [vcmpInts sInt tInt,intStrCmpLe sInt tInt] at first
      rw [vcmpInts tInt uInt,intStrCmpLe tInt uInt] at second
      exact wrong (Int.le_trans first second)
    | false =>
      have below := Int.not_le.mp wrong
      have xz := ieee.intMono uInt sInt right left (Int.le_of_lt below)
      -- all three doubles are the same one
      have yz := ieee.weak yOwn xOwn zOwn yx xz
      have xy := ieee.weak xOwn zOwn yOwn xz zy
      exact clean.apart u uIn s sIn t tIn z x y uInt sInt tInt below right left mid
        ⟨ieee.eqIs.mpr ⟨zOwn,yOwn,zy,yz⟩,ieee.eqIs.mpr ⟨yOwn,xOwn,yx,xy⟩⟩

theorem strcmpLeTrans {s t u : Bytes} (first : strcmp s t ≤ 0) (second : strcmp t u ≤ 0) : strcmp s u ≤ 0 := by
  rcases Int.lt_or_eq_of_le first with lt | eq
  · rcases Int.lt_or_eq_of_le second with lt' | eq'
    · exact Int.le_of_lt (strcmpTrans lt lt')
    · rw [← strcmpZero eq']
      exact first
  · rw [strcmpZero eq]
    exact second

theorem strcmpStrict {s t : Bytes} (ne : s ≠ t) (le : strcmp s t ≤ 0) : strcmp s t < 0 :=
  (Int.lt_or_eq_of_le le).resolve_right fun zero => ne (strcmpZero zero)

theorem strcmpOver {s t : Bytes} (above_ : ¬strcmp s t ≤ 0) : strcmp t s < 0 := by
  rw [strcmpFlip]
  omega

theorem cleanTrans (ieee : Ieee F) {cells : List Bytes} (clean : Clean F cells) {s t u : Bytes} (sIn : s ∈ cells) (tIn : t ∈ cells)
    (uIn : u ∈ cells) (first : vcmp (vstrS s : Val F) (vstrS t) ≤ 0) (second : vcmp (vstrS t : Val F) (vstrS u) ≤ 0) :
    vcmp (vstrS s : Val F) (vstrS u) ≤ 0 := by
  have apart : ∀ {p q : Bytes}, (pnum (some p) : Option F) = none → (pnum (some q) : Option F).isSome = true → p ≠ q := fun none_ some_ same => by
    rw [same] at none_
    rw [none_] at some_
    cases some_
  cases left : (pnum (some s) : Option F) with
  | none =>
    rw [vcmpText ieee (.inl left)] at first ⊢
    cases mid : (pnum (some t) : Option F) with
    | none =>
      rw [vcmpText ieee (.inl mid)] at second
      exact strcmpLeTrans first second
    | some y =>
      cases right : (pnum (some u) : Option F) with
      | none =>
        rw [vcmpText ieee (.inr right)] at second
        exact strcmpLeTrans first second
      | some z =>
        -- a text in front of the smaller number and behind the larger would lie between them
        by_contra above_
        have less := clean.between u uIn s sIn t tIn (by rw [right]; rfl) left (by rw [mid]; rfl) (strcmpOver above_)
          (strcmpStrict (apart left (by rw [mid]; rfl)) first)
        have lt := (vcmpNumLess ieee right mid).mpr less
        have := (vcmpOver ieee).mpr lt
        omega
  | some x =>
    cases mid : (pnum (some t) : Option F) with
    | none =>
      rw [vcmpText ieee (.inr mid)] at first
      rw [vcmpText ieee (.inl mid)] at second
      cases right : (pnum (some u) : Option F) with
      | none =>
        rw [vcmpText ieee (.inr right)]
        exact strcmpLeTrans first second
      | some z =>
        have less := clean.between s sIn t tIn u uIn (by rw [left]; rfl) mid (by rw [right]; rfl)
          (strcmpStrict (apart mid (by rw [left]; rfl)).symm first) (strcmpStrict (apart mid (by rw [right]; rfl)) second)
        exact Int.le_of_lt ((vcmpNumLess ieee left right).mpr less)
    | some y =>
      cases right : (pnum (some u) : Option F) with
      | none =>
        rw [vcmpText ieee (.inr right)] at second ⊢
        by_contra above_
        have less := clean.between t tIn u uIn s sIn (by rw [mid]; rfl) right (by rw [left]; rfl)
          (strcmpStrict (apart right (by rw [mid]; rfl)).symm second) (strcmpOver above_)
        have lt := (vcmpNumLess ieee mid left).mpr less
        have := (vcmpOver ieee).mpr lt
        omega
      | some z => exact numsTrans ieee clean sIn tIn uIn left mid right first second

theorem coherentClean (ieee : Ieee F) {cells : List Bytes} (coherent : Coherent F cells) : Clean F cells where
  ordered s sIn t tIn x y left right own := by
    by_contra differ
    have notInts : (isIntStr s && isIntStr t) = false := by
      cases sInt : isIntStr s with
      | false => rfl
      | true =>
        obtain ⟨x',read,own'⟩ := ieee.intRead sInt
        rw [left] at read
        cases read
        rw [own] at own'
        cases own'
    have zero : vcmp (vstrS s : Val F) (vstrS t) = 0 := by
      rw [vcmpNums notInts left right,numCmpZero]
      exact ieee.nan own
    have equal := (coherent.equal s sIn t tIn).mpr zero
    have unequal : Doubles.eq x y = false := by
      cases same : Doubles.eq x y with
      | false => rfl
      | true =>
        have := (ieee.eqIs.mp same).1
        rw [own] at this
        cases this
    have : strcmp s t ≠ 0 := fun zero => differ (strcmpZero zero)
    simp [veq,vstrS,this,notInts,left,right,unequal] at equal
  between s sIn t tIn u uIn left mid right first second := by
    obtain ⟨x,xIs⟩ := Option.isSome_iff_exists.mp left
    obtain ⟨z,zIs⟩ := Option.isSome_iff_exists.mp right
    have st : vcmp (vstrS s : Val F) (vstrS t) < 0 := by
      rw [vcmpText ieee (.inr mid)]
      exact first
    have tu : vcmp (vstrS t : Val F) (vstrS u) < 0 := by
      rw [vcmpText ieee (.inl mid)]
      exact second
    refine (vcmpNumLess ieee xIs zIs).mp ?_
    have le := coherent.trans s sIn t tIn u uIn (Int.le_of_lt st) (Int.le_of_lt tu)
    refine (Int.lt_or_eq_of_le le).resolve_right fun same => ?_
    have flip := vcmpFlip ieee s u
    have back : vcmp (vstrS u : Val F) (vstrS s) ≤ 0 := by
      rw [same] at flip
      exact Int.le_of_eq (Int.sign_eq_zero_iff_zero.mp (by simpa using flip.symm))
    have ut := coherent.trans u uIn s sIn t tIn back (Int.le_of_lt st)
    have := (vcmpOver ieee).mpr tu
    omega
  apart s sIn t tIn u uIn x y z sInt tInt uInt less xIs yIs zIs same := by
    obtain ⟨xz,zy⟩ := same
    have tu : vcmp (vstrS t : Val F) (vstrS u) ≤ 0 := by
      rw [vcmpNums (by rw [uInt,Bool.and_false]) yIs zIs,numCmpLe ieee]
      exact (ieee.eqIs.mp zy).2.2.1
    have us : vcmp (vstrS u : Val F) (vstrS s) ≤ 0 := by
      rw [vcmpNums (by rw [uInt,Bool.false_and]) zIs xIs,numCmpLe ieee]
      exact (ieee.eqIs.mp xz).2.2.1
    have ts := coherent.trans t tIn u uIn s sIn tu us
    have st : vcmp (vstrS s : Val F) (vstrS t) < 0 := by
      rw [vcmpInts sInt tInt]
      exact (intStrCmpIs sInt tInt).1.mpr less
    have := (vcmpOver ieee).mpr st
    omega

/-- `vcmp` is a total preorder with the equality `veq` on these cells just when they are clean. -/
theorem coherentIff (ieee : Ieee F) (cells : List Bytes) : Coherent F cells ↔ Clean F cells := by
  refine ⟨coherentClean ieee,fun clean => ⟨fun s _ t _ => vcmpFlip ieee s t,fun s _ t _ => ?_,
    fun s sIn t tIn u uIn => cleanTrans ieee clean sIn tIn uIn,fun s sIn t tIn => veqVcmp ieee ?_⟩⟩
  · by_contra both
    have := (@vcmpOver F _ s t ieee).mp (by omega)
    omega
  · rintro x y left right (own | own)
    · exact clean.ordered s sIn t tIn x y left right own
    · exact (clean.ordered t tIn s sIn y x right left own).symm

end

/-! ### Integers as doubles -/

theorem foldDigits (ds : Bytes) (digits : Digits ds) (acc : Nat) :
    ds.foldl (fun (n : Int) d => n * 10 + ((d.toNat : Int) - 48)) acc = (digitsValue acc ds : Nat) := by
  induction ds generalizing acc with
  | nil => rfl
  | cons c ds ih =>
    have own := digits c List.mem_cons_self
    have low : 48 ≤ c.toNat := UInt8.le_iff_toNat_le.mp (of_decide_eq_true own).1
    simp only [List.foldl_cons,digitsValue,own,if_true]
    rw [← ih fun d mem => digits d (List.mem_cons_of_mem _ mem)]
    congr 1
    push_cast
    omega

theorem strtodDigits {p : Bytes} (all : (!p.isEmpty && p.all isdigit) = true) :
    (p.takeWhile isdigit).isEmpty = false ∧ (p.takeWhile isdigit).foldl (fun (n : Int) d => n * 10 + ((d.toNat : Int) - 48)) 0 = (dv p : Nat) ∧
      p.drop (p.takeWhile isdigit).length = [] := by
  simp only [Bool.and_eq_true,Bool.not_eq_true',List.isEmpty_eq_false_iff] at all
  have digits : Digits p := List.all_eq_true.mp all.2
  rw [List.takeWhile_eq_self_iff.mpr digits]
  exact ⟨by simpa using all.1,foldDigits p digits 0,List.drop_length⟩

theorem intPnum {s : Bytes} (int : isIntStr s = true) : (pnum (some s) : Option Int) = some (intValue s) := by
  have strtod : Doubles.strtod s = some (intValue s,[]) ∧ s.dropWhile blank = s ∧ s.isEmpty = false := by
    cases s with
    | nil => cases int
    | cons c t =>
      by_cases plus : c = 43
      · subst plus
        obtain ⟨some_,value,rest⟩ := @strtodDigits t int
        refine ⟨?_,rfl,rfl⟩
        simp only [Doubles.strtod,some_,value,rest,Bool.false_eq_true,if_false]
        rfl
      · by_cases minus : c = 45
        · subst minus
          obtain ⟨some_,value,rest⟩ := @strtodDigits t int
          refine ⟨?_,rfl,rfl⟩
          simp only [Doubles.strtod,some_,value,rest,Bool.false_eq_true,if_false]
          rfl
        · have all : (!(c :: t).isEmpty && (c :: t).all isdigit) = true := by simpa [isIntStr,plus,minus] using int
          obtain ⟨some_,value,rest⟩ := strtodDigits all
          have own : isdigit c = true := by
            simp only [List.all_cons,Bool.and_eq_true] at all
            exact all.2.1
          have valueIs : intValue (c :: t) = (dv (c :: t) : Nat) := by
            rw [intValue.eq_def]
            split
            · rename_i is
              cases is
              exact absurd rfl plus
            · rename_i is
              cases is
              exact absurd rfl minus
            · rfl
          refine ⟨?_,by simp [(digitHead own).1],rfl⟩
          rw [valueIs,← value]
          simp only [Doubles.strtod]
          split
          · rename_i is
            cases is
            exact absurd rfl minus
          · rename_i is
            cases is
            exact absurd rfl plus
          · simp only [some_,rest,Bool.false_eq_true,if_false]
  rw [pnum]
  simp [strtod.2.1,strtod.2.2,strtod.1]

theorem ieeeInt : Ieee Int where
  asymm less := decide_eq_false (Int.not_lt.mpr (Int.le_of_lt (of_decide_eq_true less)))
  weak _ _ _ first second :=
    decide_eq_false (Int.not_lt.mpr (Int.le_trans (Int.not_lt.mp (of_decide_eq_false second)) (Int.not_lt.mp (of_decide_eq_false first))))
  eqIs := by
    intro x y
    simp only [Doubles.eq,Doubles.lt,decide_eq_true_eq,decide_eq_false_iff_not]
    exact ⟨fun same => same ▸ ⟨trivial,trivial,Int.lt_irrefl _,Int.lt_irrefl _⟩,fun all => by omega⟩
  nan own := by
    exfalso
    simp [Doubles.eq] at own
  intRead int := ⟨_,intPnum int,by simp [Doubles.eq]⟩
  intMono sInt tInt left right le := by
    rw [intPnum sInt] at left
    rw [intPnum tInt] at right
    cases left
    cases right
    exact decide_eq_false (Int.not_lt.mpr le)

/-- Integers of one sign and different lengths. -/
theorem coherentInts : Coherent Int [[57],[49,48],[45,53]] := by
  refine (coherentIff ieeeInt [[57],[49,48],[45,53]]).mpr ⟨?_,?_,?_⟩
  · intro s _ t _ x y _ _ own
    simp [Doubles.eq] at own
  · intro s _ t tIn u _ _ none_
    have : ∀ t ∈ [[57],[49,48],[45,53]], (pnum (some t) : Option Int) ≠ none := by decide
    exact absurd none_ (this t tIn)
  · intro s _ t _ u uIn x y z _ _ notInt
    have : ∀ u ∈ [[57],[49,48],[45,53]], isIntStr u = true := by decide
    rw [this u uIn] at notInt
    cases notInt

/-- `9` before `10` before `5x` before `9`. -/
theorem cycle : ¬Coherent Int [[57],[49,48],[53,120]] := by
  intro coherent
  exact absurd (coherent.trans [49,48] (by decide) [53,120] (by decide) [57] (by decide) (by decide) (by decide)) (by decide)

end Napastak.ValOrder
