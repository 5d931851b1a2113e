import Napastak.CStr
import Napastak.Lib.Codec
import Napastak.Lib.Lz
import Napastak.Thrift

/-! `snappy_uncompress` of `parquet_connector.c`, which passes over the length in front, and the Snappy format. -/
namespace Napastak.Snappy
open Codec (leValue leValueLess)
open Lz
open Thrift (asInt)

/-! ### The code -/

/-- The bytes of the preamble: all with the high bit, and one more. -/
def preambleBytes : Bytes → Nat
  | [] => 0
  | c :: s => if c < 0x80 then 1 else preambleBytes s + 1

inductive Round where
  | fail
  | next (sp : Nat) (dst : Bytes)

section
variable (src : Bytes) (dcap : Nat)

/-- `n` bytes of the input from `sp` on; none where one lies outside. -/
def readAt (sp n : Nat) : Option Bytes := if sp + n ≤ src.length then some ((src.drop sp).take n) else none

/-- Bytes written behind `dst`; none where one lies outside. -/
def write (dst xs : Bytes) : Option Bytes := if dst.length + xs.length ≤ dcap then some (dst ++ xs) else none

/-- `dst[dp] = dst[dp - off]; dp++`, `len` times. -/
def copyLoop (off : Nat) : Nat → Bytes → Option Bytes
  | 0, dst => some dst
  | len + 1, dst =>
    if dst.length < off then none
    else (dst[dst.length - off]?).bind fun c => (write dcap dst [c]).bind (copyLoop off len)

/-- A literal, `sp` behind its tag. The loop over the bytes of the length ends with the input. -/
def literal (tag sp : Nat) (dst : Bytes) : Option Round :=
  let here := (src.drop sp).take (tag / 4 + 1 - 60)
  let len := if 60 < tag / 4 + 1 then (leValue here + 1) % 2 ^ 32 else tag / 4 + 1
  let sp := sp + here.length
  if src.length < sp + len ∨ dcap < dst.length + len then some .fail
  else (readAt src sp len).bind fun xs => (write dcap dst xs).map (.next (sp + len))

def copyWith (off len sp : Nat) (dst : Bytes) : Option Round :=
  if off = 0 ∨ dst.length < off ∨ dcap < dst.length + len then some .fail else (copyLoop dcap off len dst).map (.next sp)

/-- A copy, `sp` behind its tag. -/
def copy (tag sp : Nat) (dst : Bytes) : Option Round :=
  if tag % 4 = 1 then
    if src.length ≤ sp then some .fail
    else (readAt src sp 1).bind fun b => copyWith dcap (tag / 32 * 256 + leValue b) (tag / 4 % 8 + 4) (sp + 1) dst
  else if tag % 4 = 2 then
    if src.length < sp + 2 then some .fail
    else (readAt src sp 2).bind fun b => copyWith dcap (leValue b) (tag / 4 + 1) (sp + 2) dst
  else if src.length < sp + 4 then some .fail
  else (readAt src sp 4).bind fun b => copyWith dcap (leValue b) (tag / 4 + 1) (sp + 4) dst

def round (sp : Nat) (dst : Bytes) : Option Round :=
  (src[sp]?).bind fun tag =>
    if tag.toNat % 4 = 0 then literal src dcap tag.toNat (sp + 1) dst else copy src dcap tag.toNat (sp + 1) dst

/-- The loop, from a position and what is written on; the inner none is the return of -1. -/
def loop : Nat → Nat → Bytes → Option (Option Bytes)
  | 0, _, _ => none
  | n + 1, sp, dst =>
    if sp < src.length then
      match round src dcap sp dst with
      | none => none
      | some .fail => some none
      | some (.next sp dst) => loop n sp dst
    else some (some dst)

/-- What is returned, and what is in the output; none where a byte outside the input or the capacity is touched. -/
def snappyUncompress : Option (Int × Bytes) :=
  (loop src dcap (src.length + 1) (preambleBytes src) []).map fun
    | none => (-1,[])
    | some dst => (asInt dst.length,dst)

end

/-! ### The format -/

/-- A number in base 128 of at most so many bytes. -/
def varint : Nat → Bytes → Option (Nat × Bytes)
  | 0, _ => none
  | _ + 1, [] => none
  | n + 1, c :: s => if c < 0x80 then some (c.toNat,s) else (varint n s).map fun (v,s) => (c.toNat % 128 + 128 * v,s)

/-- The length declared in front, which has 32 bits, and the elements. -/
def declared (s : Bytes) : Option (Nat × Bytes) := (varint 5 s).filter fun (v,_) => v < 2 ^ 32

section
variable (size : Nat → Nat)

/-- The first element and the bytes it takes; `size` is the length of a literal by the number written for it. -/
def element : Bytes → Option (Element UInt8 × Nat)
  | [] => none
  | tag :: s =>
    if tag.toNat % 4 = 0 then
      let k := tag.toNat / 4 - 59
      let len := if k = 0 then tag.toNat / 4 + 1 else size (leValue (s.take k))
      if s.length < k + len then none else some (.literal ((s.drop k).take len),1 + k + len)
    else if tag.toNat % 4 = 1 then
      if s.length < 1 then none else some (.copy (tag.toNat / 32 * 256 + leValue (s.take 1)) (tag.toNat / 4 % 8 + 4),2)
    else if tag.toNat % 4 = 2 then
      if s.length < 2 then none else some (.copy (leValue (s.take 2)) (tag.toNat / 4 + 1),3)
    else if s.length < 4 then none else some (.copy (leValue (s.take 4)) (tag.toNat / 4 + 1),5)

def elementsFrom : Nat → Bytes → Option (List (Element UInt8))
  | 0, _ => none
  | n + 1, s => if s = [] then some [] else (element size s).bind fun (e,k) => (elementsFrom n (s.drop k)).map (e :: ·)

def elements (s : Bytes) : Option (List (Element UInt8)) := elementsFrom size (s.length + 1) s

end

/-- The decoding the format gives a stream. -/
def reference (s : Bytes) : Option Bytes :=
  (declared s).bind fun (n,s) => (elements (· + 1) s).bind fun es => (expand [] es).filter (·.length = n)

/-- The length of a literal in 32 bits. -/
def wrapped (n : Nat) : Nat := (n + 1) % 2 ^ 32

/-- No byte outside is touched, and the call fails or gives the decoding and its length. -/
def Sound (src : Bytes) (dcap : Nat) : Prop :=
  ∃ ret dst, snappyUncompress src dcap = some (ret,dst) ∧ (ret < 0 ∨ reference src = some dst ∧ ret = dst.length)

/-! ### One round -/

section
variable {src : Bytes} {dcap : Nat}

theorem readInside {sp n : Nat} (inside : sp + n ≤ src.length) : readAt src sp n = some ((src.drop sp).take n) := if_pos inside

theorem writeInside {dst xs : Bytes} (inside : dst.length + xs.length ≤ dcap) : write dcap dst xs = some (dst ++ xs) := if_pos inside

theorem copyLoopIs {off : Nat} (some_ : 1 ≤ off) (len : Nat) (dst : Bytes) (inside : off ≤ dst.length)
    (room : dst.length + len ≤ dcap) : copyLoop dcap off len dst = some (copyEach off len dst) := by
  induction len generalizing dst with
  | zero => rfl
  | succ len ih =>
    have here : dst.length - off < dst.length := by omega
    have size : (dst ++ [dst[dst.length - off]]).length = dst.length + 1 := List.length_append
    rw [copyLoop,if_neg (Nat.not_lt.mpr inside),List.getElem?_eq_getElem here,Option.bind_some,
      writeInside (show dst.length + 1 ≤ dcap by omega),Option.bind_some,ih _ (by omega) (by omega),copyEach,List.getElem?_eq_getElem here]
    rfl

theorem copyWithIs (off len sp : Nat) (dst : Bytes) : copyWith dcap off len sp dst =
    some (if (1 ≤ off ∧ off ≤ dst.length) ∧ dst.length + len ≤ dcap then .next sp (dst ++ repeated dst off len) else .fail) := by
  rw [copyWith]
  by_cases fits : (1 ≤ off ∧ off ≤ dst.length) ∧ dst.length + len ≤ dcap
  · obtain ⟨⟨some_,inside⟩,room⟩ := fits
    rw [if_neg (by omega),if_pos ⟨⟨some_,inside⟩,room⟩,copyLoopIs some_ len dst inside room,copyEachIs some_ inside]
    rfl
  · rw [if_pos (by omega),if_neg fits]

theorem shortValue {s : Bytes} (short : s.length ≤ 3) : leValue s < 2 ^ 24 :=
  Nat.lt_of_lt_of_le (leValueLess s) (Nat.pow_le_pow_right (by decide : 0 < 256) short)

/-- What an element does to what is written. -/
def apply (dst : Bytes) : Element UInt8 → Bytes
  | .literal xs => dst ++ xs
  | .copy off len => dst ++ repeated dst off len

def Fits (dcap : Nat) (dst : Bytes) : Element UInt8 → Prop
  | .literal xs => dst.length + xs.length ≤ dcap
  | .copy off len => (1 ≤ off ∧ off ≤ dst.length) ∧ dst.length + len ≤ dcap

instance (dst : Bytes) : ∀ e : Element UInt8, Decidable (Fits dcap dst e)
  | .literal _ => inferInstanceAs (Decidable (_ ≤ _))
  | .copy .. => inferInstanceAs (Decidable (_ ∧ _))

theorem literalIs {tag : UInt8} {s : Bytes} {sp : Nat} (here : src.drop sp = tag :: s) (kind : tag.toNat % 4 = 0) (dst : Bytes) :
    literal src dcap tag.toNat (sp + 1) dst = some (match element wrapped (tag :: s) with
      | none => .fail
      | some (e,k) => if Fits dcap dst e then .next (sp + k) (apply dst e) else .fail) := by
  have rest : src.drop (sp + 1) = s := by rw [← List.drop_drop,here]; rfl
  have size : src.length = sp + 1 + s.length := by
    have := congrArg List.length here
    rw [List.length_drop,List.length_cons] at this
    omega
  have count : tag.toNat / 4 + 1 - 60 = tag.toNat / 4 - 59 := by omega
  have tagLess := tag.toNat_lt
  rw [literal,element,if_pos kind,rest,count]
  dsimp only
  by_cases cut : s.length < tag.toNat / 4 - 59
  · -- the bytes of the length are cut off: what there is of them gives one byte at least
    have short := shortValue (s := s) (by omega)
    rw [List.take_of_length_le (by omega),if_pos (show 60 < tag.toNat / 4 + 1 by omega),if_pos (by omega),if_pos (by omega)]
  · have length : (s.take (tag.toNat / 4 - 59)).length = tag.toNat / 4 - 59 := by rw [List.length_take]; omega
    have len : (if 60 < tag.toNat / 4 + 1 then (leValue (s.take (tag.toNat / 4 - 59)) + 1) % 2 ^ 32 else tag.toNat / 4 + 1) =
        if tag.toNat / 4 - 59 = 0 then tag.toNat / 4 + 1 else wrapped (leValue (s.take (tag.toNat / 4 - 59))) := by
      by_cases long : 60 < tag.toNat / 4 + 1
      · rw [if_pos long,if_neg (by omega)]
        rfl
      · rw [if_neg long,if_pos (by omega)]
    rw [len,length]
    generalize (if tag.toNat / 4 - 59 = 0 then tag.toNat / 4 + 1 else wrapped (leValue (s.take (tag.toNat / 4 - 59)))) = n
    by_cases out : s.length < tag.toNat / 4 - 59 + n
    · rw [if_pos (by omega),if_pos out]
    · have taken : ((s.drop (tag.toNat / 4 - 59)).take n).length = n := by
        rw [List.length_take,List.length_drop]
        omega
      have fits : Fits dcap dst (.literal ((s.drop (tag.toNat / 4 - 59)).take n)) ↔ dst.length + n ≤ dcap := by rw [Fits,taken]
      rw [if_neg out]
      dsimp only [apply]
      by_cases room : dst.length + n ≤ dcap
      · have read : (src.drop (sp + 1 + (tag.toNat / 4 - 59))).take n = (s.drop (tag.toNat / 4 - 59)).take n := by
          rw [← List.drop_drop,rest]
        rw [if_neg (by omega),if_pos (fits.mpr room),readInside (by omega),Option.bind_some,read,writeInside (by rw [taken]; exact room),
          show sp + 1 + (tag.toNat / 4 - 59) + n = sp + (1 + (tag.toNat / 4 - 59) + n) by omega]
        rfl
      · rw [if_pos (by omega),if_neg (mt fits.mp room)]

theorem copyIs {tag : UInt8} {s : Bytes} {sp : Nat} (here : src.drop sp = tag :: s) (kind : tag.toNat % 4 ≠ 0) (dst : Bytes) :
    copy src dcap tag.toNat (sp + 1) dst = some (match element wrapped (tag :: s) with
      | none => .fail
      | some (e,k) => if Fits dcap dst e then .next (sp + k) (apply dst e) else .fail) := by
  have rest : src.drop (sp + 1) = s := by rw [← List.drop_drop,here]; rfl
  have size : src.length = sp + 1 + s.length := by
    have := congrArg List.length here
    rw [List.length_drop,List.length_cons] at this
    omega
  rw [copy,element,if_neg kind]
  by_cases one : tag.toNat % 4 = 1
  · rw [if_pos one,if_pos one]
    by_cases cut : s.length < 1
    · rw [if_pos (by omega),if_pos cut]
    · rw [if_neg (by omega),if_neg cut,readInside (by omega),Option.bind_some,copyWithIs,rest]
      rfl
  rw [if_neg one,if_neg one]
  by_cases two : tag.toNat % 4 = 2
  · rw [if_pos two,if_pos two]
    by_cases cut : s.length < 2
    · rw [if_pos (by omega),if_pos cut]
    · rw [if_neg (by omega),if_neg cut,readInside (by omega),Option.bind_some,copyWithIs,rest]
      rfl
  rw [if_neg two,if_neg two]
  by_cases cut : s.length < 4
  · rw [if_pos (by omega),if_pos cut]
  · rw [if_neg (by omega),if_neg cut,readInside (by omega),Option.bind_some,copyWithIs,rest]
    rfl

theorem roundIs {sp : Nat} (inside : sp < src.length) (dst : Bytes) :
    round src dcap sp dst = some (match element wrapped (src.drop sp) with
      | none => .fail
      | some (e,k) => if Fits dcap dst e then .next (sp + k) (apply dst e) else .fail) := by
  have here := List.drop_eq_getElem_cons inside
  rw [round,List.getElem?_eq_getElem inside,Option.bind_some,here]
  by_cases kind : (src[sp]).toNat % 4 = 0
  · rw [if_pos kind,literalIs here kind]
  · rw [if_neg kind,copyIs here kind]

end

/-! ### All rounds -/

theorem elementTakes {size : Nat → Nat} {s : Bytes} {e : Element UInt8} {k : Nat} (is : element size s = some (e,k)) : 1 ≤ k := by
  cases s with
  | nil => cases is
  | cons tag s =>
    rw [element] at is
    by_cases kind : tag.toNat % 4 = 0
    · rw [if_pos kind,Option.ite_none_left_eq_some] at is
      cases is.2
      omega
    rw [if_neg kind] at is
    by_cases one : tag.toNat % 4 = 1
    · rw [if_pos one,Option.ite_none_left_eq_some] at is
      cases is.2
      decide
    rw [if_neg one] at is
    by_cases two : tag.toNat % 4 = 2
    · rw [if_pos two,Option.ite_none_left_eq_some] at is
      cases is.2
      decide
    · rw [if_neg two,Option.ite_none_left_eq_some] at is
      cases is.2
      decide

theorem elementsFuel (size : Nat → Nat) {n : Nat} {s : Bytes} (enough : s.length < n) : elementsFrom size n s = elements size s := by
  rw [elements]
  induction n using Nat.strongRecOn generalizing s with
  | _ n ih =>
    cases n with
    | zero => exact absurd enough (Nat.not_lt_zero _)
    | succ n =>
      rw [elementsFrom,elementsFrom]
      by_cases empty : s = []
      · rw [if_pos empty,if_pos empty]
      · rw [if_neg empty,if_neg empty]
        refine Option.bind_congr fun (e,k) is => ?_
        have takes := elementTakes is
        have some_ := List.length_pos_iff.mpr empty
        have less : (s.drop k).length < s.length := by rw [List.length_drop]; omega
        dsimp only
        rw [ih n (Nat.lt_succ_self n) (by omega),ih s.length (by omega) less]

theorem totalCons (e : Element UInt8) (es : List (Element UInt8)) : total (e :: es) = e.size + total es := by
  rw [total,List.map_cons,List.sum_cons]
  rfl

theorem applySize {dcap : Nat} {dst : Bytes} {e : Element UInt8} (fits : Fits dcap dst e) : (apply dst e).length = dst.length + e.size := by
  cases e with
  | literal xs => exact List.length_append
  | copy off len => rw [apply,List.length_append,repeatedLength fits.1.1 fits.1.2]; rfl

theorem expandCons {dcap : Nat} {dst : Bytes} {e : Element UInt8} (fits : Fits dcap dst e) (es : List (Element UInt8)) :
    expand dst (e :: es) = expand (apply dst e) es := by
  cases e with
  | literal xs => rfl
  | copy off len => rw [expand,if_pos fits.1]; rfl

theorem unfit {dcap : Nat} {dst : Bytes} {e : Element UInt8} (not : ¬ Fits dcap dst e) (es : List (Element UInt8))
    (room : dst.length + total (e :: es) ≤ dcap) : expand dst (e :: es) = none := by
  rw [totalCons] at room
  cases e with
  | literal xs =>
    have : Element.size (.literal xs) = xs.length := rfl
    exact absurd (show dst.length + xs.length ≤ dcap by omega) not
  | copy off len =>
    have : Element.size (.copy off len : Element UInt8) = len := rfl
    exact if_neg fun placed => not ⟨placed,by omega⟩

/-- The elements written out, where they fit. -/
def written (dcap : Nat) (dst : Bytes) (es : List (Element UInt8)) : Option Bytes :=
  if dst.length + total es ≤ dcap then expand dst es else none

theorem loopIs {src : Bytes} {dcap n sp : Nat} {dst : Bytes} (enough : (src.drop sp).length < n) (room : dst.length ≤ dcap) :
    loop src dcap n sp dst = some ((elements wrapped (src.drop sp)).bind (written dcap dst)) := by
  rw [← elementsFuel wrapped enough]
  induction n generalizing sp dst with
  | zero => exact absurd enough (Nat.not_lt_zero _)
  | succ n ih =>
    rw [loop]
    by_cases inside : sp < src.length
    · have some_ : src.drop sp ≠ [] := fun empty => absurd (List.drop_eq_nil_iff.mp empty) (by omega)
      rw [if_pos inside,roundIs inside,elementsFrom,if_neg some_]
      cases is : element wrapped (src.drop sp) with
      | none => rfl
      | some ek =>
        obtain ⟨e,k⟩ := ek
        have takes := elementTakes is
        rw [Option.bind_some]
        dsimp only
        by_cases fits : Fits dcap dst e
        · have grown := applySize fits
          have fitRoom : dst.length + e.size ≤ dcap := by
            cases e with
            | literal xs => exact fits
            | copy off len => exact fits.2
          rw [List.length_drop] at enough
          rw [if_pos fits,List.drop_drop]
          dsimp only
          rw [@ih (sp + k) (apply dst e) (by rw [List.length_drop]; omega) (by omega),Option.bind_map]
          refine congrArg (fun f => some ((elementsFrom wrapped n (src.drop (sp + k))).bind f)) (funext fun es => ?_)
          show written dcap (apply dst e) es = written dcap dst (e :: es)
          rw [written,written,grown,totalCons,expandCons fits,Nat.add_assoc]
        · rw [if_neg fits]
          refine congrArg some (Eq.symm (Option.bind_eq_none_iff.mpr fun es mem => ?_))
          obtain ⟨rest,_,rfl⟩ := Option.map_eq_some_iff.mp mem
          rw [written]
          split
          · exact unfit fits rest ‹_›
          · rfl
    · have empty : src.drop sp = [] := List.drop_eq_nil_of_le (Nat.not_lt.mp inside)
      rw [if_neg inside,empty,elementsFrom,if_pos rfl,Option.bind_some,written,if_pos (show dst.length + total [] ≤ dcap from room)]
      rfl

theorem uncompressIs (src : Bytes) (dcap : Nat) : snappyUncompress src dcap =
    some (((elements wrapped (src.drop (preambleBytes src))).bind (written dcap [])).elim (-1,[]) fun dst => (asInt dst.length,dst)) := by
  rw [snappyUncompress,loopIs (by rw [List.length_drop]; omega) (Nat.zero_le _),Option.map_some]
  cases (elements wrapped (src.drop (preambleBytes src))).bind (written dcap []) <;> rfl

/-! ### The code and the format -/

theorem varintRest {n v : Nat} {s rest : Bytes} (is : varint n s = some (v,rest)) : rest = s.drop (preambleBytes s) := by
  induction n generalizing s v with
  | zero => cases is
  | succ n ih =>
    cases s with
    | nil => cases is
    | cons c s =>
      rw [varint] at is
      rw [preambleBytes]
      split at is
      · rename_i last
        cases is
        rw [if_pos last]
        rfl
      · rename_i more
        obtain ⟨⟨v',rest'⟩,next,same⟩ := Option.map_eq_some_iff.mp is
        cases same
        rw [if_neg more,ih next]
        rfl

theorem declaredIs {s rest : Bytes} {n : Nat} (is : declared s = some (n,rest)) : n < 2 ^ 32 ∧ rest = s.drop (preambleBytes s) := by
  obtain ⟨read,less⟩ := Option.filter_eq_some_iff.mp is
  exact ⟨of_decide_eq_true less,varintRest read⟩

theorem fieldLess {tag : UInt8} {s : Bytes} : leValue (s.take (tag.toNat / 4 - 59)) < 2 ^ 32 := by
  have less := leValueLess (s.take (tag.toNat / 4 - 59))
  have tagLess := tag.toNat_lt
  have four : (s.take (tag.toNat / 4 - 59)).length ≤ 4 := by
    rw [List.length_take]
    omega
  exact Nat.lt_of_lt_of_le less (Nat.pow_le_pow_right (by decide : 0 < 256) four)

/-- A literal that is not empty has the length written for it. -/
theorem elementKept {s : Bytes} {e : Element UInt8} {k : Nat} (is : element wrapped s = some (e,k)) (some_ : e ≠ .literal []) :
    element (· + 1) s = some (e,k) := by
  cases s with
  | nil => cases is
  | cons tag s =>
    rw [element] at is ⊢
    by_cases kind : tag.toNat % 4 = 0
    · rw [if_pos kind] at is ⊢
      dsimp only at is ⊢
      by_cases short : tag.toNat / 4 - 59 = 0
      · rw [if_pos short] at is ⊢
        exact is
      · rw [if_neg short] at is ⊢
        have less : leValue (s.take (tag.toNat / 4 - 59)) < 2 ^ 32 := fieldLess
        by_cases whole : leValue (s.take (tag.toNat / 4 - 59)) + 1 = 2 ^ 32
        · rw [wrapped,whole,Nat.mod_self,Option.ite_none_left_eq_some] at is
          cases is.2
          exact absurd rfl some_
        · rwa [wrapped,Nat.mod_eq_of_lt (by omega)] at is
    · rwa [if_neg kind] at is ⊢

theorem elementShort {s : Bytes} {e : Element UInt8} {k : Nat} (is : element (· + 1) s = some (e,k)) (short : e.size < 2 ^ 32) :
    element wrapped s = some (e,k) ∧ e ≠ .literal [] := by
  cases s with
  | nil => cases is
  | cons tag s =>
    rw [element] at is ⊢
    by_cases kind : tag.toNat % 4 = 0
    · rw [if_pos kind] at is ⊢
      dsimp only at is ⊢
      by_cases field : tag.toNat / 4 - 59 = 0
      · rw [if_pos field] at is ⊢
        refine ⟨is,?_⟩
        obtain ⟨room,same⟩ := Option.ite_none_left_eq_some.mp is
        cases same
        intro empty
        have size := congrArg Element.size empty
        rw [Element.size,Element.size,List.length_take,List.length_drop,List.length_nil] at size
        omega
      · rw [if_neg field] at is ⊢
        obtain ⟨room,same⟩ := Option.ite_none_left_eq_some.mp is
        cases same
        rw [Element.size,List.length_take,List.length_drop] at short
        refine ⟨by rw [wrapped,Nat.mod_eq_of_lt (by omega)]; exact is,fun empty => ?_⟩
        have size := congrArg Element.size empty
        rw [Element.size,Element.size,List.length_take,List.length_drop,List.length_nil] at size
        omega
    · rw [if_neg kind] at is ⊢
      refine ⟨is,?_⟩
      by_cases one : tag.toNat % 4 = 1
      · rw [if_pos one,Option.ite_none_left_eq_some] at is
        cases is.2
        rintro ⟨⟩
      rw [if_neg one] at is
      by_cases two : tag.toNat % 4 = 2
      · rw [if_pos two,Option.ite_none_left_eq_some] at is
        cases is.2
        rintro ⟨⟩
      · rw [if_neg two,Option.ite_none_left_eq_some] at is
        cases is.2
        rintro ⟨⟩

theorem elementsKept {n : Nat} {s : Bytes} {es : List (Element UInt8)} (is : elementsFrom wrapped n s = some es)
    (some_ : .literal [] ∉ es) : elementsFrom (· + 1) n s = some es := by
  induction n generalizing s es with
  | zero => cases is
  | succ n ih =>
    rw [elementsFrom] at is ⊢
    split at is
    · rename_i empty
      rw [if_pos empty]
      exact is
    · rename_i more
      obtain ⟨⟨e,k⟩,first,is⟩ := Option.bind_eq_some_iff.mp is
      obtain ⟨rest,next,rfl⟩ := Option.map_eq_some_iff.mp is
      have kept := elementKept first fun empty => some_ (empty ▸ List.mem_cons_self)
      rw [if_neg more,kept,Option.bind_some]
      dsimp only
      rw [ih next fun mem => some_ (List.mem_cons_of_mem _ mem)]
      rfl

theorem elementsShort {n : Nat} {s : Bytes} {es : List (Element UInt8)} (is : elementsFrom (· + 1) n s = some es)
    (short : total es < 2 ^ 32) : elementsFrom wrapped n s = some es ∧ .literal [] ∉ es := by
  induction n generalizing s es with
  | zero => cases is
  | succ n ih =>
    rw [elementsFrom] at is ⊢
    split at is
    · rename_i empty
      cases is
      rw [if_pos empty]
      exact ⟨rfl,List.not_mem_nil⟩
    · rename_i more
      obtain ⟨⟨e,k⟩,first,is⟩ := Option.bind_eq_some_iff.mp is
      obtain ⟨rest,next,rfl⟩ := Option.map_eq_some_iff.mp is
      rw [totalCons] at short
      obtain ⟨kept,some_⟩ := elementShort first (by omega)
      obtain ⟨keptRest,someRest⟩ := ih next (by omega)
      rw [if_neg more,kept,Option.bind_some]
      dsimp only
      rw [keptRest]
      exact ⟨rfl,fun mem => (List.mem_cons.mp mem).elim (fun same => some_ same.symm) someRest⟩

/-- Elements that are all placed in the capacity, in a number that is not negative as an `int`, add up to the length in front,
and none of them is a literal whose length does not go into 32 bits. -/
def Accounted (src : Bytes) (dcap : Nat) : Prop :=
  ∀ es, elements wrapped (src.drop (preambleBytes src)) = some es → Placed 0 es → total es ≤ dcap → 0 ≤ asInt (total es) →
    .literal [] ∉ es ∧ (declared src).map Prod.fst = some (total es)

theorem soundIff (src : Bytes) (dcap : Nat) : Sound src dcap ↔ Accounted src dcap := by
  constructor
  · rintro ⟨ret,dst,call,right⟩ es read placed room count
    obtain ⟨out,expanded⟩ : ∃ out, expand ([] : Bytes) es = some out := expandPlaced.mpr placed
    have size := expandSize expanded
    rw [List.length_nil,Nat.zero_add] at size
    rw [uncompressIs,read,Option.bind_some,written,if_pos (by rw [List.length_nil]; omega),expanded] at call
    simp only [Option.elim_some,Option.some.injEq,Prod.mk.injEq] at call
    obtain ⟨rfl,rfl⟩ := call
    rw [size] at right
    obtain ⟨decoded,-⟩ := right.resolve_left (Int.not_lt.mpr count)
    obtain ⟨⟨n,rest⟩,front,decoded⟩ := Option.bind_eq_some_iff.mp decoded
    obtain ⟨es',read',decoded⟩ := Option.bind_eq_some_iff.mp decoded
    obtain ⟨expanded',length⟩ := Option.filter_eq_some_iff.mp decoded
    obtain ⟨less,rfl⟩ := declaredIs front
    have size' := expandSize expanded'
    rw [List.length_nil,Nat.zero_add] at size'
    have same : out.length = n := of_decide_eq_true length
    obtain ⟨wrappedSame,some_⟩ := elementsShort read' (by omega)
    rw [show elementsFrom wrapped _ _ = elements wrapped _ from rfl,read] at wrappedSame
    cases wrappedSame
    exact ⟨some_,by rw [front,← size,← same]; rfl⟩
  · intro accounted
    refine ⟨_,_,uncompressIs src dcap,?_⟩
    cases read : elements wrapped (src.drop (preambleBytes src)) with
    | none => exact .inl (show (-1 : Int) < 0 by decide)
    | some es =>
      rw [Option.bind_some,written,List.length_nil,Nat.zero_add]
      by_cases room : total es ≤ dcap
      · rw [if_pos room]
        cases expanded : expand [] es with
        | none => exact .inl (show (-1 : Int) < 0 by decide)
        | some out =>
          have size := expandSize expanded
          rw [List.length_nil,Nat.zero_add] at size
          dsimp only
          by_cases count : 0 ≤ asInt (total es)
          · obtain ⟨some_,front⟩ := accounted es read (expandPlaced.mp ⟨out,expanded⟩) room count
            obtain ⟨⟨n,rest⟩,front,same⟩ := Option.map_eq_some_iff.mp front
            obtain ⟨less,rfl⟩ := declaredIs front
            obtain rfl : n = total es := same
            refine .inr ⟨?_,?_⟩
            · rw [reference,front,Option.bind_some]
              dsimp only
              rw [show elements (· + 1) _ = some es from elementsKept read some_,Option.bind_some,expanded,Option.filter_some,
                if_pos (decide_eq_true size)]
            · rw [size]
              rw [asInt,Int.bmod] at count ⊢
              omega
          · exact .inl (by rw [size]; omega)
      · rw [if_neg room]
        exact .inl (show (-1 : Int) < 0 by decide)

/-- Of five bytes that are declared one is there, and the call succeeds. -/
theorem lengthIgnored : ¬ ∀ (src : Bytes) (dcap : Nat), Sound src dcap := by
  intro all
  obtain ⟨ret,dst,call,right⟩ := all [5,0,97] 5
  have one : snappyUncompress [5,0,97] 5 = some (1,[97]) := by decide
  cases one.symm.trans call
  obtain ⟨decoded,-⟩ := right.resolve_left (by decide)
  exact absurd decoded (by decide)

end Napastak.Snappy
