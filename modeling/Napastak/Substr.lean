import Napastak.CStr
import Napastak.Lib.Munch
import Napastak.Lib.Utf8

/-! Characters of a byte string as `length` and `substr` count and cut them. -/
namespace Napastak.Substr
open Utf8 (WellFormed tail)

/-! ### Cutting a list into pieces -/

section
variable {α : Type} (len : List α → Nat)

/-- The list cut from the front, each piece as long as `len` says of what is left. -/
def pieces : List α → List (List α) := Munch.scan fun s => (s.take (len s),s.drop (len s))

variable {len} (fits : ∀ c s, 1 ≤ len (c :: s) ∧ len (c :: s) ≤ (c :: s).length)

include fits in
theorem piecesCons (c : α) (s : List α) :
    pieces len (c :: s) = (c :: s).take (len (c :: s)) :: pieces len ((c :: s).drop (len (c :: s))) := by
  refine Munch.scanStep (fun c s => ?_) c s
  have := (fits c s).1
  rw [List.length_drop,List.length_cons]
  omega

include fits in
theorem piecesFlat (s : List α) : (pieces len s).flatten = s := by
  suffices all : ∀ n (s : List α), s.length ≤ n → (pieces len s).flatten = s from all _ s (Nat.le_refl _)
  intro n
  induction n with
  | zero =>
    intro s short
    rw [List.eq_nil_of_length_eq_zero (Nat.le_zero.1 short)]
    rfl
  | succ n ih =>
    intro s short
    cases s with
    | nil => rfl
    | cons c s =>
      have pos := (fits c s).1
      rw [piecesCons fits,List.flatten_cons,ih _ (by rw [List.length_drop]; omega),List.take_append_drop]

include fits in
/-- The rest behind some pieces is cut at the same places. -/
theorem piecesDrop (k : Nat) (s : List α) : pieces len ((pieces len s).drop k).flatten = (pieces len s).drop k := by
  induction k generalizing s with
  | zero => rw [List.drop_zero,piecesFlat fits]
  | succ k ih =>
    cases s with
    | nil => rfl
    | cons c s => rw [piecesCons fits,List.drop_succ_cons,ih]

/-- The length of a piece that is all there does not depend on what is behind it. -/
def Local (len : List α → Nat) : Prop := ∀ p q, p ≠ [] → len (p ++ q) ≤ p.length → len p = len (p ++ q)

include fits in
/-- Some pieces from the front are cut at the same places without the rest. -/
theorem piecesTake (local_ : Local len) (k : Nat) (s : List α) :
    pieces len ((pieces len s).take k).flatten = (pieces len s).take k := by
  induction k generalizing s with
  | zero => rfl
  | succ k ih =>
    cases s with
    | nil => rfl
    | cons c s =>
      rw [piecesCons fits,List.take_succ_cons,List.flatten_cons]
      have pos := (fits c s).1
      have fit := (fits c s).2
      generalize back : (c :: s).drop (len (c :: s)) = rest at *
      generalize front : (c :: s).take (len (c :: s)) = piece at *
      have whole : c :: s = piece ++ rest := by rw [← front,← back,List.take_append_drop]
      have size : piece.length = len (c :: s) := by rw [← front,List.length_take_of_le fit]
      obtain ⟨b,t,rfl⟩ := List.exists_cons_of_ne_nil (l := piece) fun h => by rw [h] at size; simp at size; omega
      have split_ : rest = ((pieces len rest).take k).flatten ++ ((pieces len rest).drop k).flatten := by
        rw [← List.flatten_append,List.take_append_drop,piecesFlat fits]
      have same : len (b :: t ++ ((pieces len rest).take k).flatten) = (b :: t).length := by
        rw [size,whole,local_ _ ((pieces len rest).drop k).flatten (by simp) ?_,List.append_assoc,← split_]
        rw [List.append_assoc,← split_,← whole,← size,List.length_append]
        omega
      have next := piecesCons fits b (t ++ ((pieces len rest).take k).flatten)
      rw [← List.cons_append,same,List.take_left' rfl,List.drop_left' rfl,ih] at next
      exact next

end

/-! ### The code -/

/-- `u8_seq_len`. -/
def u8SeqLen (c : UInt8) : Nat :=
  if c < 0x80 then 1
  else if c &&& 0xE0 = 0xC0 then 2
  else if c &&& 0xF0 = 0xE0 then 3
  else if c &&& 0xF8 = 0xF0 then 4
  else 1

/-- One round of both loops: the bytes of the character in front. -/
def u8Round : Bytes → Nat
  | [] => 0
  | c :: s =>
    let l := if (c :: s).length < u8SeqLen c then 1 else u8SeqLen c
    if (s.take (l - 1)).all tail then l else 1

def u8CplenLoop : Nat → Bytes → Nat
  | 0, _ => 0
  | _ + 1, [] => 0
  | fuel + 1, c :: s => u8CplenLoop fuel ((c :: s).drop (u8Round (c :: s))) + 1

def u8Cplen (s : Bytes) : Nat := u8CplenLoop s.length s

def u8ByteAt : Bytes → Nat → Nat
  | _, 0 => 0
  | [], _ + 1 => 0
  | c :: s, cp + 1 => u8Round (c :: s) + u8ByteAt ((c :: s).drop (u8Round (c :: s))) cp

def u8Substr (s : Bytes) (start1 : Int32) (len : Int64) (haveLen : Bool) : Bytes :=
  let start0 := if start1 - 1 < 0 then 0 else (start1 - 1).toInt.toNat
  let total := u8Cplen s
  if start0 ≥ total then []
  else
    let avail : Int := total - start0
    let take : Int := if !haveLen || len < 0 || len.toInt > avail then avail else len.toInt
    let take := if take < 0 then 0 else take
    let bstart := u8ByteAt s start0
    let bend := u8ByteAt s (start0 + take.toNat)
    (s.drop bstart).take (bend - bstart)

/-! ### Its characters -/

theorem u8SeqLenPos (c : UInt8) : 1 ≤ u8SeqLen c := by
  unfold u8SeqLen
  split_ifs <;> decide

theorem roundFits (c : UInt8) (s : Bytes) : 1 ≤ u8Round (c :: s) ∧ u8Round (c :: s) ≤ (c :: s).length := by
  have pos := u8SeqLenPos c
  have some_ : 1 ≤ (c :: s).length := by simp
  dsimp only [u8Round]
  split_ifs <;> omega

theorem roundLocal : Local u8Round := by
  intro p q some_ fit
  obtain ⟨c,s,rfl⟩ := List.exists_cons_of_ne_nil some_
  rw [List.cons_append,u8Round] at fit ⊢
  rw [u8Round]
  have longer : (c :: s).length ≤ (c :: (s ++ q)).length := by simp
  by_cases cut : (c :: (s ++ q)).length < u8SeqLen c
  · have cut' : (c :: s).length < u8SeqLen c := by omega
    rw [if_pos cut,if_pos cut']
    simp
  rw [if_neg cut] at fit ⊢
  by_cases cut' : (c :: s).length < u8SeqLen c
  · -- the sequence ends behind the prefix, so it was no sequence
    rw [if_pos cut']
    split at fit
    · omega
    · rename_i bad
      rw [if_neg bad]
      simp
  · have same : (s ++ q).take (u8SeqLen c - 1) = s.take (u8SeqLen c - 1) :=
      List.take_append_of_le_length (by rw [List.length_cons] at cut'; omega)
    rw [if_neg cut',same]

def u8Chars : Bytes → List Bytes := pieces u8Round

theorem u8CplenChars (s : Bytes) : u8Cplen s = (u8Chars s).length := by
  suffices all : ∀ n (s : Bytes), s.length ≤ n → u8CplenLoop n s = (u8Chars s).length from all _ s (Nat.le_refl _)
  intro n
  induction n with
  | zero =>
    intro s short
    rw [List.eq_nil_of_length_eq_zero (Nat.le_zero.1 short)]
    rfl
  | succ n ih =>
    intro s short
    cases s with
    | nil => rfl
    | cons c s =>
      have pos := (roundFits c s).1
      rw [u8CplenLoop,u8Chars,piecesCons roundFits,List.length_cons,ih _ (by rw [List.length_drop]; omega)]
      rfl

theorem u8ByteAtChars (s : Bytes) (cp : Nat) : u8ByteAt s cp = ((u8Chars s).take cp).flatten.length := by
  induction cp generalizing s with
  | zero => rfl
  | succ cp ih =>
    cases s with
    | nil => rfl
    | cons c s =>
      rw [u8ByteAt,u8Chars,piecesCons roundFits,List.take_succ_cons,List.flatten_cons,List.length_append,
        List.length_take_of_le (roundFits c s).2,ih]
      rfl

/-- Bytes between two characters. -/
theorem u8Cut (s : Bytes) (a t : Nat) :
    (s.drop (u8ByteAt s a)).take (u8ByteAt s (a + t) - u8ByteAt s a) = (((u8Chars s).drop a).take t).flatten := by
  rw [u8ByteAtChars,u8ByteAtChars,List.take_add,List.flatten_append,List.length_append,Nat.add_sub_cancel_left]
  have whole : s = ((u8Chars s).take a).flatten ++
      ((((u8Chars s).drop a).take t).flatten ++ (((u8Chars s).drop a).drop t).flatten) := by
    rw [← List.flatten_append,List.take_append_drop,← List.flatten_append,List.take_append_drop]
    exact (piecesFlat roundFits s).symm
  calc
    _ = ((((u8Chars s).take a).flatten ++
          ((((u8Chars s).drop a).take t).flatten ++ (((u8Chars s).drop a).drop t).flatten)).drop
            ((u8Chars s).take a).flatten.length).take (((u8Chars s).drop a).take t).flatten.length := by rw [← whole]
    _ = _ := by rw [List.drop_left' rfl,List.take_left' rfl]

/-- The characters in front of a start. -/
def skipped (start1 : Int32) : Nat := if start1 - 1 < 0 then 0 else (start1 - 1).toInt.toNat

/-- The code gives the characters from the start on, as many as asked for. -/
theorem u8SubstrChars (s : Bytes) (i : Int32) (n : Int64) (haveLen : Bool) :
    u8Substr s i n haveLen =
      (((u8Chars s).drop (skipped i)).take
        (if haveLen = true ∧ 0 ≤ n.toInt then n.toInt.toNat else (u8Chars s).length)).flatten := by
  have below : n < 0 ↔ n.toInt < 0 := Int64.lt_iff_toInt_lt
  unfold u8Substr
  rw [u8CplenChars]
  rw [show (if i - 1 < 0 then 0 else (i - 1).toInt.toNat) = skipped i from rfl]
  dsimp only
  by_cases out : skipped i ≥ (u8Chars s).length
  · rw [if_pos out,List.drop_eq_nil_of_le out]
    simp
  · rw [if_neg out,u8Cut]
    congr 1
    have all (m : Nat) (enough : (u8Chars s).length - skipped i ≤ m) :
        ((u8Chars s).drop (skipped i)).take m = (u8Chars s).drop (skipped i) :=
      List.take_of_length_le (by rwa [List.length_drop])
    by_cases asked : haveLen = true ∧ 0 ≤ n.toInt
    · rw [if_pos asked]
      by_cases long : n.toInt > ((u8Chars s).length : Int) - skipped i
      · have whole : (!haveLen || decide (n < 0) || decide (n.toInt > ((u8Chars s).length : Int) - skipped i)) = true := by
          simp only [long,decide_true,Bool.or_true]
        rw [if_pos whole,if_neg (by omega),all _ (by omega),all _ (by omega)]
      · have short : ¬((!haveLen || decide (n < 0) || decide (n.toInt > ((u8Chars s).length : Int) - skipped i)) = true) := by
          simp [asked.1,below,asked.2,long]
        rw [if_neg short,if_neg (by omega)]
    · have whole : (!haveLen || decide (n < 0) || decide (n.toInt > ((u8Chars s).length : Int) - skipped i)) = true := by
        cases haveLen
        · rfl
        · simp [below,Int.not_le.1 fun h => asked ⟨rfl,h⟩]
      rw [if_pos whole,if_neg asked,if_neg (by omega),all _ (by omega),all _ (by omega)]

theorem skippedFrom {i : Int32} (low : 1 ≤ i.toInt) : skipped i = i.toInt.toNat - 1 := by
  have high := i.toInt_lt
  have back : (i - 1).toInt = i.toInt - 1 := by
    rw [Int32.toInt_sub,Int.bmod_eq_of_le (by simp; omega) (by simp; omega)]
    rfl
  rw [skipped,if_neg (by rw [Int32.lt_iff_toInt_lt,back]; simp; omega),back]
  omega

/-- The characters of a part are those it was cut from. -/
theorem u8CharsPart (s : Bytes) (a t : Nat) : u8Chars (((u8Chars s).drop a).take t).flatten = ((u8Chars s).drop a).take t := by
  have rest : u8Chars ((u8Chars s).drop a).flatten = (u8Chars s).drop a := piecesDrop roundFits a s
  have part := piecesTake roundFits roundLocal t ((u8Chars s).drop a).flatten
  rwa [← u8Chars,rest] at part

/-! ### UTF-8 -/

theorem leads : (∀ v < 0x80, u8SeqLen (UInt8.ofNat v) = 1) ∧ (∀ h < 32, u8SeqLen (UInt8.ofNat (h + 0xC0)) = 2) ∧
    (∀ h < 16, u8SeqLen (UInt8.ofNat (h + 0xE0)) = 3) ∧ ∀ h < 8, u8SeqLen (UInt8.ofNat (h + 0xF0)) = 4 := by
  refine ⟨?_,?_,?_,?_⟩ <;> decide

theorem roundWhole {c : UInt8} {t : Bytes} (lead : u8SeqLen c = t.length + 1) (conts : ∀ b ∈ t, tail b = true) (s : Bytes) :
    u8Round (c :: t ++ s) = (c :: t).length := by
  have long : ¬(c :: (t ++ s)).length < u8SeqLen c := by
    rw [lead,List.length_cons,List.length_append]
    omega
  rw [List.cons_append,u8Round,if_neg long,lead,Nat.add_sub_cancel,List.take_left' rfl,if_pos (List.all_eq_true.2 conts),
    List.length_cons]

theorem roundChar (c : Char) (s : Bytes) : u8Round (String.utf8EncodeChar c ++ s) = (String.utf8EncodeChar c).length := by
  obtain ⟨one,two,three,four⟩ := leads
  have none_ : ∀ b ∈ ([] : Bytes), tail b = true := fun b mem => nomatch mem
  have next {t : Nat} {bs : Bytes} (lt : t < 64) (rest : ∀ b ∈ bs, tail b = true) :
      ∀ b ∈ UInt8.ofNat (t + 0x80) :: bs, tail b = true := List.forall_mem_cons.2 ⟨Utf8.tailByte lt,rest⟩
  rcases Utf8.encoded c with ⟨low,eq⟩ | ⟨h,t,hh,ht,_,_,eq⟩ | ⟨h,t,u,hh,ht,hu,_,_,eq⟩ | ⟨h,t,u,v,hh,ht,hu,hv,_,_,eq⟩
  · rw [eq]
    exact roundWhole (one _ low) none_ s
  · rw [eq]
    exact roundWhole (two _ hh) (next ht none_) s
  · rw [eq]
    exact roundWhole (three _ hh) (next ht (next hu none_)) s
  · rw [eq]
    exact roundWhole (four _ hh) (next ht (next hu (next hv none_))) s

theorem charsWellFormed (cs : List Char) : u8Chars (cs.flatMap String.utf8EncodeChar) = cs.map String.utf8EncodeChar := by
  induction cs with
  | nil => rfl
  | cons c cs ih =>
    have round := roundChar c (cs.flatMap String.utf8EncodeChar)
    rw [List.flatMap_cons,List.map_cons,← ih]
    obtain ⟨b,t,is⟩ := List.exists_cons_of_ne_nil (String.utf8EncodeChar_ne_nil (c := c))
    rw [is] at round ⊢
    rw [List.cons_append,u8Chars,piecesCons roundFits,← List.cons_append,round,List.take_left' rfl,List.drop_left' rfl]

/-- Counting and cutting agree: the length of a part, the two parts that make up the whole, and parts of well-formed text. -/
theorem substrChars (s : Bytes) :
    (∀ i : Int32, 1 ≤ i.toInt → ∀ n : Int64, 0 ≤ n.toInt →
      (u8Cplen (u8Substr s i n true) : Int) = min n.toInt (max 0 (u8Cplen s - i.toInt + 1))) ∧
    (∀ k : Nat, k + 1 < 2 ^ 31 →
      u8Substr s 1 (Int64.ofNat k) true ++ u8Substr s (Int32.ofNat (k + 1)) 0 false = s) ∧
    (WellFormed s → ∀ i n haveLen, WellFormed (u8Substr s i n haveLen)) := by
  refine ⟨fun i low n some_ => ?_,fun k fits => ?_,?_⟩
  · rw [u8SubstrChars,skippedFrom low,if_pos ⟨rfl,some_⟩,u8CplenChars,u8CplenChars]
    rw [u8CharsPart,List.length_take,List.length_drop]
    omega
  · have count : (Int64.ofNat k).toInt = k := Int64.toInt_ofNat_of_lt (by omega)
    have next : (Int32.ofNat (k + 1)).toInt = (k + 1 : Nat) := Int32.toInt_ofNat_of_lt fits
    rw [u8SubstrChars,u8SubstrChars,skippedFrom (by decide),skippedFrom (by rw [next]; omega),next,count,
      if_pos ⟨rfl,by omega⟩,if_neg (by simp)]
    have one : (1 : Int32).toInt = 1 := by decide
    rw [one,List.take_of_length_le (i := (u8Chars s).length) (by rw [List.length_drop]; omega),← List.flatten_append]
    rw [show (1 : Int).toNat - 1 = 0 from rfl,List.drop_zero,Int.toNat_natCast,Int.toNat_natCast,Nat.add_sub_cancel,
      List.take_append_drop]
    exact piecesFlat roundFits s
  · rintro ⟨cs,rfl⟩ i n haveLen
    rw [u8SubstrChars,charsWellFormed,← List.map_drop,← List.map_take]
    exact ⟨_,rfl⟩

/-- A letter of two bytes, a digit and a lead byte that is cut off. -/
def cutOff : Bytes := [0xD0,0xB6,0x31,0xD0]

theorem substrCharsCut :
    (u8Cplen (u8Substr cutOff 2 5 true) : Int) = min (5 : Int64).toInt (max 0 (u8Cplen cutOff - (2 : Int32).toInt + 1)) ∧
      u8Substr cutOff 1 (Int64.ofNat 1) true ++ u8Substr cutOff (Int32.ofNat (1 + 1)) 0 false = cutOff ∧
      WellFormed (u8Substr ("ж1".toList.flatMap String.utf8EncodeChar) 1 1 true) :=
  ⟨(substrChars cutOff).1 2 (by decide) 5 (by decide),(substrChars cutOff).2.1 1 (by decide),
    (substrChars _).2.2 ⟨_,rfl⟩ 1 1 true⟩

end Napastak.Substr
