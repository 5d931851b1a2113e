import Mathlib.Data.List.DropRight
import Mathlib.Data.List.Infix
import Mathlib.Logic.Relation
import Napastak.Lib.Utf8
import Napastak.Page

/-! `qe_normalize_name`: names in lower case with single spaces. A byte `D0` takes the next byte with it whatever that is. -/
namespace Napastak.NormName

def blank (c : UInt8) : Bool := c = 32 || c = 9 || c = 10 || c = 13

/-- What is written for `D0` and the byte behind it. -/
def foldPair (d : UInt8) : Bytes :=
  if 0x90 ≤ d ∧ d ≤ 0x9F then [0xD0,d + 0x20]
  else if 0xA0 ≤ d ∧ d ≤ 0xAF then [0xD1,d - 0x20]
  else if d = 0x81 then [0xD1,0x91]
  else [0xD0,d]

def lowerByte (c : UInt8) : UInt8 := if 65 ≤ c ∧ c ≤ 90 then c + 32 else c

/-- The loop from a value of `prev_space` on, which is false only behind something written. -/
def foldName (prev : Bool) : Bytes → Bytes
  | [] => []
  | c :: s =>
    if blank c then if prev then foldName true s else 32 :: foldName true s
    else if c = 0xD0 then
      match s with
      | [] => [c]
      | d :: s => foldPair d ++ foldName false s
    else lowerByte c :: foldName false s

def qeNormalizeName (s : Bytes) : Bytes := (foldName true s).rdropWhile (· = 32)

/-! ### Names that are to be the same -/

/-- The capital and the small form of the letters that are folded. -/
inductive Cased : Bytes → Bytes → Prop
  | latin {c : UInt8} : 65 ≤ c ∧ c ≤ 90 → Cased [c] [c + 32]
  | first {d : UInt8} : 0x90 ≤ d ∧ d ≤ 0x9F → Cased [0xD0,d] [0xD0,d + 0x20]
  | second {d : UInt8} : 0xA0 ≤ d ∧ d ≤ 0xAF → Cased [0xD0,d] [0xD1,d - 0x20]
  | yo : Cased [0xD0,0x81] [0xD1,0x91]

def Blanks (w : Bytes) : Prop := ∀ c ∈ w, blank c = true

/-- One letter in another case, or one run of separators another one; at the ends a run may be missing. -/
inductive Varied : Bytes → Bytes → Prop
  | letter {x y : Bytes} (u v : Bytes) : Cased x y → Varied (u ++ x ++ v) (u ++ y ++ v)
  | blanks {w w' : Bytes} (u v : Bytes) : Blanks w → Blanks w' → (w = [] → u = [] ∨ v = []) → (w' = [] → u = [] ∨ v = []) →
      Varied (u ++ w ++ v) (u ++ w' ++ v)

/-- Texts that differ in the case of letters and in runs of separators only. -/
abbrev Alike : Bytes → Bytes → Prop := Relation.EqvGen Varied

/-- No space in front, at the end or beside another one. -/
def Tidy (s : Bytes) : Prop := s.head? ≠ some 32 ∧ s.getLast? ≠ some 32 ∧ ¬ [32,32] <:+: s

structure Normal (s : Bytes) : Prop where
  idem : qeNormalizeName (qeNormalizeName s) = qeNormalizeName s
  tidy : Tidy (qeNormalizeName s)
  alike : ∀ s', Alike s s' → qeNormalizeName s' = qeNormalizeName s

/-! ### A text as letters, separators and other bytes -/

inductive Sym where
  | sep
  | letter (lower : Bytes)
  | other (b : UInt8)

/-- The small form of a letter of two bytes. -/
def pairLetter (c d : UInt8) : Option Bytes :=
  if c = 0xD0 then
    if (0x80 ≤ d ∧ d ≤ 0xBF) ∧ (d = 0x81 ∨ 0x90 ≤ d) then some (foldPair d) else none
  else if c = 0xD1 then
    if (0x80 ≤ d ∧ d ≤ 0x8F) ∨ d = 0x91 then some [c,d] else none
  else none

def symbols : Bytes → List Sym
  | [] => []
  | c :: s =>
    if blank c then .sep :: symbols s
    else if (65 ≤ c ∧ c ≤ 90) ∨ (97 ≤ c ∧ c ≤ 122) then .letter [lowerByte c] :: symbols s
    else
      match s with
      | [] => [.other c]
      | d :: s =>
        match pairLetter c d with
        | some lower => .letter lower :: symbols s
        | none => .other c :: symbols (d :: s)

/-- An odd number of bytes `D0` that begin no letter, and then a letter, a separator or the end; `odd` counts those behind. -/
def torn (odd : Bool) : List Sym → Bool
  | [] => odd
  | .sep :: xs => odd || torn false xs
  | .letter _ :: xs => odd || torn false xs
  | .other b :: xs => torn (!odd && b = 0xD0) xs

/-- The symbols in small letters with single spaces. -/
def shown (prev : Bool) : List Sym → Bytes
  | [] => []
  | .sep :: xs => if prev then shown true xs else 32 :: shown true xs
  | .letter l :: xs => l ++ shown false xs
  | .other b :: xs => b :: shown false xs

/-- A byte that the loop copies. -/
def copied (c : UInt8) : Bool := !blank c && c ≠ 0xD0 && lowerByte c = c

/-! ### A second pass -/

/-- What the loop leaves as it is. -/
inductive Stable : Bool → Bytes → Prop
  | nil {prev : Bool} : Stable prev []
  | blank {s : Bytes} : Stable true s → Stable false (32 :: s)
  | alone {prev : Bool} : Stable prev [0xD0]
  | pair {prev : Bool} {d : UInt8} {s : Bytes} : foldPair d = [0xD0,d] → Stable false s → Stable prev (0xD0 :: d :: s)
  | byte {prev : Bool} {c : UInt8} {s : Bytes} : copied c = true → Stable false s → Stable prev (c :: s)

theorem foldByte (prev : Bool) {c : UInt8} (plain : blank c = false) (other : c ≠ 0xD0) (s : Bytes) :
    foldName prev (c :: s) = lowerByte c :: foldName false s := by
  rw [foldName.eq_def]
  simp only [plain,Bool.false_eq_true,if_false,other]

theorem foldTwo (prev : Bool) (d : UInt8) (s : Bytes) : foldName prev (0xD0 :: d :: s) = foldPair d ++ foldName false s := by
  rw [foldName.eq_def]
  simp only [show blank 0xD0 = false from rfl,Bool.false_eq_true,if_false,if_true]

theorem foldCopied (prev : Bool) {c : UInt8} (h : copied c = true) (s : Bytes) : foldName prev (c :: s) = c :: foldName false s := by
  simp only [copied,Bool.and_eq_true,Bool.not_eq_true',decide_eq_true_eq] at h
  rw [foldByte prev h.1.1 h.1.2,h.2]

theorem Stable.kept {prev : Bool} {s : Bytes} (h : Stable prev s) : foldName prev s = s := by
  induction h with
  | nil => rw [foldName]
  | blank _ ih =>
    rw [foldName.eq_def]
    simp only [show NormName.blank 32 = true from rfl,if_true,Bool.false_eq_true,if_false,ih]
  | alone => rfl
  | pair same _ ih => rw [foldTwo,same,ih,List.cons_append,List.singleton_append]
  | byte copy _ ih => rw [foldCopied _ copy,ih]

theorem foldPairCases (d : UInt8) : ∃ e, foldPair d = [0xD0,e] ∧ foldPair e = [0xD0,e] ∨ foldPair d = [0xD1,e] ∧ copied e = true := by
  unfold foldPair
  split
  · exact ⟨_,.inl ⟨rfl,by grind⟩⟩
  split
  · exact ⟨_,.inr ⟨rfl,by grind [copied,blank,lowerByte]⟩⟩
  split
  · exact ⟨_,.inr ⟨rfl,by decide⟩⟩
  · exact ⟨_,.inl ⟨rfl,by grind⟩⟩

theorem lowerCopied (c : UInt8) : blank c = false → c ≠ 0xD0 → copied (lowerByte c) = true := by
  grind [copied,blank,lowerByte]

theorem foldStable (prev : Bool) (s : Bytes) : Stable prev (foldName prev s) := by
  fun_induction foldName prev s with
  | case1 => exact .nil
  | case2 _ _ _ ih => exact ih
  | case3 prev _ _ _ first ih =>
    rw [Bool.not_eq_true] at first
    subst first
    exact .blank ih
  | case4 => exact .alone
  | case5 _ d s _ ih =>
    obtain ⟨e,⟨two,same⟩ | ⟨two,copy⟩⟩ := foldPairCases d
    · exact two ▸ .pair same ih
    · exact two ▸ .byte (by decide) (.byte copy ih)
  | case6 _ c s plain other ih => exact .byte (lowerCopied c (by simpa using plain) other) ih

theorem Stable.front {prev : Bool} {s t : Bytes} (h : Stable prev (s ++ t)) : Stable prev s := by
  generalize whole : s ++ t = u at h
  induction h generalizing s with
  | nil => exact (List.append_eq_nil_iff.mp whole).1 ▸ .nil
  | blank _ ih =>
    rcases List.append_eq_cons_iff.mp whole with ⟨rfl,_⟩ | ⟨s,rfl,rest⟩
    · exact .nil
    · exact .blank (ih rest.symm)
  | alone =>
    rcases List.append_eq_cons_iff.mp whole with ⟨rfl,_⟩ | ⟨s,rfl,rest⟩
    · exact .nil
    · rw [(List.append_eq_nil_iff.mp rest.symm).1]
      exact .alone
  | pair same _ ih =>
    rcases List.append_eq_cons_iff.mp whole with ⟨rfl,_⟩ | ⟨s₁,rfl,rest⟩
    · exact .nil
    rcases List.append_eq_cons_iff.mp rest.symm with ⟨rfl,_⟩ | ⟨s₂,rfl,more⟩
    · exact .alone
    · exact .pair same (ih more.symm)
  | byte copy _ ih =>
    rcases List.append_eq_cons_iff.mp whole with ⟨rfl,_⟩ | ⟨s,rfl,rest⟩
    · exact .nil
    · exact .byte copy (ih rest.symm)

/-- A second pass changes nothing, whatever the bytes. -/
theorem normalizeTwice (s : Bytes) : qeNormalizeName (qeNormalizeName s) = qeNormalizeName s := by
  obtain ⟨t,split⟩ := List.rdropWhile_prefix (fun c : UInt8 => decide (c = 32)) (foldName true s)
  have stable : Stable true ((foldName true s).rdropWhile (· = 32)) := (split ▸ foldStable true s).front
  rw [qeNormalizeName,qeNormalizeName,stable.kept,List.rdropWhile_idempotent]

/-! ### Texts and their symbols -/

/-- No second byte of a letter comes first. -/
def Apart (s : Bytes) : Prop := ∀ c ∈ s.head?, ¬ (0x80 ≤ c ∧ c ≤ 0xBF)

theorem pairTail {c d : UInt8} {lower : Bytes} (is : pairLetter c d = some lower) : 0x80 ≤ d ∧ d ≤ 0xBF := by
  unfold pairLetter at is
  split at is
  · split at is
    · rename_i both
      exact both.1
    · cases is
  split at is
  · split at is
    · rename_i range
      rcases range with h | rfl
      · exact ⟨h.1,UInt8.le_trans h.2 (by decide)⟩
      · decide
    · cases is
  · cases is

theorem symbolsAppend (u : Bytes) {r : Bytes} (apart : Apart r) : symbols (u ++ r) = symbols u ++ symbols r := by
  fun_induction symbols u with
  | case1 => rfl
  | case2 c s is ih => rw [List.cons_append,symbols.eq_def]; simp only [is,if_true,ih,List.cons_append]
  | case3 c s not is ih => rw [List.cons_append,symbols.eq_def]; simp only [not,is,if_true,ih,List.cons_append,Bool.false_eq_true,if_false]
  | case4 c not other =>
    cases r with
    | nil => rw [List.append_nil,symbols.eq_def]; simp only [not,other,if_false,Bool.false_eq_true]; rfl
    | cons d r =>
      have no : pairLetter c d = none := by
        cases is : pairLetter c d with
        | none => rfl
        | some lower => exact absurd (pairTail is) (apart d rfl)
      rw [List.cons_append,List.nil_append,symbols.eq_def]
      simp only [not,other,if_false,Bool.false_eq_true,no]
      rfl
  | case5 c not other d s lower is ih =>
    rw [List.cons_append,List.cons_append,symbols.eq_def]
    simp only [not,other,if_false,Bool.false_eq_true,is,ih]
    rfl
  | case6 c not other d s is ih =>
    rw [List.cons_append,List.cons_append,symbols.eq_def]
    simp only [not,other,if_false,Bool.false_eq_true,is]
    exact congrArg (Sym.other c :: ·) ih

/-- The letters of one byte and of two. -/
theorem symbolsOne {c : UInt8} (is : (65 ≤ c ∧ c ≤ 90) ∨ (97 ≤ c ∧ c ≤ 122)) (v : Bytes) :
    symbols (c :: v) = .letter [lowerByte c] :: symbols v := by
  have plain : blank c = false := by grind [blank]
  rw [symbols.eq_def]
  simp only [plain,is,Bool.false_eq_true,if_false,if_true]

theorem symbolsTwo {c d : UInt8} {lower : Bytes} (is : pairLetter c d = some lower) (v : Bytes) :
    symbols (c :: d :: v) = .letter lower :: symbols v := by
  have lead : c = 0xD0 ∨ c = 0xD1 := by
    unfold pairLetter at is
    split at is
    · exact .inl ‹_›
    split at is
    · exact .inr ‹_›
    · cases is
  have plain : blank c = false ∧ ¬ ((65 ≤ c ∧ c ≤ 90) ∨ (97 ≤ c ∧ c ≤ 122)) := by
    rcases lead with rfl | rfl <;> decide
  rw [symbols.eq_def]
  simp only [plain.1,plain.2,Bool.false_eq_true,if_false,is]

/-- Both forms of a letter give the same symbol, whatever stands around. -/
theorem casedSymbols {x y : Bytes} (h : Cased x y) (v : Bytes) : symbols (x ++ v) = .letter y :: symbols v ∧
    symbols (y ++ v) = .letter y :: symbols v ∧ Apart (x ++ v) ∧ Apart (y ++ v) := by
  cases h with
  | @latin c range =>
    have facts : lowerByte c = c + 32 ∧ (97 ≤ c + 32 ∧ c + 32 ≤ 122) ∧ lowerByte (c + 32) = c + 32 ∧ ¬ (0x80 ≤ c ∧ c ≤ 0xBF) ∧
        ¬ (0x80 ≤ c + 32 ∧ c + 32 ≤ 0xBF) := by grind [lowerByte]
    obtain ⟨low,small,twice,apart,apart'⟩ := facts
    refine ⟨?_,?_,?_,?_⟩
    · rw [List.singleton_append,symbolsOne (.inl range),low]
    · rw [List.singleton_append,symbolsOne (.inr small),twice]
    · rintro _ ⟨⟩; exact apart
    · rintro _ ⟨⟩; exact apart'
  | @first d range =>
    have facts : pairLetter 0xD0 d = some [0xD0,d + 0x20] ∧ pairLetter 0xD0 (d + 0x20) = some [0xD0,d + 0x20] := by
      grind [pairLetter,foldPair]
    exact ⟨symbolsTwo facts.1 v,symbolsTwo facts.2 v,by rintro _ ⟨⟩; decide,by rintro _ ⟨⟩; decide⟩
  | @second d range =>
    have facts : pairLetter 0xD0 d = some [0xD1,d - 0x20] ∧ pairLetter 0xD1 (d - 0x20) = some [0xD1,d - 0x20] := by
      grind [pairLetter,foldPair]
    exact ⟨symbolsTwo facts.1 v,symbolsTwo facts.2 v,by rintro _ ⟨⟩; decide,by rintro _ ⟨⟩; decide⟩
  | yo => exact ⟨symbolsTwo (by decide) v,symbolsTwo (by decide) v,by rintro _ ⟨⟩; decide,by rintro _ ⟨⟩; decide⟩

theorem blanksSymbols {w : Bytes} (h : Blanks w) (v : Bytes) : symbols (w ++ v) = List.replicate w.length .sep ++ symbols v := by
  induction w with
  | nil => rfl
  | cons c w ih =>
    have is : blank c = true := h c List.mem_cons_self
    rw [List.cons_append,symbols.eq_def]
    simp only [is,if_true,ih fun d mem => h d (List.mem_cons_of_mem _ mem),List.length_cons,List.replicate_succ,List.cons_append]

theorem blanksApart {w : Bytes} (h : Blanks w) (some_ : w ≠ []) (v : Bytes) : Apart (w ++ v) := by
  cases w with
  | nil => exact absurd rfl some_
  | cons c w =>
    rintro _ ⟨⟩
    have is := h c List.mem_cons_self
    grind [blank]

end Napastak.NormName
