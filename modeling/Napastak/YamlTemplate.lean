import Mathlib.Data.List.DropRight
import Mathlib.Data.List.Infix
import Napastak.Lib.Table
import Napastak.Split

/-! `yaml_template.c`: `vars:` is cut out of the text, `\x7b\x7b name \x7d\x7d` is replaced. -/
namespace Napastak.YamlTemplate
open Store (cstr cstrSelf)
open Table

def maxVars : Nat := 128

def maxVal : Nat := 1024

def blank (c : UInt8) : Bool := c = 32 ∨ c = 9 ∨ c = 13 ∨ c = 10

def trim (s : Bytes) : Bytes := (s.dropWhile blank).rdropWhile blank

/-- One layer of quotes. -/
def unquote (s : Bytes) : Bytes :=
  if 2 ≤ s.length ∧ ((s.head? = some 34 ∧ s.getLast? = some 34) ∨ (s.head? = some 39 ∧ s.getLast? = some 39)) then s.tail.dropLast else s

def trimmed (s : Bytes) : Bytes := unquote (trim s)

def trimDup (s : Bytes) : Bytes := cstr ((trimmed s).take (maxVal - 1))

/-- The lines, each with its newline. -/
def rawLines : Bytes → List Bytes
  | [] => []
  | c :: s => if c = 10 then [10] :: rawLines s else ((c :: (rawLines s).headD []) :: (rawLines s).tail)

def content (line : Bytes) : Bytes := line.takeWhile (· ≠ 10)

def indented (line : Bytes) : Bool := line.head? = some 32 ∨ line.head? = some 9

def header (line : Bytes) : Bool := ¬indented line ∧ trimDup (content line) = ascii "vars:"

/-- The text up to the first colon and the text behind it. -/
def atColon (s : Bytes) : Option (Bytes × Bytes) :=
  if 58 ∈ s then some (s.takeWhile (· ≠ 58),(s.dropWhile (· ≠ 58)).tail) else none

def entry (line : Bytes) : Option (Bytes × Bytes) :=
  (atColon line).bind fun e => if trimDup e.1 = [] then none else some (trimDup e.1,trimDup e.2)

/-- Where `vars:` stands, and its lines with those that are indented behind it. -/
def findVars : Nat → List Bytes → Option (Nat × List Bytes)
  | _, [] => none
  | i, l :: ls => if header l then some (i,l :: ls.takeWhile indented) else findVars (i + l.length) ls

def fileVars (lines : List Bytes) : List (Bytes × Bytes) := (lines.filterMap fun l => entry (content l)).take maxVars

/-- `keys` and `vals`; a key that is missing is left out. -/
def callerVars (kvs : List (Option Bytes × Option Bytes)) : List (Bytes × Bytes) :=
  kvs.filterMap fun e => e.1.map fun key => (key,e.2.getD [])

/-- The text up to `\x7d\x7d`. -/
def closing : Bytes → Option Bytes
  | [] => none
  | c :: s => if c = 125 ∧ s.head? = some 125 then some [] else (c :: ·) <$> closing s

def token : Bytes → Option Bytes
  | 123 :: 123 :: s => closing s
  | _ => none

def verbatim (name : Bytes) : Bytes := 123 :: 123 :: (name ++ [125,125])

/-- The last loop; `k` bytes are done already, `cut` is the part that is left out. -/
def emit (f : Bytes → Option Bytes) (cut : Option (Nat × Nat)) : Nat → Nat → Bytes → Bytes
  | _, _, [] => []
  | k + 1, i, _ :: s => emit f cut k (i + 1) s
  | 0, i, c :: s =>
    match cut.filter fun e => e.1 = i with
    | some e => emit f cut (e.2 - i - 1) (i + 1) s
    | none =>
      match token (c :: s) with
      | some name => (f name).getD (verbatim name) ++ emit f cut (name.length + 3) (i + 1) s
      | none => c :: emit f cut 0 (i + 1) s

def dict (lines : List Bytes) (kvs : List (Option Bytes × Option Bytes)) : List (Bytes × Bytes) :=
  puts maxVars (fileVars lines) (callerVars kvs)

/-- `yaml_expand_vars`, where memory does not run out. -/
def yamlExpandVars (src : Bytes) (kvs : List (Option Bytes × Option Bytes)) : Bytes :=
  let found := findVars 0 (rawLines src)
  let lines := found.elim [] fun e => e.2.tail
  emit (fun name => (dict lines kvs).lookup (trimDup name)) (found.map fun e => (e.1,e.1 + e.2.flatten.length)) 0 0 src

/-- The text with every token that `f` knows replaced. -/
def fill (f : Bytes → Option Bytes) : Nat → Bytes → Bytes
  | _, [] => []
  | k + 1, _ :: s => fill f k s
  | 0, c :: s =>
    match token (c :: s) with
    | some name => (f name).getD (verbatim name) ++ fill f (name.length + 3) s
    | none => c :: fill f 0 s

section
variable {f : Bytes → Option Bytes} {cut : Option (Nat × Nat)}

theorem emitNone (k i : Nat) (s : Bytes) : emit f none k i s = fill f k s := by
  induction s generalizing k i with
  | nil => rw [emit,fill]
  | cons c s ih =>
    cases k with
    | succ k => rw [emit,fill,ih]
    | zero =>
      rw [emit,fill]
      simp only [Option.filter_none,ih]

/-- Behind the part that is left out. -/
theorem emitPast {e : Nat × Nat} {i : Nat} (past : e.1 < i) (k : Nat) (s : Bytes) : emit f (some e) k i s = fill f k s := by
  induction s generalizing k i with
  | nil => rw [emit,fill]
  | cons c s ih =>
    cases k with
    | succ k => rw [emit,fill,ih (by omega)]
    | zero =>
      have other : (some e).filter (fun e => e.1 = i) = none := by simp [Option.filter]; omega
      rw [emit,fill,other]
      simp only [ih (i := i + 1) (by omega)]

theorem fillSkip (a s : Bytes) : fill f a.length (a ++ s) = fill f 0 s := by
  induction a with
  | nil => rfl
  | cons c a ih => exact ih

theorem closingNone {s : Bytes} : closing s = none ↔ ¬[125,125] <:+: s := by
  induction s with
  | nil => simp [closing]
  | cons c s ih =>
    rw [closing,List.infix_cons_iff,List.cons_prefix_cons]
    cases s with
    | nil => simp [closing]
    | cons d s =>
      by_cases both : c = 125 ∧ d = 125
      · simp [both]
      · have apart : ¬(c = 125 ∧ (d :: s).head? = some 125) := by simpa using both
        have out : ¬((125 : UInt8) = c ∧ [125] <+: d :: s) := by
          rw [List.cons_prefix_cons]
          exact fun h => both ⟨h.1.symm,h.2.1.symm⟩
        rw [if_neg apart,not_or,← ih,and_iff_right out]
        simp

theorem closingAppend {s name : Bytes} (closes : closing s = some name) (t : Bytes) : closing (s ++ t) = some name := by
  induction s generalizing name with
  | nil => cases closes
  | cons c s ih =>
    rw [closing] at closes
    rw [List.cons_append,closing]
    split at closes
    · rename_i both
      have head : (s ++ t).head? = some 125 := by
        cases s with
        | nil => simp at both
        | cons d s => exact both.2
      rw [if_pos ⟨both.1,head⟩,closes]
    · rename_i apart
      obtain ⟨rest,tail,rfl⟩ := Option.map_eq_some_iff.mp closes
      have nonempty : s ≠ [] := fun h => by simp [h,closing] at tail
      have head : (s ++ t).head? = s.head? := by
        cases s with
        | nil => exact absurd rfl nonempty
        | cons d s => rfl
      rw [head,if_neg apart,ih tail]
      rfl

/-- The name of a token is in the text and holds no closing braces. -/
theorem closingIs {s name : Bytes} (closes : closing s = some name) : ¬[125,125] <:+: name ∧ name ++ [125,125] <+: s := by
  induction s generalizing name with
  | nil => cases closes
  | cons c s ih =>
    rw [closing] at closes
    split at closes
    · rename_i both
      obtain rfl := Option.some.inj closes
      cases s with
      | nil => simp at both
      | cons d s =>
        obtain ⟨rfl,same⟩ := both
        obtain rfl : d = 125 := by simpa using same
        simp
    · rename_i apart
      obtain ⟨rest,tail,rfl⟩ := Option.map_eq_some_iff.mp closes
      obtain ⟨free,t,rfl⟩ := ih tail
      refine ⟨?_,t,rfl⟩
      rw [List.infix_cons_iff,not_or,List.cons_prefix_cons]
      refine ⟨?_,free⟩
      rintro ⟨rfl,first⟩
      refine apart ⟨rfl,?_⟩
      cases rest with
      | nil => simp at first
      | cons d rest => simpa [eq_comm] using first

/-- Two braces that are left open stay open with the text that follows. -/
def Sealed (s t : Bytes) : Prop := ∀ b, 123 :: 123 :: b <:+ s → closing b = none → closing (b ++ t) = none

theorem sealedTail {c : UInt8} {s t : Bytes} (sealed_ : Sealed (c :: s) t) : Sealed s t :=
  fun b at_ => sealed_ b (at_.trans (List.suffix_cons c s))

theorem tokenIs {s name : Bytes} : token s = some name ↔ ∃ t, s = 123 :: 123 :: t ∧ closing t = some name := by
  rw [token.eq_def]
  split
  · simp
  · rename_i other
    simp only [reduceCtorEq,false_iff]
    rintro ⟨t,rfl,-⟩
    exact other t rfl

/-- Whole lines. -/
def Whole (s : Bytes) : Prop := s = [] ∨ s.getLast? = some 10

theorem wholeTail {c : UInt8} {s : Bytes} (whole : Whole (c :: s)) : Whole s := by
  cases s with
  | nil => exact .inl rfl
  | cons d s =>
    have ends := whole.resolve_left (List.cons_ne_nil c _)
    rw [List.getLast?_cons_cons] at ends
    exact .inr ends

theorem tokenAppend {s t : Bytes} (sealed_ : Sealed s t) (whole : Whole s) (some_ : s ≠ []) : token (s ++ t) = token s := by
  obtain ⟨c,rfl⟩ | ⟨c,d,s,rfl⟩ : (∃ c, s = [c]) ∨ ∃ c d s', s = c :: d :: s' := by
    cases s with
    | nil => exact absurd rfl some_
    | cons c s =>
      cases s with
      | nil => exact .inl ⟨c,rfl⟩
      | cons d s => exact .inr ⟨c,d,s,rfl⟩
  · obtain rfl : c = 10 := by simpa [Whole] using whole
    rfl
  · by_cases braces : c = 123 ∧ d = 123
    · obtain ⟨rfl,rfl⟩ := braces
      change closing (s ++ t) = closing s
      cases closes : closing s with
      | none => exact sealed_ s (List.suffix_refl _) closes
      | some name => exact closingAppend closes t
    · have out (u : Bytes) : token (c :: d :: u) = none := by
        rw [token.eq_def]
        split
        · rename_i same
          injection same with first same
          injection same with second
          exact absurd ⟨first,second⟩ braces
        · rfl
      rw [List.cons_append,List.cons_append,out,out]

theorem tokenLength {s name : Bytes} (is : token s = some name) : name.length + 4 ≤ s.length := by
  obtain ⟨t,rfl,closes⟩ := tokenIs.mp is
  have length := (closingIs closes).2.length_le
  simp only [List.length_append,List.length_cons,List.length_nil] at length ⊢
  omega

/-- Lines whose tokens are closed in them are done before what follows. -/
theorem emitFront {s t : Bytes} (sealed_ : Sealed s t) (whole : Whole s) {k : Nat} (within : k ≤ s.length) {i : Nat}
    (later : ∀ e ∈ cut, i + s.length ≤ e.1) : emit f cut k i (s ++ t) = fill f k s ++ emit f cut 0 (i + s.length) t := by
  induction s generalizing k i with
  | nil =>
    obtain rfl : k = 0 := Nat.le_zero.mp within
    rfl
  | cons c s ih =>
    rw [List.length_cons] at within later
    have next {k : Nat} (within : k ≤ s.length) : emit f cut k (i + 1) (s ++ t) = fill f k s ++ emit f cut 0 (i + (s.length + 1)) t := by
      have place : i + 1 + s.length = i + (s.length + 1) := by omega
      rw [ih (sealedTail sealed_) (wholeTail whole) within fun e mem => by have := later e mem; omega,place]
    rw [List.length_cons,List.cons_append]
    cases k with
    | succ k => rw [emit,fill,next (by omega)]
    | zero =>
      have other : cut.filter (fun e => e.1 = i) = none := by
        cases cut with
        | none => rfl
        | some e =>
          have := later e rfl
          simp [Option.filter]
          omega
      have same := tokenAppend sealed_ whole (List.cons_ne_nil c s)
      rw [List.cons_append] at same
      rw [emit,fill,other,same]
      cases is : token (c :: s) with
      | none =>
        dsimp only
        rw [next (Nat.zero_le _),List.cons_append]
      | some name =>
        have length := tokenLength is
        rw [List.length_cons] at length
        dsimp only
        rw [next (by omega),List.append_assoc]

theorem fillFront {s t : Bytes} (sealed_ : Sealed s t) (whole : Whole s) : fill f 0 (s ++ t) = fill f 0 s ++ fill f 0 t := by
  rw [← emitNone 0 0 (s ++ t),emitFront sealed_ whole (Nat.zero_le _) (fun e mem => by cases mem),emitNone]

/-- The whole text but for the part that is left out. -/
theorem emitAround {pre part post : Bytes} (some_ : part ≠ []) (whole : Whole pre) (above : Sealed pre (part ++ post)) (beside : Sealed pre post) :
    emit f (some (pre.length,pre.length + part.length)) 0 0 (pre ++ part ++ post) = fill f 0 (pre ++ post) := by
  rw [List.append_assoc,emitFront above whole (Nat.zero_le _) (fun e mem => by cases mem; omega),fillFront beside whole,Nat.zero_add]
  congr 1
  cases part with
  | nil => exact absurd rfl some_
  | cons c part =>
    rw [List.cons_append,emit]
    simp only [Option.filter_some,decide_true,if_true]
    rw [emitPast (by simp),List.length_cons]
    have skip : pre.length + (part.length + 1) - pre.length - 1 = part.length := by omega
    rw [skip,fillSkip]

/-- What `f` says of a text that no token can hold does not matter. -/
theorem fillCongr {g : Bytes → Option Bytes} {s : Bytes} (text : 0 ∉ s) (same : ∀ n, ¬[125,125] <:+: n → 0 ∉ n → f n = g n) (k : Nat) :
    fill f k s = fill g k s := by
  induction s generalizing k with
  | nil => rw [fill,fill]
  | cons c s ih =>
    have later : 0 ∉ s := fun h => text (List.mem_cons_of_mem _ h)
    cases k with
    | succ k => rw [fill,fill,ih later]
    | zero =>
      rw [fill,fill]
      cases is : token (c :: s) with
      | none => simp only [ih later]
      | some name =>
        obtain ⟨t,at_,closes⟩ := tokenIs.mp is
        obtain ⟨free,within⟩ := closingIs closes
        have clean : 0 ∉ name := fun h => text (at_ ▸ List.mem_cons_of_mem _ (List.mem_cons_of_mem _ (within.subset (List.mem_append_left _ h))))
        simp only [same name free clean,ih later]

end

end Napastak.YamlTemplate
