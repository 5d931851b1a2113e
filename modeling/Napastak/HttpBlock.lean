import Napastak.Http
import Napastak.SplitJoin
import Napastak.Lib.Seek

/-! The header block of a request: where its end and its Content-Length are found, and what is parsed from it. -/
namespace Napastak.Http
open Auth (strstr)
open Store (cstr cstrSelf)
open Seek

/-! ### The blank line -/

theorem PlainText.not {s : Bytes} (plain : PlainText s) : 0 ∉ s ∧ 10 ∉ s ∧ 13 ∉ s :=
  ⟨fun mem => (plain 0 mem).1 rfl,fun mem => (plain 10 mem).2.1 rfl,fun mem => (plain 13 mem).2.2 rfl⟩

theorem blockCons (eol l : Bytes) (ls : List Bytes) : block eol (l :: ls) = l ++ (eol ++ block eol ls) := by
  simp only [block,List.flatMap_cons,List.append_assoc]

theorem patternHead {c : UInt8} {n t : Bytes} (here : (c :: n).isPrefixOf t = true) : t.head? = some c := by
  cases t with
  | nil => cases here
  | cons b t =>
    rw [List.isPrefixOf,Bool.and_eq_true,beq_iff_eq] at here
    rw [here.1,List.head?_cons]

theorem strstrSkip {c : UInt8} {n x : Bytes} (plain : c ∉ x) (r : Bytes) : strstr (x ++ r) (c :: n) = strstr r (c :: n) :=
  seekSkip (fun _ => patternHead) plain r

theorem strstrNone {s n : Bytes} : strstr s n = none ↔ ¬ n <:+: s := patternNone

variable {ls : List Bytes} (plain : ∀ l ∈ ls, PlainText l ∧ l ≠ [])
include plain

theorem blankCrlf (some_ : ls ≠ []) (z : Bytes) : strstr (block [13, 10] ls ++ z) crlfCrlf = some (crlfCrlf ++ z) := by
  induction ls with
  | nil => exact absurd rfl some_
  | cons l ls ih =>
    rw [blockCons,List.append_assoc,crlfCrlf,strstrSkip (plain l List.mem_cons_self).1.not.2.2]
    cases ls with
    | nil => exact seekHere rfl
    | cons l' ls =>
      obtain ⟨text,some'⟩ := plain l' (List.mem_cons_of_mem _ List.mem_cons_self)
      have later := ih (fun x mem => plain x (List.mem_cons_of_mem _ mem)) (List.cons_ne_nil _ _)
      rw [blockCons] at later ⊢
      cases l' with
      | nil => exact absurd rfl some'
      | cons c l' =>
        have other : c ≠ 13 := (text c List.mem_cons_self).2.2
        refine (seekLater ?_).trans ((seekLater rfl).trans later)
        simp [List.isPrefixOf,Ne.symm other]

theorem blankLf (some_ : ls ≠ []) (z : Bytes) : strstr (block [10] ls ++ z) lfLf = some (lfLf ++ z) := by
  induction ls with
  | nil => exact absurd rfl some_
  | cons l ls ih =>
    rw [blockCons,List.append_assoc,lfLf,strstrSkip (plain l List.mem_cons_self).1.not.2.1]
    cases ls with
    | nil => exact seekHere rfl
    | cons l' ls =>
      obtain ⟨text,some'⟩ := plain l' (List.mem_cons_of_mem _ List.mem_cons_self)
      have later := ih (fun x mem => plain x (List.mem_cons_of_mem _ mem)) (List.cons_ne_nil _ _)
      rw [blockCons] at later ⊢
      cases l' with
      | nil => exact absurd rfl some'
      | cons c l' =>
        have other : c ≠ 10 := (text c List.mem_cons_self).2.1
        refine (seekLater ?_).trans later
        simp [List.isPrefixOf,Ne.symm other]

theorem crlfBlockNoLfLf : strstr (block [13, 10] ls) lfLf = none := by
  induction ls with
  | nil => rfl
  | cons l ls ih =>
    have later := ih fun x mem => plain x (List.mem_cons_of_mem _ mem)
    rw [blockCons,lfLf,strstrSkip (plain l List.mem_cons_self).1.not.2.1,List.cons_append]
    refine (seekLater rfl).trans ((seekLater ?_).trans later)
    cases ls with
    | nil => rfl
    | cons l' ls =>
      obtain ⟨text,some'⟩ := plain l' (List.mem_cons_of_mem _ List.mem_cons_self)
      cases l' with
      | nil => exact absurd rfl some'
      | cons c l' =>
        have other : c ≠ 10 := (text c List.mem_cons_self).2.1
        rw [blockCons]
        simp [List.isPrefixOf,Ne.symm other]

theorem lfBlockNoCr : 13 ∉ block [10] ls := by
  intro mem
  rcases List.mem_append.mp mem with line | last
  · obtain ⟨l,own,here⟩ := List.mem_flatMap.mp line
    rcases List.mem_append.mp here with inside | eol
    · exact (plain l own).1.not.2.2 inside
    · exact absurd eol (by decide)
  · exact absurd last (by decide)

theorem blockNoNul {eol : Bytes} (eolNoNul : 0 ∉ eol) : 0 ∉ block eol ls := by
  intro mem
  rcases List.mem_append.mp mem with line | last
  · obtain ⟨l,own,here⟩ := List.mem_flatMap.mp line
    rcases List.mem_append.mp here with inside | eol
    · exact (plain l own).1.not.1 inside
    · exact eolNoNul eol
  · exact eolNoNul last

omit plain

theorem Parts.eolCases (r : Parts) : r.crlf = true ∧ r.eol = [13, 10] ∨ r.crlf = false ∧ r.eol = [10] := by
  cases is : r.crlf with
  | true => exact Or.inl ⟨rfl,by rw [Parts.eol,is]; rfl⟩
  | false => exact Or.inr ⟨rfl,by rw [Parts.eol,is]; rfl⟩

theorem Request.allPlain (r : Request) : ∀ l ∈ r.requestLine :: r.lines, PlainText l ∧ l ≠ [] := by
  intro l mem
  rcases List.mem_cons.mp mem with rfl | line
  · refine ⟨fun c here => ?_,by rw [Parts.requestLine]; simp⟩
    have blank : (32 : UInt8) ≠ 0 ∧ (32 : UInt8) ≠ 10 ∧ (32 : UInt8) ≠ 13 := by decide
    rcases List.mem_append.mp here with method | here
    · exact r.methodPlain.1 c method
    rcases List.mem_cons.mp here with rfl | here
    · exact blank
    rcases List.mem_append.mp here with path | here
    · exact r.pathPlain.1 c path
    rcases List.mem_cons.mp here with rfl | version
    · exact blank
    · exact r.versionPlain c version
  · exact r.linesPlain l line

theorem Request.headNoNul (r : Request) : 0 ∉ r.head :=
  blockNoNul r.allPlain (by rcases r.eolCases with ⟨_,is⟩ | ⟨_,is⟩ <;> rw [is] <;> decide)

theorem cstrAppend {x : Bytes} (noNul : 0 ∉ x) (z : Bytes) : cstr (x ++ z) = x ++ cstr z :=
  List.takeWhile_append_of_pos fun _ mem => decide_eq_true fun is => noNul (is ▸ mem)

theorem infixNone {s t n : Bytes} (none_ : strstr s n = none) (inside : t <:+: s) : strstr t n = none :=
  strstrNone.mpr fun here => strstrNone.mp none_ (here.trans inside)

/-- Before its last byte has come, no end of the header block is seen. -/
theorem headerUnfinished (r : Request) {u : Bytes} (short : u <+: r.head) (less : u.length < r.head.length) :
    headerLen u = none := by
  have noNul : 0 ∉ u := fun mem => r.headNoNul (short.subset mem)
  have lines := List.cons_ne_nil r.requestLine r.lines
  have both : strstr u crlfCrlf = none ∧ strstr u lfLf = none := by
    rcases r.eolCases with ⟨_,eol⟩ | ⟨_,eol⟩
    · have is : r.head = block [13, 10] (r.requestLine :: r.lines) := by rw [Parts.head,eol]
      have end_ := blankCrlf r.allPlain lines []
      rw [List.append_nil,List.append_nil,← is] at end_
      exact ⟨patternUnfinished end_ short less,infixNone (crlfBlockNoLfLf r.allPlain) (is ▸ short.isInfix)⟩
    · have is : r.head = block [10] (r.requestLine :: r.lines) := by rw [Parts.head,eol]
      have end_ := blankLf r.allPlain lines []
      rw [List.append_nil,List.append_nil,← is] at end_
      refine ⟨strstrNone.mpr fun inside => ?_,patternUnfinished end_ short less⟩
      have cr : (13 : UInt8) ∈ r.head := short.subset (inside.subset (by decide))
      rw [is] at cr
      exact lfBlockNoCr r.allPlain cr
  rw [headerLen,cstrSelf noNul,both.1,both.2]
  rfl

theorem headerFound (r : Request) (z : Bytes) (noCrlf : r.crlf = false → ¬ crlfCrlf <:+: cstr (r.head ++ z)) :
    headerLen (r.head ++ z) = some r.head.length := by
  have lines := List.cons_ne_nil r.requestLine r.lines
  have text := cstrAppend r.headNoNul z
  rcases r.eolCases with ⟨_,eol⟩ | ⟨lf,eol⟩
  · have is : r.head = block [13, 10] (r.requestLine :: r.lines) := by rw [Parts.head,eol]
    have long : 4 ≤ r.head.length := by
      have found := (seekSound (blankCrlf r.allPlain lines [])).1.length_le
      rwa [List.append_nil,List.append_nil,← is] at found
    have here : strstr (cstr (r.head ++ z)) crlfCrlf = some (crlfCrlf ++ cstr z) := by
      rw [text,is]
      exact blankCrlf r.allPlain lines _
    rw [headerLen,here]
    simp only [text,List.length_append,show crlfCrlf.length = 4 from rfl]
    congr 1
    omega
  · have is : r.head = block [10] (r.requestLine :: r.lines) := by rw [Parts.head,eol]
    have long : 2 ≤ r.head.length := by
      have found := (seekSound (blankLf r.allPlain lines [])).1.length_le
      rwa [List.append_nil,List.append_nil,← is] at found
    have here : strstr (cstr (r.head ++ z)) lfLf = some (lfLf ++ cstr z) := by
      rw [text,is]
      exact blankLf r.allPlain lines _
    rw [headerLen,strstrNone.mpr (noCrlf lf),here]
    simp only [Option.map_some,text,List.length_append,show lfLf.length = 2 from rfl]
    congr 1
    omega

theorem crBehind {x z before t : Bytes} (noCr : 13 ∉ x) (split : x ++ z = before ++ 13 :: t) : x.length ≤ before.length := by
  by_contra less
  have at_ := congrArg (fun s => s[before.length]?) split
  simp only [List.getElem?_append_left (Nat.not_le.mp less),List.getElem?_append_right (Nat.le_refl _),Nat.sub_self,
    List.getElem?_cons_zero] at at_
  exact noCr (List.mem_of_getElem? at_)

theorem Request.headNoCr (r : Request) (lf : r.crlf = false) : 13 ∉ r.head := by
  have eol : r.eol = [10] := by rw [Parts.eol,lf]; rfl
  rw [Parts.head,eol]
  exact lfBlockNoCr r.allPlain

/-- Two bytes are too few for a blank line of CRLFs. -/
theorem noCrlfYet (r : Request) (lf : r.crlf = false) {z : Bytes} (short : z.length ≤ 2) : ¬ crlfCrlf <:+: cstr (r.head ++ z) := by
  rintro ⟨before,after,is⟩
  rw [cstrAppend r.headNoNul] at is
  have behind := crBehind (r.headNoCr lf) (is.symm.trans (by rw [crlfCrlf,List.append_assoc]; rfl))
  have cut : (cstr z).length ≤ z.length := (List.takeWhile_prefix _).length_le
  have lengths := congrArg List.length is
  simp only [List.length_append,show crlfCrlf.length = 4 from rfl] at lengths
  omega

/-- A blank line of CRLFs behind a block of bare LFs is taken for its end. -/
theorem headerLate (r : Request) (z : Bytes) (lf : r.crlf = false) (crlf : crlfCrlf <:+: cstr (r.head ++ z)) :
    ∃ n, headerLen (r.head ++ z) = some n ∧ r.head.length < n ∧ n ≤ (r.head ++ z).length := by
  cases found : strstr (cstr (r.head ++ z)) crlfCrlf with
  | none => exact absurd crlf (strstrNone.mp found)
  | some he =>
    obtain ⟨⟨before,split⟩,here⟩ := seekSound found
    obtain ⟨after,is⟩ := List.isPrefixOf_iff_prefix.mp here
    have text := cstrAppend r.headNoNul z
    have behind : r.head.length ≤ before.length := by
      rw [text,← is] at split
      exact crBehind (r.headNoCr lf) (split.symm.trans (by rw [crlfCrlf]; rfl))
    have cut : (cstr (r.head ++ z)).length ≤ (r.head ++ z).length := (List.takeWhile_prefix _).length_le
    have lengths := congrArg List.length split
    have inside := congrArg List.length is
    simp only [List.length_append,show crlfCrlf.length = 4 from rfl] at lengths inside
    refine ⟨_,by rw [headerLen,found],?_,?_⟩ <;> omega

/-! ### Content-Length -/

theorem tolowerOther {c d : UInt8} (low : d < 65) (is : tolower c = d) : c = d := by
  rw [tolower] at is
  split at is
  · rename_i upper
    have a : 65 ≤ c.toNat := UInt8.le_iff_toNat_le.mp upper.1
    have b : c.toNat ≤ 90 := UInt8.le_iff_toNat_le.mp upper.2
    have sum : (c + 32).toNat = c.toNat + 32 := by
      rw [UInt8.toNat_add]
      exact Nat.mod_eq_of_lt (by simp; omega)
    have small : d.toNat < 65 := UInt8.lt_iff_toNat_lt.mp low
    rw [← is,sum] at small
    omega
  · exact is

/-- What starts a Content-Length line has neither a blank nor a line end in its first bytes, and a colon there. -/
theorem startsLengthBytes {s : Bytes} (starts : startsLength s = true) :
    (32 ∉ s.take 15 ∧ 10 ∉ s.take 15 ∧ 13 ∉ s.take 15) ∧ 58 ∈ s.take 15 ∧ 15 ≤ s.length := by
  have is : (s.take 15).map tolower = ascii "content-length:" := of_decide_eq_true starts
  have absent : ∀ d : UInt8, tolower d = d → d ∉ ascii "content-length:" → d ∉ s.take 15 := fun d same out mem => by
    have there := List.mem_map_of_mem (f := tolower) mem
    rw [is,same] at there
    exact out there
  refine ⟨⟨absent 32 (by decide) (by decide),absent 10 (by decide) (by decide),absent 13 (by decide) (by decide)⟩,?_,?_⟩
  · have there : (58 : UInt8) ∈ (s.take 15).map tolower := by rw [is]; decide
    obtain ⟨c,mem,colon⟩ := List.mem_map.mp there
    rwa [tolowerOther (by decide) colon] at mem
  · have lengths := congrArg List.length is
    rw [List.length_map,List.length_take,show (ascii "content-length:").length = 15 from rfl] at lengths
    omega

theorem startsLengthAppend {l : Bytes} (eol : UInt8) (x : Bytes) (end_ : eol = 10 ∨ eol = 13) :
    startsLength (l ++ eol :: x) = startsLength l := by
  by_cases long : 15 ≤ l.length
  · rw [startsLength,startsLength,List.take_append_of_le_length long]
  · have not : ∀ s : Bytes, (15 ≤ s.length → 10 ∈ s.take 15 ∨ 13 ∈ s.take 15) → startsLength s = false := fun s bad =>
      Bool.eq_false_iff.mpr fun starts => by
        obtain ⟨⟨_,noLf,noCr⟩,_,len⟩ := startsLengthBytes starts
        rcases bad len with lf | cr
        · exact noLf lf
        · exact noCr cr
    rw [not l fun len => absurd len long,not _ fun _ => ?_]
    have here : eol ∈ (l ++ eol :: x).take 15 := by
      rw [List.take_append]
      obtain ⟨k,is⟩ := Nat.exists_eq_add_of_lt (Nat.not_le.mp long)
      rw [show 15 - l.length = k + 1 by omega]
      exact List.mem_append_right _ List.mem_cons_self
    rcases end_ with rfl | rfl
    · exact Or.inl here
    · exact Or.inr here

theorem lengthLineHead {t : Bytes} (here : lengthLine t = true) : t.head? = some 10 := by
  simp only [lengthLine,Bool.and_eq_true,decide_eq_true_eq] at here
  exact here.1.2

theorem lengthLineShort {t : Bytes} (short : t.length ≤ 16) : seek lengthLine t = none :=
  seekNone.mpr fun u tail => Bool.eq_false_iff.mpr fun here => by
    simp only [lengthLine,Bool.and_eq_true,decide_eq_true_eq] at here
    exact absurd here.1.1 (Nat.not_lt.mpr (tail.length_le.trans short))

theorem eolStart (r : Parts) : ∃ c x, r.eol = c :: x ∧ (c = 10 ∨ c = 13) ∧ (x = [10] ∨ c = 10 ∧ x = []) := by
  rcases r.eolCases with ⟨_,is⟩ | ⟨_,is⟩
  · exact ⟨13,[10],is,Or.inr rfl,Or.inl rfl⟩
  · exact ⟨10,[],is,Or.inl rfl,Or.inr ⟨rfl,rfl⟩⟩

/-- From the end of one line to that of the next. -/
theorem seekLine (r : Parts) {l : Bytes} (noLf : 10 ∉ l) (x : Bytes) :
    seek lengthLine (l ++ (r.eol ++ x)) = seek lengthLine (10 :: x) := by
  rw [seekSkip (fun _ => lengthLineHead) noLf]
  rcases r.eolCases with ⟨_,is⟩ | ⟨_,is⟩
  · rw [is]
    exact seekSkip (x := [13]) (fun _ => lengthLineHead) (by decide) _
  · rw [is]
    rfl

/-- The search finds the first line of the block that starts so. -/
theorem seekLength (r : Parts) {ls : List Bytes} (plain : ∀ l ∈ ls, PlainText l ∧ l ≠ []) (z : Bytes) :
    (∃ l x, l ∈ ls ∧ startsLength l = true ∧ seek lengthLine (10 :: (block r.eol ls ++ z)) = some (10 :: (l ++ (r.eol ++ x)))) ∨
      (∀ l ∈ ls, startsLength l = false) ∧ (z.length ≤ 13 → seek lengthLine (10 :: (block r.eol ls ++ z)) = none) := by
  induction ls with
  | nil =>
    refine Or.inr ⟨by simp,fun short => lengthLineShort ?_⟩
    have eol : r.eol.length ≤ 2 := by rcases r.eolCases with ⟨_,is⟩ | ⟨_,is⟩ <;> rw [is] <;> decide
    simp only [block,List.flatMap_nil,List.nil_append,List.length_cons,List.length_append]
    omega
  | cons l ls ih =>
    obtain ⟨c,e,eol,end_,_⟩ := eolStart r
    have same : startsLength (l ++ (r.eol ++ (block r.eol ls ++ z))) = startsLength l := by
      rw [eol,List.cons_append]
      exact startsLengthAppend c _ end_
    rw [blockCons,List.append_assoc,List.append_assoc]
    by_cases starts : startsLength l = true
    · refine Or.inl ⟨l,block r.eol ls ++ z,List.mem_cons_self,starts,seekHere ?_⟩
      have long := (startsLengthBytes starts).2.2
      have more : 2 ≤ (r.eol ++ (block r.eol ls ++ z)).length := by
        have one : 1 ≤ r.eol.length := by rw [eol]; simp
        simp only [block,List.length_append]
        omega
      simp only [lengthLine,List.drop_one,List.tail_cons,same,starts,List.head?_cons,decide_true,Bool.and_true,decide_eq_true_eq,
        List.length_cons,List.length_append] at more ⊢
      omega
    · have other : lengthLine (10 :: (l ++ (r.eol ++ (block r.eol ls ++ z)))) = false := by
        rw [lengthLine,List.drop_one,List.tail_cons,same,Bool.eq_false_iff.mpr starts,Bool.and_false]
      rw [seekLater other,seekLine r (plain l List.mem_cons_self).1.not.2.1]
      rcases ih fun x mem => plain x (List.mem_cons_of_mem _ mem) with ⟨l',x,mem,found⟩ | ⟨none_,quiet⟩
      · exact Or.inl ⟨l',x,List.mem_cons_of_mem _ mem,found⟩
      · refine Or.inr ⟨fun x mem => ?_,quiet⟩
        rcases List.mem_cons.mp mem with rfl | later
        · exact Bool.eq_false_iff.mpr starts
        · exact none_ x later

theorem denotesRead {value : Bytes} {n : Nat} (d : Denotes value n) (small : n < 2 ^ 64) {x : Bytes} {c : UInt8}
    (end_ : c = 10 ∨ c = 13) : strtoull (value ++ c :: x) = n := by
  obtain ⟨before,digits,after,rfl,some_,isDigits,is⟩ := d
  cases digits with
  | nil => exact absurd rfl some_
  | cons a ds =>
    have blanks : ∀ b ∈ List.replicate before (32 : UInt8), isspace b = true := fun b mem => by
      rw [List.eq_of_mem_replicate mem]; decide
    have first := isDigits a List.mem_cons_self
    obtain ⟨noSpace,noMinus,noPlus⟩ := digitNoSpace first.1
    have skipped : (List.replicate before 32 ++ a :: ds ++ List.replicate after 32 ++ c :: x).dropWhile isspace =
        a :: (ds ++ (List.replicate after 32 ++ c :: x)) := by
      rw [List.append_assoc,List.append_assoc,List.dropWhile_append_of_pos blanks]
      simp only [List.cons_append,List.dropWhile_cons,noSpace,Bool.false_eq_true,if_false]
    have stop : ∀ y, (List.replicate after 32 ++ c :: x).head? = some y → isdigit y = false := fun y here => by
      cases after with
      | zero =>
        cases here
        rcases end_ with rfl | rfl <;> decide
      | succ k => cases here; decide
    have value : digitsValue 0 (a :: (ds ++ (List.replicate after 32 ++ c :: x))) = n := by
      rw [← List.cons_append,digitsStop isDigits stop,is]
    rw [strtoull,skipped]
    split
    · rename_i same; exact absurd (List.cons.inj same).1 noMinus
    · rename_i same; exact absurd (List.cons.inj same).1 noPlus
    · rw [value]; omega

/-- The length read is that of the body as soon as the block is there, with only a few bytes behind it when there is no
Content-Length. -/
theorem lengthFound (r : Request) (z : Bytes) (few : r.body = [] → z.length ≤ 13) :
    contentLength (r.head ++ z) = r.body.length := by
  obtain ⟨c,e,eol,end_,_⟩ := eolStart r.toParts
  have first : 10 ∉ r.requestLine := (r.allPlain _ List.mem_cons_self).1.not.2.1
  have start : seek lengthLine (r.head ++ z) = seek lengthLine (10 :: (block r.eol r.lines ++ z)) := by
    rw [Parts.head,blockCons,List.append_assoc,List.append_assoc,seekLine r.toParts first]
  rw [contentLength]
  rcases seekLength r.toParts r.linesPlain z with ⟨l,x,mem,starts,found⟩ | ⟨none_,quiet⟩
  · have tail : (r.head ++ z).tails.find? lengthLine = some (10 :: (l ++ (r.eol ++ x))) := start.trans found
    have small : r.body.length < 2 ^ 64 := by
      have counted := r.counted
      rw [Parts.text,List.length_append] at counted
      omega
    have cut : (10 :: (l ++ (r.eol ++ x))).drop 16 = l.drop 15 ++ c :: (e ++ x) := by
      rw [List.drop_succ_cons,List.drop_append_of_le_length (startsLengthBytes starts).2.2,eol]
      rfl
    rw [tail]
    simp only [cut]
    exact denotesRead (r.sized l mem starts) small end_
  · have empty := r.unsized none_
    have tail : (r.head ++ z).tails.find? lengthLine = none := start.trans (quiet (few empty))
    have notFirst : startsLength (r.head ++ z) = false := Bool.eq_false_iff.mpr fun starts => by
      obtain ⟨⟨noBlank,_⟩,colon,_⟩ := startsLengthBytes starts
      have split : r.head ++ z = r.method ++ 32 :: (r.path ++ 32 :: r.version ++ (r.eol ++ block r.eol r.lines) ++ z) := by
        simp only [Parts.head,blockCons,Parts.requestLine,List.append_assoc,List.cons_append]
      rw [split] at noBlank colon
      by_cases long : 15 ≤ r.method.length
      · rw [List.take_append_of_le_length long] at colon
        exact r.methodPlain.2.2 (List.mem_of_mem_take colon)
      · obtain ⟨k,is⟩ := Nat.exists_eq_add_of_lt (Nat.not_le.mp long)
        rw [List.take_append,show 15 - r.method.length = k + 1 by omega] at noBlank
        exact noBlank (List.mem_append_right _ List.mem_cons_self)
    rw [tail,notFirst,empty]
    rfl

/-! ### Parsing -/

theorem memchrAt {c : UInt8} {x : Bytes} (plain : c ∉ x) (r : Bytes) : memchr c (x ++ c :: r) = some (x,r) := by
  have passes : ∀ a ∈ x, decide (a ≠ c) = true := fun a mem => decide_eq_true fun is => plain (is ▸ mem)
  rw [memchr,List.dropWhile_append_of_pos passes,List.takeWhile_append_of_pos passes]
  simp

theorem memchrAbsent {c : UInt8} {s : Bytes} (plain : c ∉ s) : memchr c s = none := by
  have passes : ∀ a ∈ s, decide (a ≠ c) = true := fun a mem => decide_eq_true fun is => plain (is ▸ mem)
  rw [memchr,List.dropWhile_eq_nil_iff.mpr passes]

theorem memchrSplit {c : UInt8} {s x r : Bytes} (found : memchr c s = some (x,r)) : s = x ++ c :: r ∧ c ∉ x := by
  by_cases mem : c ∈ s
  · obtain ⟨x',r',rfl,plain⟩ := List.eq_append_cons_of_mem mem
    rw [memchrAt plain] at found
    cases found
    exact ⟨rfl,plain⟩
  · rw [memchrAbsent mem] at found
    cases found

/-- What is left as the body: behind a bare LF that ends the block one more is passed over. -/
def Parts.afterBlank (r : Parts) (z : Bytes) : Bytes :=
  if r.crlf then z else dropLf z

theorem dropBlanks (v : Bytes) {c : UInt8} (other : c ≠ 32) (x : Bytes) :
    (v ++ c :: x).dropWhile (· = 32) = v.dropWhile (· = 32) ++ c :: x := by
  induction v with
  | nil => simp [other]
  | cons b v ih =>
    by_cases blank : b = 32
    · simp only [List.cons_append,List.dropWhile_cons,blank,decide_true,if_true]
      exact ih
    · simp [blank]

theorem tolowerPlain {s : Bytes} (plain : PlainText s) : 0 ∉ s.map tolower ∧ 10 ∉ s.map tolower := by
  constructor <;> intro mem <;> obtain ⟨c,own,is⟩ := List.mem_map.mp mem
  · exact (plain c own).1 (tolowerOther (by decide) is)
  · exact (plain c own).2.1 (tolowerOther (by decide) is)

/-- The value of a line ends where the line does. -/
theorem valueEnd (r : Parts) {w : Bytes} (plain : PlainText w) (x : Bytes) :
    ∃ value, memchr 10 (w ++ (r.eol ++ x)) = some (value,x) ∧ chopCr value = w := by
  rcases r.eolCases with ⟨_,is⟩ | ⟨_,is⟩
  · refine ⟨w ++ [13],?_,?_⟩
    · have noLf : 10 ∉ w ++ [13] := fun mem => by
        rcases List.mem_append.mp mem with inside | last
        · exact plain.not.2.1 inside
        · exact absurd last (by decide)
      rw [is,← memchrAt noLf x,List.append_assoc]
      rfl
    · rw [chopCr,if_pos List.getLast?_concat,List.dropLast_concat]
  · refine ⟨w,?_,?_⟩
    · rw [is]
      exact memchrAt plain.not.2.1 x
    · rw [chopCr,if_neg fun last => plain.not.2.2 (List.mem_of_getLast? last)]

theorem parseBlank (r : Parts) (fuel : Nat) (z : Bytes) : parseHeaders (fuel + 1) (r.eol ++ z) = ([],r.afterBlank z) := by
  rcases r.eolCases with ⟨crlf,is⟩ | ⟨crlf,is⟩
  · rw [is,Parts.afterBlank,crlf]
    rfl
  · rw [is,Parts.afterBlank,crlf]
    rfl

theorem parseLine (r : Parts) {l : Bytes} (plain : PlainText l) (colon : 58 ∈ l) (fuel : Nat) (x : Bytes) :
    ∃ h, lineHeader l = some h ∧ parseHeaders (fuel + 1) (l ++ (r.eol ++ x)) =
      (h :: (parseHeaders fuel x).1,(parseHeaders fuel x).2) := by
  obtain ⟨name,v,rfl,noColon⟩ := List.eq_append_cons_of_mem colon
  have namePlain : PlainText name := fun c mem => plain c (List.mem_append_left _ mem)
  have vPlain : PlainText v := fun c mem => plain c (List.mem_append_right _ (List.mem_cons_of_mem _ mem))
  have wPlain : PlainText (v.dropWhile (· = 32)) := fun c mem => vPlain c ((List.dropWhile_suffix _).subset mem)
  obtain ⟨c,e,eol,end_,_⟩ := eolStart r
  have cut : (v ++ (r.eol ++ x)).dropWhile (· = 32) = v.dropWhile (· = 32) ++ (r.eol ++ x) := by
    rw [eol,List.cons_append,dropBlanks v (by rcases end_ with rfl | rfl <;> decide)]
  obtain ⟨value,found,chopped⟩ := valueEnd r wPlain x
  refine ⟨(name.map tolower,v.dropWhile (· = 32)),by rw [lineHeader,memchrAt noColon]; rfl,?_⟩
  have split : name ++ 58 :: v ++ (r.eol ++ x) = name ++ 58 :: (v ++ (r.eol ++ x)) := by simp
  have at_ := memchrAt noColon (v ++ (r.eol ++ x))
  rw [split]
  cases whole : name ++ 58 :: (v ++ (r.eol ++ x)) with
  | nil => exact absurd whole (by simp)
  | cons a rest =>
    have first : ¬ (a = 13 ∨ a = 10) := by
      have own : a ∈ name ++ [58] := by
        cases name with
        | nil => cases whole; exact List.mem_cons_self
        | cons b name => cases whole; exact List.mem_cons_self
      rcases List.mem_append.mp own with mem | mem
      · exact fun is => is.elim (namePlain a mem).2.2 (namePlain a mem).2.1
      · rw [List.mem_singleton.mp mem]; decide
    rw [whole] at at_
    rw [parseHeaders,if_neg first,at_]
    simp only [cut,found,chopped,cstrSelf (tolowerPlain namePlain).1,cstrSelf wPlain.not.1]

theorem headersParsed (r : Parts) {ls : List Bytes} (plain : ∀ l ∈ ls, PlainText l ∧ l ≠ []) (colons : ∀ l ∈ ls, 58 ∈ l) (z : Bytes)
    {fuel : Nat} (enough : ls.length < fuel) :
    parseHeaders fuel (block r.eol ls ++ z) = (ls.filterMap lineHeader,r.afterBlank z) := by
  induction ls generalizing fuel with
  | nil =>
    obtain ⟨fuel,rfl⟩ := Nat.exists_eq_succ_of_ne_zero (Nat.ne_of_gt enough)
    exact parseBlank r fuel z
  | cons l ls ih =>
    obtain ⟨fuel,rfl⟩ := Nat.exists_eq_succ_of_ne_zero (Nat.ne_of_gt (Nat.lt_of_le_of_lt (Nat.zero_le _) enough))
    obtain ⟨h,header,parsed⟩ := parseLine r (plain l List.mem_cons_self).1 (colons l List.mem_cons_self) fuel (block r.eol ls ++ z)
    have rest := ih (fun x mem => plain x (List.mem_cons_of_mem _ mem)) (fun x mem => colons x (List.mem_cons_of_mem _ mem))
      (Nat.lt_of_succ_lt_succ enough)
    rw [blockCons,List.append_assoc,List.append_assoc,parsed,rest,List.filterMap_cons_some header]

theorem blockLength (r : Parts) (ls : List Bytes) : ls.length < (block r.eol ls).length := by
  have eol : 1 ≤ r.eol.length := by rcases r.eolCases with ⟨_,is⟩ | ⟨_,is⟩ <;> rw [is] <;> decide
  induction ls with
  | nil => exact eol
  | cons l ls ih =>
    rw [blockCons,List.length_append,List.length_append,List.length_cons]
    omega

/-- Down to the headers. -/
theorem parseRequestLine (r : Request) (z : Bytes) : parseRequest (r.head ++ z) =
    some ⟨r.method,r.path,(parseHeaders (block r.eol r.lines ++ z).length (block r.eol r.lines ++ z)).1,
      (parseHeaders (block r.eol r.lines ++ z).length (block r.eol r.lines ++ z)).2,
      wantsWebsocket (parseHeaders (block r.eol r.lines ++ z).length (block r.eol r.lines ++ z)).1⟩ := by
  have split : r.head ++ z = r.method ++ 32 :: (r.path ++ 32 :: (r.version ++ (r.eol ++ (block r.eol r.lines ++ z)))) := by
    simp only [Parts.head,blockCons,Parts.requestLine,List.append_assoc,List.cons_append]
  obtain ⟨value,found,_⟩ := valueEnd r.toParts r.versionPlain (block r.eol r.lines ++ z)
  rw [split,parseRequest]
  simp only [memchrAt r.methodPlain.2.1,memchrAt r.pathPlain.2,found,Option.bind_eq_bind,Option.bind_some,
    cstrSelf r.methodPlain.1.not.1,cstrSelf r.pathPlain.1.not.1]

theorem requestParsed (r : Request) (colons : ∀ l ∈ r.lines, 58 ∈ l) (z : Bytes) :
    parseRequest (r.head ++ z) = some ⟨r.method,r.path,r.headers,r.afterBlank z,wantsWebsocket r.headers⟩ := by
  have enough : r.lines.length < (block r.eol r.lines ++ z).length := by
    rw [List.length_append]
    exact Nat.lt_of_lt_of_le (blockLength r.toParts r.lines) (Nat.le_add_right _ _)
  rw [parseRequestLine,headersParsed r.toParts r.linesPlain colons z enough]
  rfl

/-! ### Lines without a colon -/

theorem headersPlain {ls : List Bytes} (plain : ∀ l ∈ ls, PlainText l ∧ l ≠ []) : ∀ h ∈ ls.filterMap lineHeader, 10 ∉ h.1 := by
  intro h mem
  obtain ⟨l,own,header⟩ := List.mem_filterMap.mp mem
  obtain ⟨⟨name,v⟩,found,rfl⟩ := Option.map_eq_some_iff.mp header
  obtain ⟨rfl,_⟩ := memchrSplit found
  exact (tolowerPlain fun c here => (plain _ own).1 c (List.mem_append_left _ here)).2

theorem blockEnds (r : Parts) (ls : List Bytes) : (block r.eol ls).getLast? = some 10 := by
  rw [block]
  rcases r.eolCases with ⟨_,is⟩ | ⟨_,is⟩ <;> rw [is]
  · rw [show ([13, 10] : Bytes) = [13] ++ [10] from rfl,← List.append_assoc,List.getLast?_concat]
  · rw [List.getLast?_concat]

/-- A colon behind the lines ends a name that reaches over them. -/
theorem colonBehind (r : Parts) {ls : List Bytes} {name rest z : Bytes} (split : block r.eol ls ++ z = name ++ 58 :: rest) :
    (rest.dropWhile (· = 32)).length ≠ z.length := by
  intro same
  obtain ⟨blanks,cut⟩ := List.dropWhile_suffix (fun c : UInt8 => decide (c = 32)) (l := rest)
  have blank : ∀ c ∈ blanks, c = 32 := by
    have is := List.takeWhile_append_dropWhile (p := fun c : UInt8 => decide (c = 32)) (l := rest)
    have : blanks = rest.takeWhile fun c : UInt8 => decide (c = 32) := List.append_cancel_right (cut.trans is.symm)
    intro c mem
    rw [this] at mem
    exact of_decide_eq_true (List.mem_takeWhile_imp (p := fun c : UInt8 => decide (c = 32)) mem)
  have both : block r.eol ls ++ z = (name ++ 58 :: blanks) ++ rest.dropWhile (· = 32) := by
    rw [split,List.append_assoc,List.cons_append,cut]
  have whole : block r.eol ls = name ++ 58 :: blanks := List.append_inj_left' both same.symm
  have last := blockEnds r ls
  rw [whole,List.getLast?_append_of_ne_nil _ (List.cons_ne_nil _ _)] at last
  have mem := List.mem_of_getLast? last
  rcases List.mem_cons.mp mem with is | is
  · exact absurd is (by decide)
  · exact absurd (blank 10 is) (by decide)

theorem headersGarbled (r : Parts) {ls : List Bytes} (plain : ∀ l ∈ ls, PlainText l ∧ l ≠ []) {l : Bytes} (mem : l ∈ ls)
    (noColon : 58 ∉ l) (z : Bytes) {fuel : Nat} (enough : ls.length < fuel) :
    (∃ h ∈ (parseHeaders fuel (block r.eol ls ++ z)).1, 10 ∈ h.1) ∨
      (parseHeaders fuel (block r.eol ls ++ z)).2.length ≠ z.length := by
  induction ls generalizing fuel with
  | nil => cases mem
  | cons l' ls ih =>
    obtain ⟨fuel,rfl⟩ := Nat.exists_eq_succ_of_ne_zero (Nat.ne_of_gt (Nat.lt_of_le_of_lt (Nat.zero_le _) enough))
    by_cases colon : 58 ∈ l'
    · obtain ⟨h,_,parsed⟩ := parseLine r (plain l' List.mem_cons_self).1 colon fuel (block r.eol ls ++ z)
      have later : l ∈ ls := (List.mem_cons.mp mem).resolve_left fun is => noColon (is ▸ colon)
      rw [blockCons,List.append_assoc,List.append_assoc,parsed]
      rcases ih (fun x own => plain x (List.mem_cons_of_mem _ own)) later (Nat.lt_of_succ_lt_succ enough) with
        ⟨x,own,lf⟩ | longer
      · exact Or.inl ⟨x,List.mem_cons_of_mem _ own,lf⟩
      · exact Or.inr longer
    · obtain ⟨text,some_⟩ := plain l' List.mem_cons_self
      obtain ⟨c,t,rfl⟩ := List.exists_cons_of_ne_nil some_
      have first : ¬ (c = 13 ∨ c = 10) := fun is => is.elim (text c List.mem_cons_self).2.2 (text c List.mem_cons_self).2.1
      have whole : block r.eol ((c :: t) :: ls) ++ z = c :: (t ++ (r.eol ++ (block r.eol ls ++ z))) := by
        rw [blockCons,List.append_assoc,List.append_assoc,List.cons_append]
      rw [whole,parseHeaders,if_neg first]
      cases found : memchr 58 (c :: (t ++ (r.eol ++ (block r.eol ls ++ z)))) with
      | none =>
        right
        simp only [List.length_cons,List.length_append]
        omega
      | some p =>
        obtain ⟨name,rest⟩ := p
        obtain ⟨split,noColon'⟩ := memchrSplit found
        cases value : memchr 10 (rest.dropWhile (· = 32)) with
        | none =>
          right
          simp only [value]
          exact colonBehind r (whole.trans split)
        | some q =>
          obtain ⟨v,after⟩ := q
          left
          simp only [value]
          refine ⟨_,List.mem_cons_self,?_⟩
          -- the name has the whole line and its end before the colon
          obtain ⟨e,x,eol,end_,_⟩ := eolStart r
          have eolNoColon : 58 ∉ r.eol := by rcases r.eolCases with ⟨_,is⟩ | ⟨_,is⟩ <;> rw [is] <;> decide
          have line : (c :: t) ++ r.eol <+: name := by
            have pre : (c :: t) ++ r.eol <+: name ++ 58 :: rest := ⟨block r.eol ls ++ z,by rw [← split]; simp⟩
            rcases List.prefix_or_prefix_of_prefix pre (List.prefix_append name _) with inside | ⟨more,is⟩
            · exact inside
            · cases more with
              | nil => rw [← is,List.append_nil]
              | cons b more =>
                obtain ⟨rest',at_⟩ := pre
                rw [← is,List.append_assoc,List.cons_append] at at_
                have b58 : b = 58 := (List.cons.inj (List.append_cancel_left at_)).1
                have there : (58 : UInt8) ∈ (c :: t) ++ r.eol := by
                  rw [← is,b58]
                  exact List.mem_append_right _ List.mem_cons_self
                exact absurd there fun mem => (List.mem_append.mp mem).elim colon eolNoColon
          obtain ⟨more,is⟩ := line
          have noNul : 0 ∉ ((c :: t) ++ r.eol).map tolower := fun mem => by
            obtain ⟨d,own,zero⟩ := List.mem_map.mp mem
            have d0 := tolowerOther (by decide) zero
            rcases List.mem_append.mp own with inside | eol
            · exact (text d inside).1 d0
            · rcases r.eolCases with ⟨_,is⟩ | ⟨_,is⟩ <;> rw [is,d0] at eol <;> exact absurd eol (by decide)
          have lf : (10 : UInt8) ∈ ((c :: t) ++ r.eol).map tolower := by
            have own : (10 : UInt8) ∈ r.eol := by rcases r.eolCases with ⟨_,is⟩ | ⟨_,is⟩ <;> rw [is] <;> decide
            exact List.mem_map.mpr ⟨10,List.mem_append_right _ own,by decide⟩
          show 10 ∈ cstr (name.map tolower)
          rw [← is,List.map_append,cstrAppend noNul]
          exact List.mem_append_left _ lf

/-- A line without a colon is read into the name of a header, or the block is not read to its end. -/
theorem requestGarbled (r : Request) {l : Bytes} (mem : l ∈ r.lines) (noColon : 58 ∉ l) :
    handed (.request r.text) ≠ some r.handed := by
  intro same
  rw [handed,Parts.text,parseRequestLine,Option.map_some,Option.some.injEq,Prod.mk.injEq] at same
  have enough : r.lines.length < (block r.eol r.lines ++ r.body).length := by
    rw [List.length_append]
    exact Nat.lt_of_lt_of_le (blockLength r.toParts r.lines) (Nat.le_add_right _ _)
  rcases headersGarbled r.toParts r.linesPlain mem noColon r.body enough with ⟨h,own,lf⟩ | longer
  · rw [show (parseHeaders _ (block r.eol r.lines ++ r.body)).1 = r.headers from congrArg HttpReq.headers same.1] at own
    exact headersPlain r.linesPlain h own lf
  · exact longer (congrArg (fun q : HttpReq => q.body.length) same.1)

end Napastak.Http
