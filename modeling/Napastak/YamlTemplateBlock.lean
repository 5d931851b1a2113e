import Napastak.YamlTemplateVars

/-! A text with `vars:` in it, and when its expansion is the text around them with the values the caller or the lines give. -/
namespace Napastak.YamlTemplate
open Store (cstr cstrSelf)
open Table

def remark (line : Bytes) : Bool := (line.dropWhile blank).head? = some 35

/-- The row of a line, nothing cut. -/
def rowOf (line : Bytes) : Option Row :=
  (atColon line).bind fun e => if trimmed e.1 = [] then none else some ⟨remark line,trimmed e.1,trimmed e.2⟩

def rowsOf (body : List Bytes) : List Row := body.filterMap rowOf

/-- `vars:` with the lines behind it, which hold a variable or a remark or nothing and end where the last that is indented ends. No
variable is there twice, and no remark reads as the line of a variable. -/
structure VarsBlock where
  pad : Bytes
  body : List Bytes
  padBlank : ∀ c ∈ pad, blank c ∧ c ≠ 10
  clean : ∀ l ∈ body, 0 ∉ l ∧ 10 ∉ l
  kinds : ∀ l ∈ body, l.all blank ∨ remark l ∨ (indented l ∧ (rowOf l).isSome)
  ends : ∀ l ∈ body.getLast?, indented l
  once : (names (varsOf (rowsOf body))).Nodup
  apart : ∀ r ∈ rowsOf body, ∀ r' ∈ rowsOf body, r.remark = true → r'.remark = false → r.name ≠ r'.name

def VarsBlock.head (b : VarsBlock) : Bytes := ascii "vars:" ++ b.pad

def VarsBlock.text (b : VarsBlock) : Bytes := (b.head :: b.body).flatMap (· ++ [10])

/-- The lines of the block are over: what follows starts with no blank, and the first line that says something is not indented. -/
def Behind (post : Bytes) : Prop :=
  (∀ l ∈ (rawLines post).head?, ¬indented l) ∧
    ∀ l ∈ (rawLines post).find? (fun l => ¬((content l).all blank ∨ remark (content l))), ¬indented l

/-- A text with one block of variables; no token is opened in front of it and closed in it or behind. The last newline of a text can be
missing. -/
structure Source (b : VarsBlock) (pre post text : Bytes) : Prop where
  whole : Whole pre
  before : ∀ l ∈ rawLines pre, ¬header l
  behind : Behind post
  closed : ∀ s n, pre = s ++ 123 :: 123 :: n → ¬[125,125] <:+: n → ¬[125,125] <:+: b.text ++ post
  clean : 0 ∉ pre ++ post
  is : text = pre ++ b.text ++ post ∨ post = [] ∧ text ++ [10] = pre ++ b.text

/-- The text around the block, every token replaced by the caller's value, else the block's. -/
def VarsBlock.expanded (b : VarsBlock) (kvs : List (Option Bytes × Option Bytes)) (pre post : Bytes) : Bytes :=
  fill (fun name => wanted (rowsOf b.body) (callerVars kvs) (trimmed name)) 0 (pre ++ post)

theorem rawLinesNil {s : Bytes} : rawLines s = [] ↔ s = [] := by
  cases s with
  | nil => simp [rawLines]
  | cons c s =>
    rw [rawLines]
    split <;> simp

theorem rawLinesFlat (s : Bytes) : (rawLines s).flatten = s := by
  induction s with
  | nil => rfl
  | cons c s ih =>
    rw [rawLines]
    split
    · rename_i newline
      rw [List.flatten_cons,ih,newline]
      rfl
    · rw [List.flatten_cons,List.cons_append]
      congr 1
      cases lines : rawLines s with
      | nil => rw [lines] at ih; exact ih
      | cons l ls => rw [lines] at ih; exact ih

theorem rawLinesAppend {s : Bytes} (whole : Whole s) (t : Bytes) : rawLines (s ++ t) = rawLines s ++ rawLines t := by
  induction s with
  | nil => rfl
  | cons c s ih =>
    have later := ih (wholeTail whole)
    rw [List.cons_append,rawLines,rawLines,later]
    split
    · rfl
    · rename_i other
      have nonempty : rawLines s ≠ [] := by
        rw [Ne,rawLinesNil]
        rintro rfl
        exact other (by simpa [Whole] using whole)
      cases lines : rawLines s with
      | nil => exact absurd lines nonempty
      | cons l ls => rfl

theorem rawLine {l : Bytes} (clean : 10 ∉ l) (t : Bytes) : rawLines (l ++ 10 :: t) = (l ++ [10]) :: rawLines t := by
  induction l with
  | nil => rfl
  | cons c l ih =>
    obtain ⟨other,clean⟩ := not_or.mp (mt List.mem_cons.mpr clean)
    rw [List.cons_append,rawLines,if_neg (Ne.symm other),ih clean]
    rfl

theorem rawLinesOf {ls : List Bytes} (clean : ∀ l ∈ ls, 10 ∉ l) : rawLines (ls.flatMap (· ++ [10])) = ls.map (· ++ [10]) := by
  induction ls with
  | nil => rfl
  | cons l ls ih =>
    rw [List.flatMap_cons,List.append_assoc,List.singleton_append,rawLine (clean l List.mem_cons_self),
      ih fun l mem => clean l (List.mem_cons_of_mem _ mem),List.map_cons]

theorem contentCons {c : UInt8} (other : c ≠ 10) (l : Bytes) : content (c :: l) = c :: content l := by
  rw [content,List.takeWhile_cons_of_pos (by simpa using other),content]

theorem contentLine {l : Bytes} (clean : 10 ∉ l) (t : Bytes) : content (l ++ 10 :: t) = l := by
  induction l with
  | nil => rfl
  | cons c l ih =>
    obtain ⟨other,clean⟩ := not_or.mp (mt List.mem_cons.mpr clean)
    rw [List.cons_append,contentCons (Ne.symm other),ih clean]

theorem indentedContent (l : Bytes) : indented (content l) = indented l := by
  cases l with
  | nil => rfl
  | cons c l =>
    by_cases newline : c = 10
    · subst newline
      rfl
    · rw [contentCons newline]
      rfl

/-- Where the last newline is missing the lines say the same. -/
theorem contentsLast {s : Bytes} (some_ : s ≠ []) (last : s.getLast? ≠ some 10) :
    (rawLines (s ++ [10])).map content = (rawLines s).map content := by
  induction s with
  | nil => exact absurd rfl some_
  | cons c s ih =>
    rw [List.cons_append,rawLines,rawLines]
    cases s with
    | nil =>
      have other : c ≠ 10 := by simpa using last
      simp [other,rawLines,contentCons other]
      rfl
    | cons d s =>
      have later := ih (List.cons_ne_nil d s) (by rwa [List.getLast?_cons_cons] at last)
      split
      · rw [List.map_cons,List.map_cons,later]
      · rename_i other
        obtain ⟨l,ls,lines⟩ := List.exists_cons_of_ne_nil (mt rawLinesNil.mp (List.cons_ne_nil d s))
        obtain ⟨m,ms,longer⟩ := List.exists_cons_of_ne_nil (mt rawLinesNil.mp (List.append_ne_nil_of_left_ne_nil (List.cons_ne_nil d s) [10]))
        rw [lines,longer,List.map_cons,List.map_cons] at later
        obtain ⟨first,rest⟩ := List.cons.inj later
        rw [lines,longer]
        simp [contentCons other,first,rest]

theorem trimmedPart (s : Bytes) : trimmed s <:+: s := by
  have trims : trim s <:+: s := (List.rdropWhile_prefix _ _).isInfix.trans (List.dropWhile_suffix _).isInfix
  rw [trimmed,unquote]
  split
  · exact ((List.dropLast_prefix _).isInfix.trans (List.tail_suffix _).isInfix).trans trims
  · exact trims

theorem trimDupIs {s : Bytes} (clean : 0 ∉ s) : trimDup s = (trimmed s).take (maxVal - 1) :=
  cstrSelf fun h => clean ((trimmedPart s).subset (List.mem_of_mem_take h))

theorem trimDupNil {s : Bytes} (clean : 0 ∉ s) : trimDup s = [] ↔ trimmed s = [] := by
  rw [trimDupIs clean,List.take_eq_nil_iff]
  simp [maxVal]

/-- The code's entry is the line's row, cut. -/
theorem entryIs {l : Bytes} (clean : 0 ∉ l) : entry l = (rowOf l).map Row.stored := by
  rw [entry,rowOf,atColon]
  split
  · have key : 0 ∉ l.takeWhile (· ≠ 58) := fun h => clean ((List.takeWhile_prefix _).subset h)
    have value : 0 ∉ (l.dropWhile (· ≠ 58)).tail := fun h => clean ((List.dropWhile_suffix _).subset (List.mem_of_mem_tail h))
    simp only [Option.bind_some,trimDupNil key]
    split
    · rfl
    · rw [trimDupIs key,trimDupIs value]
      rfl
  · rfl

theorem fileVarsIs {lines body : List Bytes} (clean : ∀ l ∈ body, 0 ∉ l) (same : lines.map content = body) :
    fileVars lines = stored (rowsOf body) := by
  have entries : body.filterMap entry = (rowsOf body).map Row.stored := by
    rw [rowsOf,List.map_filterMap]
    exact List.filterMap_congr fun l mem => entryIs (clean l mem)
  rw [fileVars,← Function.comp_def entry content,← List.filterMap_map,same,entries,stored,List.map_take]

theorem trimPad {s pad : Bytes} (padBlank : ∀ c ∈ pad, blank c) (solid : ∀ c ∈ s.head?, ¬blank c) (some_ : s ≠ []) : trim (s ++ pad) = s.rdropWhile blank := by
  obtain ⟨c,s,rfl⟩ := List.exists_cons_of_ne_nil some_
  rw [trim,List.cons_append,List.dropWhile_cons_of_neg (solid c rfl),List.rdropWhile,List.rdropWhile,← List.cons_append,List.reverse_append,
    List.dropWhile_append_of_pos fun c mem => padBlank c (List.mem_reverse.mp mem)]

variable {b : VarsBlock}

theorem headerOf {l : Bytes} (is : content l = b.head) : header l = true := by
  have solid : indented l = false := by
    rw [← indentedContent,is]
    rfl
  have trims : trimDup b.head = ascii "vars:" := by
    have inner : trim b.head = ascii "vars:" := trimPad (fun c mem => (b.padBlank c mem).1) (by rintro _ ⟨⟩; decide) (by decide)
    rw [trimDup,trimmed,inner]
    rfl
  simp [header,solid,is,trims]

theorem findVarsFront {ls : List Bytes} (before : ∀ l ∈ ls, ¬header l) (i : Nat) (ms : List Bytes) :
    findVars i (ls ++ ms) = findVars (i + ls.flatten.length) ms := by
  induction ls generalizing i with
  | nil => rfl
  | cons l ls ih =>
    rw [List.cons_append,findVars,if_neg (before l List.mem_cons_self),ih fun m mem => before m (List.mem_cons_of_mem _ mem)]
    rw [List.flatten_cons,List.length_append,Nat.add_assoc]

theorem takeIndented {ls ms : List Bytes} (all : ∀ l ∈ ls, indented l) (out : ∀ l ∈ ms.head?, ¬indented l) : (ls ++ ms).takeWhile indented = ls := by
  rw [List.takeWhile_append_of_pos all]
  cases ms with
  | nil => simp
  | cons m ms => simp [out m rfl]

/-- The code on a text whose lines are known. -/
theorem expandCut {pre post text h : Bytes} {rs ms : List Bytes} (kvs : List (Option Bytes × Option Bytes)) (whole : Whole pre)
    (before : ∀ l ∈ rawLines pre, ¬header l) (lines : rawLines text = rawLines pre ++ (h :: (rs ++ ms))) (head : header h = true) (some_ : h ≠ [])
    (all : ∀ l ∈ rs, indented l) (out : ∀ l ∈ ms.head?, ¬indented l) (is : text = pre ++ (h :: rs).flatten ++ post)
    (above : Sealed pre ((h :: rs).flatten ++ post)) (beside : Sealed pre post) :
    yamlExpandVars text kvs = fill (fun name => (dict rs kvs).lookup (trimDup name)) 0 (pre ++ post) := by
  have found : findVars 0 (rawLines text) = some (pre.length,h :: rs) := by
    rw [lines,findVarsFront before,rawLinesFlat,Nat.zero_add,findVars,if_pos head,takeIndented all out]
  have nonempty : (h :: rs).flatten ≠ [] := by
    rw [List.flatten_cons]
    exact List.append_ne_nil_of_left_ne_nil some_ _
  rw [yamlExpandVars,found]
  simp only [Option.elim_some,List.tail_cons,Option.map_some]
  rw [is,emitAround nonempty whole above beside]

/-- What follows a text that leaves the last brace open. -/
theorem closingThrough {s t : Bytes} (opened : closing s = none) (last : s.getLast? ≠ some 125) : closing (s ++ t) = (s ++ ·) <$> closing t := by
  induction s with
  | nil => simp
  | cons c s ih =>
    rw [closing] at opened
    split at opened
    · cases opened
    · rename_i apart
      have rest : closing s = none := by simpa using opened
      have head : ¬(c = 125 ∧ (s ++ t).head? = some 125) := by
        cases s with
        | nil =>
          rintro ⟨rfl,-⟩
          exact last rfl
        | cons d s => exact apart
      have later : s.getLast? ≠ some 125 := by
        cases s with
        | nil => simp
        | cons d s => rwa [List.getLast?_cons_cons] at last
      rw [List.cons_append,closing,if_neg head,ih rest later]
      simp [Function.comp_def]

theorem sealedOf {s t : Bytes} (whole : Whole s) (closed : ∀ a n, s = a ++ 123 :: 123 :: n → ¬[125,125] <:+: n → ¬[125,125] <:+: t) : Sealed s t := by
  rintro n ⟨a,rfl⟩ opened
  have none_ : closing t = none := closingNone.mpr (closed a n rfl (closingNone.mp opened))
  have last : n.getLast? ≠ some 125 := by
    have ends : (a ++ 123 :: 123 :: n).getLast? = some 10 := whole.resolve_left (by simp)
    intro is
    simp [List.getLast?_append,List.getLast?_cons,is] at ends
  rw [closingThrough opened last,none_]
  rfl

theorem headSome (b : VarsBlock) : b.head ≠ [] := by
  rw [VarsBlock.head]
  exact List.append_ne_nil_of_left_ne_nil (by decide) _

theorem headClean (b : VarsBlock) : 0 ∉ b.head ∧ 10 ∉ b.head := by
  constructor
  all_goals
    intro mem
    rw [VarsBlock.head,List.mem_append] at mem
    refine mem.elim (by decide) fun mem => ?_
    have := b.padBlank _ mem
    revert this
    decide

theorem textLines (b : VarsBlock) : rawLines b.text = (b.head :: b.body).map (· ++ [10]) := by
  refine rawLinesOf fun l mem => ?_
  obtain rfl | mem := List.mem_cons.mp mem
  · exact (headClean b).2
  · exact (b.clean l mem).2

theorem textContents (b : VarsBlock) : (rawLines b.text).map content = b.head :: b.body := by
  rw [textLines,List.map_map]
  refine (List.map_congr_left fun l mem => ?_).trans (List.map_id _)
  obtain rfl | mem := List.mem_cons.mp mem
  · exact contentLine (headClean b).2 []
  · exact contentLine (b.clean l mem).2 []

/-- The block without its last newline. -/
theorem textPart (b : VarsBlock) : ∃ part, b.text = part ++ [10] ∧ part ≠ [] ∧ part.getLast? ≠ some 10 := by
  obtain ⟨init,l,split⟩ : ∃ init l, b.head :: b.body = init ++ [l] :=
    (List.eq_nil_or_concat' (b.head :: b.body)).resolve_left (List.cons_ne_nil _ _)
  have clean : 10 ∉ l := by
    have mem : l ∈ b.head :: b.body := split ▸ List.mem_append_right _ List.mem_cons_self
    obtain rfl | mem := List.mem_cons.mp mem
    · exact (headClean b).2
    · exact (b.clean l mem).2
  have some_ : l ≠ [] := by
    cases init with
    | nil =>
      obtain ⟨rfl,-⟩ := List.cons.inj split
      exact headSome b
    | cons h init =>
      have last : b.body.getLast? = some l := by
        rw [(List.cons.inj split).2]
        simp
      have := b.ends l last
      rintro rfl
      exact absurd this (by decide)
  refine ⟨init.flatMap (· ++ [10]) ++ l,?_,List.append_ne_nil_of_right_ne_nil _ some_,?_⟩
  · rw [VarsBlock.text,split]
    simp
  · rw [List.getLast?_append_of_ne_nil _ some_]
    exact fun h => clean (List.mem_of_getLast? h)

section
variable {pre post text part : Bytes} {kvs : List (Option Bytes × Option Bytes)}

theorem expandPart (whole : Whole pre) (before : ∀ l ∈ rawLines pre, ¬header l) (behind : Behind post) (clean : 0 ∉ pre ++ post)
    (contents : (rawLines part).map content = b.head :: b.body) (lines : rawLines text = rawLines pre ++ (rawLines part ++ rawLines post))
    (is : text = pre ++ part ++ post) (above : Sealed pre (part ++ post)) (beside : Sealed pre post) (all : ∀ l ∈ b.body, indented l) :
    yamlExpandVars text kvs = fill (fun name => kept (rowsOf b.body) (callerVars kvs) (trimmed name)) 0 (pre ++ post) := by
  obtain ⟨h,rs,raws,head,body⟩ := List.map_eq_cons_iff.mp contents
  have flat : (h :: rs).flatten = part := by rw [← raws,rawLinesFlat]
  have some_ : h ≠ [] := by
    rintro rfl
    exact headSome b head.symm
  have inner : ∀ l ∈ rs, indented l := fun l mem => by
    rw [← indentedContent]
    exact all _ (body ▸ List.mem_map_of_mem mem)
  rw [raws] at lines
  rw [expandCut kvs whole before lines (headerOf head) some_ inner behind.1 (by rw [flat]; exact is) (by rw [flat]; exact above) beside]
  refine fillCongr clean (fun n free text => ?_) 0
  rw [dict,fileVarsIs (fun l mem => (b.clean l mem).1) body,trimDupIs text,kept]

/-- With the lines all indented the code takes the table's values. -/
theorem expandSource (source : Source b pre post text) (all : ∀ l ∈ b.body, indented l) :
    yamlExpandVars text kvs = fill (fun name => kept (rowsOf b.body) (callerVars kvs) (trimmed name)) 0 (pre ++ post) := by
  have above : Sealed pre (b.text ++ post) := sealedOf source.whole source.closed
  have beside : Sealed pre post := sealedOf source.whole fun a n is free h => source.closed a n is free (h.trans (List.suffix_append ..).isInfix)
  obtain ⟨cut,same,some_,last⟩ := textPart b
  obtain is | ⟨rfl,is⟩ := source.is
  · have ends : Whole b.text := .inr (by rw [same]; simp)
    have lines : rawLines text = rawLines pre ++ (rawLines b.text ++ rawLines post) := by
      rw [is,List.append_assoc,rawLinesAppend source.whole,rawLinesAppend ends]
    exact expandPart source.whole source.before source.behind source.clean (textContents b) lines is above beside all
  · rw [same,← List.append_assoc] at is
    obtain rfl : text = pre ++ cut := List.append_cancel_right is
    have contents : (rawLines cut).map content = b.head :: b.body := by rw [← contentsLast some_ last,← same,textContents]
    have lines : rawLines (pre ++ cut) = rawLines pre ++ (rawLines cut ++ rawLines []) := by
      rw [rawLinesAppend source.whole,rawLines,List.append_nil]
    have shorter : Sealed pre (cut ++ []) := sealedOf source.whole fun a n is free h => by
      refine source.closed a n is free ?_
      rw [same,List.append_nil]
      rw [List.append_nil] at h
      exact h.trans (List.prefix_append ..).isInfix
    exact expandPart source.whole source.before source.behind source.clean contents lines (List.append_nil _).symm shorter beside all

end

theorem fillFits {pre post text : Bytes} {kvs : List (Option Bytes × Option Bytes)} (source : Source b pre post text)
    (all : ∀ l ∈ b.body, indented l) (fits : Fits (rowsOf b.body) (callerVars kvs)) : yamlExpandVars text kvs = b.expanded kvs pre post := by
  rw [expandSource source all,VarsBlock.expanded]
  refine fillCongr source.clean (fun n free clean => ?_) 0
  exact (rightIff b.once b.apart).mpr fits _ (wordPart ⟨free,clean⟩ (trimmedPart n))

/-- A name in quotes, with blanks in front. -/
def quoted (pad t : Bytes) : Bytes := pad ++ 34 :: (t ++ [34])

theorem trimmedQuoted {pad : Bytes} (padBlank : ∀ c ∈ pad, blank c) (t : Bytes) : trimmed (quoted pad t) = t := by
  have front : (quoted pad t).dropWhile blank = 34 :: (t ++ [34]) := by
    rw [quoted,List.dropWhile_append_of_pos padBlank]
    rfl
  have back : (34 :: (t ++ [34])).rdropWhile blank = 34 :: (t ++ [34]) := by
    rw [← List.cons_append,List.rdropWhile_concat_neg _ _ _ (by decide)]
  rw [trimmed,trim,front,back,unquote,if_pos ⟨by simp,.inl ⟨rfl,by rw [← List.cons_append,List.getLast?_concat]⟩⟩,List.tail_cons,List.dropLast_concat]

theorem wordQuoted {t : Bytes} (word : Word t) (pad : Bytes) (free : 125 ∉ pad) : ¬[125,125] <:+: quoted pad t := by
  have inner : ¬[125,125] <:+: 34 :: (t ++ [34]) := by
    rw [List.infix_cons_iff,not_or,List.infix_concat_iff,not_or]
    refine ⟨by simp,?_,word.1⟩
    rintro ⟨s,same⟩
    have := congrArg List.getLast? same
    simp at this
  induction pad with
  | nil => exact inner
  | cons c pad ih =>
    obtain ⟨other,free⟩ := not_or.mp (mt List.mem_cons.mpr free)
    rw [quoted,List.cons_append,List.infix_cons_iff,not_or,← quoted]
    exact ⟨by simp [other],ih free⟩

/-- A text of one token. -/
theorem fillToken {t : Bytes} (word : Word t) {pad : Bytes} (padBlank : ∀ c ∈ pad, blank c) (f : Bytes → Option Bytes) :
    fill (fun name => f (trimmed name)) 0 (verbatim (quoted pad t)) = (f t).getD (verbatim (quoted pad t)) := by
  have free : 125 ∉ pad := fun h => absurd (padBlank _ h) (by decide)
  have last : (quoted pad t).getLast? ≠ some 125 := by
    rw [quoted,← List.cons_append,← List.append_assoc,List.getLast?_concat]
    decide
  have closes : closing (quoted pad t ++ [125,125]) = some (quoted pad t) := by
    rw [closingThrough (closingNone.mpr (wordQuoted word pad free)) last]
    simp [closing]
  have is : token (verbatim (quoted pad t)) = some (quoted pad t) := closes
  have skip := fillSkip (f := fun name => f (trimmed name)) (123 :: (quoted pad t ++ [125,125])) []
  rw [List.append_nil] at skip
  have length : (123 :: (quoted pad t ++ [125,125])).length = (quoted pad t).length + 3 := by simp
  rw [length] at skip
  rw [verbatim] at is ⊢
  rw [fill,is]
  dsimp only
  rw [skip,fill,List.append_nil,trimmedQuoted padBlank,verbatim]

theorem behindBrace (s : Bytes) : Behind (123 :: s) := by
  obtain ⟨l,ls,lines⟩ : ∃ l ls, rawLines (123 :: s) = (123 :: l) :: ls := ⟨_,_,by rw [rawLines,if_neg (by decide)]⟩
  have first : content (123 :: l) = 123 :: content l := contentCons (by decide) l
  have solid : indented (123 :: l) = false := rfl
  have told : ¬((content (123 :: l)).all blank = true ∨ remark (content (123 :: l)) = true) := by
    rw [first,remark,List.dropWhile_cons_of_neg (by decide)]
    simp [blank]
  constructor
  · rw [lines]
    rintro _ ⟨⟩
    simp [solid]
  · rw [lines,List.find?_cons_of_pos (by simpa using told)]
    rintro _ ⟨⟩
    simp [solid]

/-- What the code does wherever the block stands. -/
def Expands (b : VarsBlock) (kvs : List (Option Bytes × Option Bytes)) : Prop :=
  ∀ pre post text, Source b pre post text → yamlExpandVars text kvs = b.expanded kvs pre post

section
variable {kvs : List (Option Bytes × Option Bytes)}

theorem sourceBefore {post : Bytes} (behind : Behind post) (clean : 0 ∉ post) : Source b [] post (b.text ++ post) where
  whole := .inl rfl
  before l mem := by cases mem
  behind := behind
  closed s n is := by simp at is
  clean := clean
  is := .inl rfl

theorem expandsRight (expands : Expands b kvs) (all : ∀ l ∈ b.body, indented l) : Right (rowsOf b.body) (callerVars kvs) := by
  intro t word
  have same (pad : Bytes) (padBlank : ∀ c ∈ pad, blank c) : (kept (rowsOf b.body) (callerVars kvs) t).getD (verbatim (quoted pad t)) =
      (wanted (rowsOf b.body) (callerVars kvs) t).getD (verbatim (quoted pad t)) := by
    have clean : 0 ∉ verbatim (quoted pad t) := by
      have noPad : 0 ∉ pad := fun h => absurd (padBlank _ h) (by decide)
      simp [verbatim,quoted,noPad,word.2]
    have source : Source b [] (verbatim (quoted pad t)) (b.text ++ verbatim (quoted pad t)) := sourceBefore (behindBrace _) clean
    have code := (expandSource source all).symm.trans (expands _ _ _ source)
    rw [VarsBlock.expanded,List.nil_append] at code
    rwa [fillToken word padBlank,fillToken word padBlank] at code
  have tight := same [] fun c mem => by cases mem
  have wide := same [32] (by simp [blank])
  have differ : verbatim (quoted [] t) ≠ verbatim (quoted [32] t) := fun h => by
    have := congrArg List.length h
    simp [verbatim,quoted] at this
  cases code : kept (rowsOf b.body) (callerVars kvs) t with
  | none =>
    cases text : wanted (rowsOf b.body) (callerVars kvs) t with
    | none => rfl
    | some v =>
      rw [code,text] at tight wide
      exact absurd (tight.trans wide.symm) differ
  | some v =>
    cases text : wanted (rowsOf b.body) (callerVars kvs) t with
    | none =>
      rw [code,text] at tight wide
      exact absurd (tight.symm.trans wide) differ
    | some w =>
      rw [code,text] at tight
      exact congrArg some tight

/-- A line that is not indented has no brace in front. -/
theorem looseFirst {l : Bytes} (mem : l ∈ b.body) (out : ¬indented l) : ∃ c s, l ++ [10] = c :: s ∧ c ≠ 123 := by
  have kind := b.kinds l mem
  cases l with
  | nil => exact ⟨10,[],rfl,by decide⟩
  | cons c l =>
    refine ⟨c,l ++ [10],rfl,?_⟩
    rintro rfl
    obtain all | note | ⟨inner,-⟩ := kind
    · simp [blank] at all
    · rw [remark,List.dropWhile_cons_of_neg (by decide)] at note
      simp at note
    · exact out inner

theorem expandsIndented (expands : Expands b kvs) : ∀ l ∈ b.body, indented l := by
  by_contra some_
  obtain ⟨m,ms,rest⟩ : ∃ m ms, (b.body.map (· ++ [10])).dropWhile indented = m :: ms := by
    refine List.exists_cons_of_ne_nil fun none_ => some_ fun l mem => ?_
    have is := List.dropWhile_eq_nil_iff.mp none_ _ (List.mem_map_of_mem mem)
    rwa [← indentedContent,contentLine (b.clean l mem).2] at is
  have out : ¬indented m := by
    have stops := List.head?_dropWhile_not indented (b.body.map (· ++ [10]))
    rw [rest] at stops
    simpa using stops
  obtain ⟨l,mem,line⟩ : ∃ l ∈ b.body, l ++ [10] = m := by
    have : m ∈ (b.body.map (· ++ [10])).dropWhile indented := rest ▸ List.mem_cons_self
    exact List.mem_map.mp ((List.dropWhile_suffix _).subset this)
  obtain ⟨c,s,first,other⟩ := looseFirst mem fun inner => out (by rw [← line,← indentedContent,contentLine (b.clean l mem).2]; exact inner)
  have split := List.takeWhile_append_dropWhile (p := indented) (l := b.body.map (· ++ [10]))
  rw [rest] at split
  have lines : rawLines b.text = rawLines [] ++ ((b.head ++ [10]) :: ((b.body.map (· ++ [10])).takeWhile indented ++ (m :: ms))) := by
    rw [split,textLines]
    rfl
  have is : b.text = [] ++ ((b.head ++ [10]) :: (b.body.map (· ++ [10])).takeWhile indented).flatten ++ (m :: ms).flatten := by
    rw [← rawLinesFlat b.text,lines,rawLines,List.nil_append,List.nil_append,← List.cons_append,List.flatten_append]
  have nothing {t : Bytes} : Sealed [] t := sealedOf (.inl rfl) fun a n is => by simp at is
  have code := expandCut kvs (.inl rfl) (fun l mem => by cases mem) lines (headerOf (contentLine (headClean b).2 [])) (by simp)
    (fun l mem => List.mem_takeWhile_imp mem) (by rintro _ ⟨⟩; exact out) is nothing nothing
  have source : Source b [] [] b.text := by
    have above : Behind [] := ⟨by rintro _ ⟨⟩,by rintro _ ⟨⟩⟩
    have := sourceBefore (b := b) above (by simp)
    rwa [List.append_nil] at this
  rw [expands _ _ _ source,List.flatten_cons,← line,first] at code
  have empty : b.expanded kvs [] [] = [] := rfl
  have plain (t : Bytes) : token (c :: t) = none := by
    rw [token.eq_def]
    split
    · rename_i same
      exact absurd (List.cons.inj same).1 other
    · rfl
  rw [empty,List.nil_append,List.cons_append,fill,plain] at code
  cases code

end

/-- The code expands a text as it should, wherever the block stands in it, just where every line of the block is indented and the
table has room for all of it. -/
theorem expandsIff (b : VarsBlock) (kvs : List (Option Bytes × Option Bytes)) :
    (∀ pre post text, Source b pre post text → yamlExpandVars text kvs = b.expanded kvs pre post) ↔
      (∀ l ∈ b.body, indented l) ∧ Fits (rowsOf b.body) (callerVars kvs) where
  mp expands := ⟨expandsIndented expands,(rightIff b.once b.apart).mp (expandsRight expands (expandsIndented expands))⟩
  mpr fits _ _ _ source := fillFits source fits.1 fits.2

/-- An empty line between two variables. -/
def gap : VarsBlock where
  pad := []
  body := [ascii "  a: 1",[],ascii "  b: 2"]
  padBlank := by simp
  clean := by decide
  kinds := by decide
  ends := by decide
  once := by decide
  apart := by decide

theorem gapStays : Source gap [] (ascii "x: \x7b\x7bb\x7d\x7d\n") (ascii "vars:\n  a: 1\n\n  b: 2\nx: \x7b\x7bb\x7d\x7d\n") ∧
    yamlExpandVars (ascii "vars:\n  a: 1\n\n  b: 2\nx: \x7b\x7bb\x7d\x7d\n") [] = ascii "\n  b: 2\nx: \x7b\x7bb\x7d\x7d\n" ∧
    gap.expanded [] [] (ascii "x: \x7b\x7bb\x7d\x7d\n") = ascii "x: 2\n" :=
  ⟨sourceBefore (b := gap) (by rw [Behind]; decide) (by decide),by decide,by decide⟩

end Napastak.YamlTemplate
