import Napastak.Csv

/-! A script step: the table it hands to the script as CSV, and the CSV it takes back. The output is cut into
lines before its quotes are looked at, unlike an upload, and the input quotes no `\r` and no column name. -/
namespace Napastak.ScriptCsv
open Store (quote cr lf cstr comma quoted BareOf joinWith LineEnds)
open Csv (splitLineRfc4180Q Separates CsvField CsvRecord CsvText rowText ending headerA)

abbrev Cell := Option Bytes

/-- `MAX_RS_ROWS`. -/
def rowsMax : Nat := 100000

/-- The pieces between the `\n`s. -/
def physicalLines : Bytes → List Bytes
  | [] => [[]]
  | c :: s =>
    if c = lf then [] :: physicalLines s
    else
      match physicalLines s with
      | [] => [[c]]
      | l :: ls => (c :: l) :: ls

/-! ### The input -/

def needsQ (v : Bytes) : Bool := v.any fun c => c = comma ∨ c = quote ∨ c = lf

def inputCell (v : Bytes) : Bytes := if needsQ v then quoted v else v

/-- `script_step_input_csv` on the result of the step's query, SQL NULL being `DFO_NULL_SENTINEL`. -/
def scriptStepInputCsv (names : List Bytes) (rows : List (List Bytes)) : Bytes :=
  joinWith comma names ++ [lf] ++ rows.flatMap fun row => joinWith comma (row.map inputCell) ++ [lf]

/-! ### The output -/

/-- The cells of a line under the header; a line the splitter rejects has no fields. -/
def outputCells (ncols : Nat) (line : Bytes) : List Bytes :=
  let fields := (splitLineRfc4180Q comma line).getD []
  (List.range ncols).map fun i =>
    match fields[i]? with
    | some (f,_) => if f ≠ [] then f else nullSentinel
    | none => nullSentinel

structure Stored where
  names : List Bytes
  rows : List (List Cell)
  deriving DecidableEq

/-- `write_rs_to_table`: the sentinel is stored as NULL. -/
def writeRsToTable (names : List Bytes) (rows : List (List Bytes)) : Stored :=
  ⟨names,rows.map fun row => row.map fun v => if v = nullSentinel then none else some v⟩

/-- `script_step_ingest_output` for a step with a target: the step fails, stores nothing, or a table. -/
def scriptStepIngestOutput (out : Bytes) : Option (Option Stored) :=
  if out = [] then some none
  else
    let body := cstr out
    let header := body.takeWhile (· ≠ lf)
    if header.length = body.length then none
    else do
      let fields ← splitLineRfc4180Q comma header
      let rows := ((physicalLines (body.drop (header.length + 1))).filter (· ≠ [])).map (outputCells fields.length)
      if rowsMax < rows.length then none else some (some (writeRsToTable (fields.map (·.1)) rows))

/-! ### What is meant -/

/-- A field as it is to be stored: NULL where it is empty and without quotes. -/
def meantCell (f : Bytes × Bool) : Cell := if f.1 = [] ∧ f.2 = false then none else some f.1

def rowsStored (out : Option Stored) : List (List Cell) := (out.map Stored.rows).getD []

/-- The step fails, or stores the rows of the text as they are meant. -/
def OutputKept (t : CsvText comma) : Prop :=
  ∀ out ∈ scriptStepIngestOutput t.render, rowsStored out = t.contents.tail.map fun r => r.map meantCell

/-- A text whose records are the table. -/
def ParsesTo (csv : Bytes) (table : List (List Bytes)) : Prop :=
  ∃ t : CsvText comma, t.render = csv ∧ (t.contents.map fun r => r.map (·.1)) = table

/-! ### Lines -/

theorem linesBefore {l : Bytes} (noLf : lf ∉ l) (rest : Bytes) : physicalLines (l ++ lf :: rest) = l :: physicalLines rest := by
  induction l with
  | nil => rw [List.nil_append,physicalLines,if_pos rfl]
  | cons c l ih =>
    have other : c ≠ lf := fun e => noLf (e ▸ List.mem_cons_self)
    rw [List.cons_append,physicalLines,if_neg other,ih fun mem => noLf (List.mem_cons_of_mem _ mem)]

theorem linesWhole {l : Bytes} (noLf : lf ∉ l) : physicalLines l = [l] := by
  induction l with
  | nil => rfl
  | cons c l ih =>
    have other : c ≠ lf := fun e => noLf (e ▸ List.mem_cons_self)
    rw [physicalLines,if_neg other,ih fun mem => noLf (List.mem_cons_of_mem _ mem)]

theorem linesSome (s : Bytes) : physicalLines s ≠ [] := by
  cases s with
  | nil => nofun
  | cons c s =>
    rw [physicalLines]
    split
    · nofun
    · split <;> nofun

theorem linesSplit (s : Bytes) (rest : Bytes) : physicalLines (s ++ lf :: rest) = physicalLines s ++ physicalLines rest := by
  induction s with
  | nil =>
    rw [List.nil_append]
    exact linesBefore List.not_mem_nil rest
  | cons c s ih =>
    rw [List.cons_append,physicalLines,physicalLines]
    split
    · rw [ih,List.cons_append]
    · rw [ih]
      cases lines : physicalLines s with
      | nil => exact absurd lines (linesSome s)
      | cons l ls => rfl

theorem linesNoLf {s l : Bytes} (mem : l ∈ physicalLines s) : lf ∉ l := by
  induction s generalizing l with
  | nil => rw [List.mem_singleton.mp mem]; exact List.not_mem_nil
  | cons c s ih =>
    rw [physicalLines] at mem
    split at mem
    · rcases List.mem_cons.mp mem with rfl | mem
      · exact List.not_mem_nil
      · exact ih mem
    · rename_i other
      split at mem
      · rw [List.mem_singleton.mp mem,List.mem_singleton]
        exact Ne.symm other
      · rename_i first ls lines
        have known : ∀ k ∈ first :: ls, lf ∉ k := fun k hk => ih (lines ▸ hk)
        rcases List.mem_cons.mp mem with rfl | mem
        · exact fun inside => (List.mem_cons.mp inside).elim (fun e => other e.symm) (known first List.mem_cons_self)
        · exact known l (List.mem_cons_of_mem _ mem)

/-- The lines of a record that are not empty, each of which becomes a row. -/
def rowLines (p : CsvRecord comma × Bool) : List Bytes := (physicalLines (rowText p)).filter (· ≠ [])

theorem recordEnds (p : CsvRecord comma × Bool) (rest : Bytes) :
    p.1.line ++ ending p.2 ++ rest = rowText p ++ lf :: rest := by
  obtain ⟨r,crlf⟩ := p
  rw [rowText]
  cases crlf <;> simp [ending]

theorem bodyLines (records : List (CsvRecord comma × Bool)) (last : Option (CsvRecord comma)) :
    (physicalLines ((records.flatMap fun r => r.1.line ++ ending r.2) ++ (last.map CsvRecord.line).getD [])).filter (· ≠ []) =
      (records ++ last.toList.map (·,false)).flatMap rowLines := by
  induction records with
  | nil =>
    cases last with
    | none => rfl
    | some r =>
      simp only [List.flatMap_nil,List.nil_append,Option.map_some,Option.getD_some,Option.toList_some,List.map_cons,List.map_nil,
        List.flatMap_cons,List.append_nil,rowLines,rowText,Bool.false_eq_true,if_false]
  | cons r rs ih =>
    rw [List.flatMap_cons,List.append_assoc,recordEnds,linesSplit,List.filter_append,ih,List.cons_append,List.flatMap_cons,rowLines]

/-! ### Bytes of the fields -/

theorem quotedFrom {s rest v : Bytes} (read : Store.quotedField s = some (v,rest)) : (∀ c ∈ v, c ∈ s) ∧ ∀ c ∈ rest, c ∈ s := by
  fun_induction Store.quotedField s generalizing v with
  | case1 => contradiction
  | case2 =>
    cases read
    exact ⟨List.forall_mem_nil _,List.forall_mem_nil _⟩
  | case3 c is => contradiction
  | case4 cs ih =>
    obtain ⟨⟨v',rest'⟩,inner,both⟩ := Option.map_eq_some_iff.mp read
    cases both
    obtain ⟨known,after⟩ := ih inner
    refine ⟨fun c hc => ?_,fun c hc => List.mem_cons_of_mem _ (List.mem_cons_of_mem _ (after c hc))⟩
    rcases List.mem_cons.mp hc with rfl | hc
    · exact List.mem_cons_self
    · exact List.mem_cons_of_mem _ (List.mem_cons_of_mem _ (known c hc))
  | case5 d cs other =>
    cases read
    exact ⟨List.forall_mem_nil _,fun c hc => List.mem_cons_of_mem _ hc⟩
  | case6 c d cs other ih =>
    obtain ⟨⟨v',rest'⟩,inner,both⟩ := Option.map_eq_some_iff.mp read
    cases both
    obtain ⟨known,after⟩ := ih inner
    refine ⟨fun e he => ?_,fun e he => List.mem_cons_of_mem _ (after e he)⟩
    rcases List.mem_cons.mp he with rfl | he
    · exact List.mem_cons_self
    · exact List.mem_cons_of_mem _ (known e he)

theorem plainFrom {delim : UInt8} {s rest v : Bytes} (read : Store.plainField delim s = some (v,rest)) : s = v ++ rest := by
  induction s generalizing v with
  | nil => cases read; rfl
  | cons c s ih =>
    rw [Store.plainField] at read
    split at read
    · cases read; rfl
    split at read
    · contradiction
    · obtain ⟨⟨v',rest'⟩,inner,both⟩ := Option.map_eq_some_iff.mp read
      cases both
      rw [ih inner]
      rfl

theorem fieldFrom {delim : UInt8} {s rest : Bytes} {f : Bytes × Bool} (read : Store.rfcField delim s = some (f,rest)) :
    (∀ c ∈ f.1, c ∈ s) ∧ ∀ c ∈ rest, c ∈ s := by
  cases s with
  | nil => cases read; exact ⟨List.forall_mem_nil _,List.forall_mem_nil _⟩
  | cons c s =>
    rw [Store.rfcField] at read
    split at read
    · split at read
      · contradiction
      · rename_i v tail inner
        obtain ⟨known,after⟩ := quotedFrom inner
        have all : (∀ e ∈ v, e ∈ c :: s) ∧ ∀ e ∈ tail, e ∈ c :: s :=
          ⟨fun e he => List.mem_cons_of_mem _ (known e he),fun e he => List.mem_cons_of_mem _ (after e he)⟩
        split at read
        · cases read; exact all
        · split at read
          · cases read; exact all
          · contradiction
    · obtain ⟨⟨v,tail⟩,inner,both⟩ := Option.map_eq_some_iff.mp read
      cases both
      rw [plainFrom inner]
      exact ⟨fun e he => List.mem_append_left _ he,fun e he => List.mem_append_right _ he⟩

/-- The splitter's fields are made of bytes of the line. -/
theorem splitFrom {delim : UInt8} {fuel : Nat} {s : Bytes} {fs : List (Bytes × Bool)}
    (read : Store.splitRfcGo delim fuel s = some fs) : ∀ f ∈ fs, ∀ c ∈ f.1, c ∈ s := by
  induction fuel generalizing s fs with
  | zero => contradiction
  | succ fuel ih =>
    rw [Store.splitRfcGo] at read
    split at read
    · contradiction
    · rename_i f d rest one
      obtain ⟨known,after⟩ := fieldFrom one
      split at read
      · obtain ⟨more,next,rfl⟩ := Option.map_eq_some_iff.mp read
        intro g hg c hc
        rcases List.mem_cons.mp hg with rfl | hg
        · exact known c hc
        · exact after c (List.mem_cons_of_mem _ (ih next g hg c hc))
      · cases read
        intro g hg
        rw [List.mem_singleton.mp hg]
        exact known
    · rename_i f one
      cases read
      intro g hg
      rw [List.mem_singleton.mp hg]
      exact (fieldFrom one).1

theorem cellsNoLf {ncols : Nat} {line : Bytes} (noLf : lf ∉ line) : ∀ v ∈ outputCells ncols line, lf ∉ v := by
  intro v hv
  obtain ⟨i,_,is⟩ := List.mem_map.mp hv
  have sentinel : lf ∉ nullSentinel := by decide
  split at is
  · rename_i f q at_
    split at is
    · subst is
      intro inside
      rw [splitLineRfc4180Q] at at_
      cases split_ : Store.splitRfcGo comma ((cstr line).length + 1) (cstr line) with
      | none => rw [split_] at at_; simp at at_
      | some fs =>
        rw [split_,Option.getD_some] at at_
        exact noLf (List.takeWhile_subset _ (splitFrom split_ _ (List.mem_of_getElem? at_) lf inside))
    · exact is ▸ sentinel
  · exact is ▸ sentinel

/-! ### Rows -/

theorem escapedMem {c : UInt8} (other : c ≠ quote) (v : Bytes) : c ∈ quoted v ↔ c ∈ v := by
  simp only [quoted,List.cons_append,List.mem_cons,List.mem_append,List.mem_flatMap,List.not_mem_nil,or_false,other,false_or]
  constructor
  · rintro ⟨d,hd,hc⟩
    split at hc
    · simp [other] at hc
    · exact List.mem_singleton.mp hc ▸ hd
  · intro mem
    exact ⟨c,mem,by rw [if_neg other]; exact List.mem_singleton.mpr rfl⟩

theorem renderedLf (f : CsvField comma) : lf ∈ f.render ↔ lf ∈ f.text := by
  rw [CsvField.render]
  split
  · exact escapedMem (by decide) f.text
  · rfl

theorem joinedLf (fs : List (CsvField comma)) :
    lf ∈ joinWith comma (fs.map CsvField.render) ↔ ∃ f ∈ fs, lf ∈ f.text := by
  induction fs with
  | nil => simp [joinWith]
  | cons f fs ih =>
    cases fs with
    | nil => simp [joinWith,renderedLf]
    | cons g fs =>
      have joined : joinWith comma ((f :: g :: fs).map CsvField.render) =
          f.render ++ ([comma] ++ joinWith comma ((g :: fs).map CsvField.render)) := rfl
      have mark : lf ∉ [comma] := by decide
      rw [joined,List.mem_append,List.mem_append,ih,renderedLf]
      simp only [mark,false_or]
      simp only [List.mem_cons,exists_eq_or_imp]

theorem rowLf (p : CsvRecord comma × Bool) : lf ∈ rowText p ↔ ∃ f ∈ p.1.fields, lf ∈ f.text := by
  rw [rowText,List.mem_append,CsvRecord.line,joinedLf]
  refine or_iff_left fun mem => ?_
  split at mem
  · simp [lf,cr] at mem
  · contradiction

theorem rowRead (p : CsvRecord comma × Bool) : splitLineRfc4180Q comma (rowText p) = some p.1.read := by
  rw [rowText]
  refine Csv.recordReadTo (by decide) p.1 ?_ ?_
  · split
    · exact .inr ⟨by decide,[],rfl⟩
    · exact .inl rfl
  · split <;> decide

/-- What is stored of a line. -/
def storedCells (ncols : Nat) (line : Bytes) : List Cell :=
  (outputCells ncols line).map fun v => if v = nullSentinel then none else some v

/-- A record under as many columns, without a line end in it, an empty text in quotes or the sentinel's text, and no
empty line. -/
def RowKept (ncols : Nat) (p : CsvRecord comma × Bool) : Prop :=
  p.1.fields.length = ncols ∧
    (∀ f ∈ p.1.fields, lf ∉ f.text ∧ (f.text = [] → f.quoted = false) ∧ f.text ≠ nullSentinel) ∧ rowText p ≠ []

theorem cellsMeant (p : CsvRecord comma × Bool) (ncols : Nat) :
    storedCells ncols (rowText p) = p.1.read.map meantCell ↔ p.1.fields.length = ncols ∧
      ∀ f ∈ p.1.fields, (f.text = [] → f.quoted = false) ∧ f.text ≠ nullSentinel := by
  have fields : storedCells ncols (rowText p) = (List.range ncols).map fun i => match p.1.fields[i]? with
      | some f => if f.text = [] ∨ f.text = nullSentinel then none else some f.text
      | none => none := by
    rw [storedCells,outputCells,rowRead,List.map_map]
    refine List.map_congr_left fun i _ => ?_
    simp only [Function.comp_apply,Option.getD_some,CsvRecord.read,List.getElem?_map]
    cases p.1.fields[i]? with
    | none => rfl
    | some f =>
      simp only [Option.map_some,ne_eq,ite_not]
      by_cases empty : f.text = []
      · simp [empty]
      · simp [empty]
  have one : ∀ f : CsvField comma, (if f.text = [] ∨ f.text = nullSentinel then none else some f.text) =
      meantCell (f.text,f.quoted) ↔ (f.text = [] → f.quoted = false) ∧ f.text ≠ nullSentinel := fun f => by
    rw [meantCell]
    have apart : ([] : Bytes) ≠ nullSentinel := by decide
    by_cases empty : f.text = []
    · simp [empty,apart]
    · by_cases sentinel : f.text = nullSentinel <;> simp [empty,sentinel,apart.symm]
  rw [fields,CsvRecord.read,List.map_map]
  constructor
  · intro same
    have width : p.1.fields.length = ncols := by simpa using (congrArg List.length same).symm
    refine ⟨width,fun f hf => (one f).mp ?_⟩
    obtain ⟨i,less,is⟩ := List.mem_iff_getElem.mp hf
    have at_ := congrArg (·[i]?) same
    simp only [List.getElem?_map,List.getElem?_range (width ▸ less),Option.map_some,List.getElem?_eq_getElem less,is,
      Option.some.injEq] at at_
    exact at_
  · rintro ⟨rfl,each⟩
    apply List.ext_getElem?
    intro i
    rw [List.getElem?_map,List.getElem?_map]
    by_cases less : i < p.1.fields.length
    · simp only [List.getElem?_range less,List.getElem?_eq_getElem less,Option.map_some]
      exact congrArg some ((one _).mpr (each _ (List.getElem_mem less)))
    · rw [List.getElem?_eq_none (by simpa using less),List.getElem?_eq_none (Nat.not_lt.mp less)]
      rfl

theorem rowLinesPlain {p : CsvRecord comma × Bool} (noLf : ∀ f ∈ p.1.fields, lf ∉ f.text) :
    rowLines p = [rowText p].filter (· ≠ []) := by
  rw [rowLines,linesWhole fun mem => (rowLf p).mp mem |>.elim fun f h => noLf f h.1 h.2]

/-- The lines of the rows are stored as the rows are meant exactly when each is kept. -/
theorem rowsMeant (ps : List (CsvRecord comma × Bool)) (ncols : Nat) :
    (ps.flatMap rowLines).map (storedCells ncols) = ps.map (fun p => p.1.read.map meantCell) ↔ ∀ p ∈ ps, RowKept ncols p := by
  constructor
  · intro same
    have noLf : ∀ p ∈ ps, ∀ f ∈ p.1.fields, lf ∉ f.text := fun p hp f hf inside => by
      have meant : p.1.read.map meantCell ∈ (ps.flatMap rowLines).map (storedCells ncols) :=
        same ▸ List.mem_map.mpr ⟨p,hp,rfl⟩
      obtain ⟨line,mem,is⟩ := List.mem_map.mp meant
      obtain ⟨q,_,from_⟩ := List.mem_flatMap.mp mem
      have lineNoLf := linesNoLf (List.mem_filter.mp from_).1
      have cell : some f.text ∈ storedCells ncols line := by
        rw [is]
        refine List.mem_map.mpr ⟨(f.text,f.quoted),List.mem_map.mpr ⟨f,hf,rfl⟩,?_⟩
        rw [meantCell,if_neg fun h => List.ne_nil_of_mem inside h.1]
      obtain ⟨v,hv,is⟩ := List.mem_map.mp cell
      split at is
      · contradiction
      · exact cellsNoLf lineNoLf v hv (Option.some.inj is ▸ inside)
    have lines : ps.flatMap rowLines = (ps.map rowText).filter (· ≠ []) := by
      clear same
      induction ps with
      | nil => rfl
      | cons p ps ih =>
        rw [List.flatMap_cons,rowLinesPlain (noLf p List.mem_cons_self),ih fun q hq => noLf q (List.mem_cons_of_mem _ hq),
          ← List.filter_append]
        rfl
    rw [lines] at same
    have all := congrArg List.length same
    have count : ps.length = (ps.map rowText).length := (List.length_map rowText).symm
    rw [List.length_map,List.length_map,count,List.length_filter_eq_length_iff] at all
    rw [List.filter_eq_self.mpr all,List.map_map] at same
    intro p hp
    have row := List.map_inj_left.mp same p hp
    obtain ⟨width,each⟩ := (cellsMeant p ncols).mp row
    exact ⟨width,fun f hf => ⟨noLf p hp f hf,each f hf⟩,by simpa using all (rowText p) (List.mem_map_of_mem hp)⟩
  · intro kept
    induction ps with
    | nil => rfl
    | cons p ps ih =>
      obtain ⟨width,each,some_⟩ := kept p List.mem_cons_self
      rw [List.flatMap_cons,List.map_append,ih fun q hq => kept q (List.mem_cons_of_mem _ hq),
        rowLinesPlain fun f hf => (each f hf).1,List.filter_cons,if_pos (by simpa using some_),List.filter_nil,List.map_singleton,
        (cellsMeant p ncols).mpr ⟨width,fun f hf => (each f hf).2⟩]
      rfl

/-! ### The header -/

/-- Cut inside its quotes, a field is not closed. -/
theorem cutOpen {v : Bytes} (inside : lf ∈ v) (s : Bytes) :
    Store.quotedField (((v.flatMap fun c => if c = quote then [quote,quote] else [c]) ++ s).takeWhile (· ≠ lf)) = none := by
  induction v with
  | nil => contradiction
  | cons c v ih =>
    rw [List.flatMap_cons,List.append_assoc]
    by_cases here : c = lf
    · subst here
      rfl
    · have inside : lf ∈ v := (List.mem_cons.mp inside).resolve_left (Ne.symm here)
      by_cases is : c = quote
      · rw [if_pos is]
        have two : ([quote,quote] ++ ((v.flatMap fun c => if c = quote then [quote,quote] else [c]) ++ s)).takeWhile (· ≠ lf) =
            quote :: quote :: ((v.flatMap fun c => if c = quote then [quote,quote] else [c]) ++ s).takeWhile (· ≠ lf) := rfl
        rw [two,Store.quotedField,if_pos rfl,if_pos rfl,ih inside]
        rfl
      · rw [if_neg is,List.singleton_append,List.takeWhile_cons,if_pos (by simpa using here)]
        have rest := ih inside
        cases cut : ((v.flatMap fun c => if c = quote then [quote,quote] else [c]) ++ s).takeWhile (· ≠ lf) with
        | nil => rw [Store.quotedField,if_neg is]
        | cons d t =>
          rw [cut] at rest
          rw [Store.quotedField,if_neg is,rest]
          rfl

theorem takeThrough {s : Bytes} (noLf : lf ∉ s) (t : Bytes) : (s ++ t).takeWhile (· ≠ lf) = s ++ t.takeWhile (· ≠ lf) :=
  List.takeWhile_append_of_pos fun c hc => by simpa using fun e : c = lf => noLf (e ▸ hc)

/-- A header cut at a line end inside one of its fields is malformed. -/
theorem headerCut {fs : List (CsvField comma)} (inside : ∃ f ∈ fs, lf ∈ f.text) (fuel : Nat) (s : Bytes) :
    Store.splitRfcGo comma fuel ((joinWith comma (fs.map CsvField.render) ++ s).takeWhile (· ≠ lf)) = none := by
  have open_ : ∀ (f : CsvField comma) (t : Bytes) (fuel : Nat), lf ∈ f.text →
      Store.splitRfcGo comma fuel ((f.render ++ t).takeWhile (· ≠ lf)) = none := fun f t fuel has => by
    cases fuel with
    | zero => rfl
    | succ fuel =>
      have quoted_ : f.quoted = true := by
        by_contra bare
        exact (f.bare (Bool.eq_false_iff.mpr bare) lf has).2.2.1 rfl
      have cut := cutOpen has ([quote] ++ t)
      have text : (f.render ++ t).takeWhile (· ≠ lf) =
          quote :: (((f.text.flatMap fun c => if c = quote then [quote,quote] else [c]) ++ ([quote] ++ t)).takeWhile (· ≠ lf)) := by
        rw [CsvField.render,if_pos quoted_,← List.append_assoc]
        rfl
      rw [text,Store.splitRfcGo,Store.rfcField,if_pos rfl,cut]
  induction fs generalizing fuel with
  | nil => obtain ⟨_,mem,_⟩ := inside; contradiction
  | cons f fs ih =>
    by_cases here : lf ∈ f.text
    · cases fs with
      | nil => exact open_ f s fuel here
      | cons g fs =>
        have joined : joinWith comma ((f :: g :: fs).map CsvField.render) ++ s =
            f.render ++ (comma :: joinWith comma ((g :: fs).map CsvField.render) ++ s) := List.append_assoc _ _ _
        rw [joined]
        exact open_ f _ fuel here
    · obtain ⟨g,mem,has⟩ := inside
      have mem : g ∈ fs := (List.mem_cons.mp mem).resolve_left fun e => here (e ▸ has)
      cases fs with
      | nil => contradiction
      | cons k fs =>
        cases fuel with
        | zero => rfl
        | succ fuel =>
          have joined : joinWith comma ((f :: k :: fs).map CsvField.render) ++ s =
              f.render ++ (comma :: (joinWith comma ((k :: fs).map CsvField.render) ++ s)) := List.append_assoc _ _ _
          rw [joined,takeThrough fun has => here ((renderedLf f).mp has),List.takeWhile_cons,if_pos (by decide),Store.splitRfcGo,
            Store.rfcFieldHalts (by decide) (Csv.fieldWritten f) (Store.delimHalts _)]
          simp only [if_true,ih ⟨g,mem,has⟩,Option.map_none]

theorem headerNone {h : CsvRecord comma} (inside : ∃ f ∈ h.fields, lf ∈ f.text) {s : Bytes} (noNul : (0 : UInt8) ∉ h.line ++ s) :
    splitLineRfc4180Q comma ((h.line ++ s).takeWhile (· ≠ lf)) = none := by
  have whole : (0 : UInt8) ∉ (h.line ++ s).takeWhile (· ≠ lf) := fun zero => noNul (List.takeWhile_subset _ zero)
  rw [splitLineRfc4180Q,Store.cstrSelf whole]
  exact headerCut inside _ s

/-! ### The rows that are stored -/

/-- What the claim about the output depends on: the text ends before its first record does, its header is cut, its
rows are too many for one result, or every row is kept. -/
def OutputCondition (t : CsvText comma) : Prop :=
  match t.records with
  | [] => True
  | (h,_) :: _ => (∃ f ∈ h.fields, lf ∈ f.text) ∨ rowsMax < (t.parts.tail.flatMap rowLines).length ∨
      ∀ p ∈ t.parts.tail, RowKept h.fields.length p

theorem renderNoNul (t : CsvText comma) : (0 : UInt8) ∉ t.render := fun mem => by
  rcases List.mem_append.mp mem with mem | mem
  · obtain ⟨⟨r,crlf⟩,_,inside⟩ := List.mem_flatMap.mp mem
    rcases List.mem_append.mp inside with inside | inside
    · exact Csv.lineNoNul (by decide) r inside
    · cases crlf <;> simp [ending,cr,lf] at inside
  · cases last : t.last with
    | none => rw [last] at mem; contradiction
    | some r =>
      rw [last] at mem
      exact Csv.lineNoNul (by decide) r mem

theorem cstrRender (t : CsvText comma) : cstr t.render = t.render := Store.cstrSelf (renderNoNul t)

theorem noHeader {t : CsvText comma} (records : t.records = []) : OutputKept t := by
  have noNul := renderNoNul t
  have cstr_ := cstrRender t
  obtain ⟨records',last,seen⟩ := t
  subst records
  cases last with
  | none => rintro out ⟨⟩; rfl
  | some h =>
    have text : CsvText.render ⟨[],some h,seen⟩ = h.line := rfl
    rw [text] at cstr_ noNul
    have fails : scriptStepIngestOutput h.line = none := by
      rw [scriptStepIngestOutput,if_neg (seen h rfl),cstr_]
      by_cases inside : ∃ f ∈ h.fields, lf ∈ f.text
      · have none_ := headerNone (s := []) inside (by rwa [List.append_nil])
        rw [List.append_nil] at none_
        simp only [none_]
        split <;> rfl
      · have noLf : lf ∉ h.line := fun mem => inside ((joinedLf _).mp mem)
        have whole := takeThrough noLf []
        rw [List.append_nil,List.takeWhile_nil,List.append_nil] at whole
        simp only [whole,if_true]
    intro out ran
    rw [text,fails] at ran
    contradiction

theorem storedRows (names : List Bytes) (lines : List Bytes) (ncols : Nat) :
    rowsStored (some (writeRsToTable names (lines.map (outputCells ncols)))) = lines.map (storedCells ncols) := by
  rw [rowsStored,Option.map_some,Option.getD_some,writeRsToTable,List.map_map]
  rfl

/-- The step fails or stores what is meant exactly under the condition. -/
theorem outputIff (t : CsvText comma) : OutputKept t ↔ OutputCondition t := by
  have noNul := renderNoNul t
  have cstr_ := cstrRender t
  have contents := Csv.contentsParts t
  cases records : t.records with
  | nil => exact ⟨fun _ => by rw [OutputCondition,records]; trivial,fun _ => noHeader records⟩
  | cons p ps =>
    obtain ⟨h,crlf⟩ := p
    have rest : t.render = rowText (h,crlf) ++ lf ::
        ((ps.flatMap fun r => r.1.line ++ ending r.2) ++ (t.last.map CsvRecord.line).getD []) := by
      rw [CsvText.render,records,List.flatMap_cons,List.append_assoc]
      exact recordEnds (h,crlf) _
    have tail : t.parts.tail = ps ++ t.last.toList.map (·,false) := by rw [CsvText.parts,records]; rfl
    have meant : (t.contents.tail.map fun r => r.map meantCell) = t.parts.tail.map fun p => p.1.read.map meantCell := by
      rw [contents,← List.map_tail,List.map_map]
      rfl
    have some_ : t.render ≠ [] := by rw [rest]; simp
    rw [OutputCondition,records]
    by_cases inside : ∃ f ∈ h.fields, lf ∈ f.text
    · have none_ : splitLineRfc4180Q comma (t.render.takeWhile (· ≠ lf)) = none := by
        rw [rest,rowText,List.append_assoc] at noNul ⊢
        exact headerNone inside noNul
      refine ⟨fun _ => .inl inside,fun _ out ran => ?_⟩
      rw [scriptStepIngestOutput,if_neg some_,cstr_] at ran
      simp only [none_] at ran
      split at ran <;> contradiction
    · have noLf : lf ∉ rowText (h,crlf) := fun mem => inside ((rowLf (h,crlf)).mp mem)
      have header : t.render.takeWhile (· ≠ lf) = rowText (h,crlf) := by
        rw [rest,takeThrough noLf,List.takeWhile_cons,if_neg (by simp),List.append_nil]
      have longer : ¬ (rowText (h,crlf)).length = t.render.length := by
        rw [rest,List.length_append,List.length_cons]
        omega
      have body : t.render.drop ((rowText (h,crlf)).length + 1) =
          (ps.flatMap fun r => r.1.line ++ ending r.2) ++ (t.last.map CsvRecord.line).getD [] := by
        rw [rest,List.drop_append,List.drop_eq_nil_of_le (Nat.le_succ _),Nat.add_sub_cancel_left]
        rfl
      have width : h.read.length = h.fields.length := List.length_map _
      have ran : scriptStepIngestOutput t.render = if rowsMax < (t.parts.tail.flatMap rowLines).length then none else
          some (some (writeRsToTable (h.read.map (·.1)) ((t.parts.tail.flatMap rowLines).map (outputCells h.fields.length)))) := by
        rw [scriptStepIngestOutput,if_neg some_,cstr_]
        simp only [header,if_neg longer,rowRead,body,bodyLines,← tail,width,List.length_map,Option.bind_eq_bind,Option.bind_some]
      rw [OutputKept,ran,meant]
      split
      · rename_i many
        exact ⟨fun _ => .inr (.inl many),fun _ => by rintro _ ⟨⟩⟩
      · rename_i few
        have one : (∀ out ∈ some (some (writeRsToTable (h.read.map (·.1))
            ((t.parts.tail.flatMap rowLines).map (outputCells h.fields.length)))),
            rowsStored out = t.parts.tail.map fun p => p.1.read.map meantCell) ↔
            ∀ p ∈ t.parts.tail, RowKept h.fields.length p := by
          rw [← rowsMeant,← storedRows (h.read.map (·.1))]
          exact ⟨fun all => all _ rfl,by rintro same _ ⟨⟩; exact same⟩
        rw [one]
        exact ⟨fun kept => .inr (.inr kept),fun either => (either.resolve_left inside).resolve_left few⟩

/-! ### The input as a text -/

/-- A way to write fields, and which of them it writes as a text may. -/
structure Encodes (enc : Bytes → Bytes) (good : Bytes → Prop) : Prop where
  written : ∀ v, (0 : UInt8) ∉ v → good v → ∃ f : CsvField comma, f.text = v ∧ f.render = enc v
  forced : ∀ (f : CsvField comma) (s s' : Bytes), (∃ c t, s' = c :: t ∧ c ≠ quote) → f.render ++ s = enc f.text ++ s' →
    good f.text ∧ s = s'

theorem moreQuotes {n : Bytes} {c : UInt8} (other : c ≠ quote) (k : Nat) (s t : Bytes) :
    List.replicate (k + 1) quote ++ ((n.flatMap fun c => if c = quote then [quote,quote] else [c]) ++ s) ≠ n ++ c :: t := by
  induction n generalizing k with
  | nil =>
    intro same
    rw [List.replicate_succ,List.cons_append,List.nil_append] at same
    exact other (List.cons.inj same).1.symm
  | cons d n ih =>
    intro same
    rw [List.replicate_succ,List.cons_append,List.cons_append] at same
    obtain ⟨rfl,same⟩ := List.cons.inj same
    refine ih (k + 1) ?_
    rw [← same,List.flatMap_cons,if_pos rfl]
    simp only [List.replicate_succ',List.append_assoc,List.cons_append,List.nil_append]

/-- Written in quotes a text has more quotes in front than it has itself. -/
theorem leadingQuotes {n : Bytes} {c : UInt8} (other : c ≠ quote) (s t : Bytes) : quoted n ++ s ≠ n ++ c :: t := fun same => by
  refine @moreQuotes n c other 0 ([quote] ++ s) t ?_
  rw [← same,quoted,List.cons_append,List.append_assoc]
  rfl

theorem namesEncode : Encodes id (BareOf comma) where
  written v noNul bare := ⟨⟨v,false,noNul,fun _ => bare⟩,rfl,rfl⟩
  forced f s s' starts same := by
    obtain ⟨c,t,rfl,other⟩ := starts
    rw [CsvField.render,id] at same
    cases q : f.quoted with
    | false =>
      rw [q,if_neg Bool.false_ne_true] at same
      exact ⟨f.bare q,List.append_cancel_left same⟩
    | true =>
      rw [q,if_pos rfl] at same
      exact absurd same (leadingQuotes other s t)

theorem bareCell {v : Bytes} (bare : needsQ v = false) : ∀ c ∈ v, c ≠ comma ∧ c ≠ quote ∧ c ≠ lf := fun c hc => by
  simpa using List.any_eq_false.mp bare c hc

theorem cellsEncode : Encodes inputCell fun v => cr ∈ v → needsQ v = true where
  written v noNul kept := by
    refine ⟨⟨v,needsQ v,noNul,fun bare c hc => ?_⟩,rfl,?_⟩
    · obtain ⟨noComma,noQuote,noLf⟩ := bareCell bare c hc
      exact ⟨noComma,noQuote,noLf,fun e => Bool.false_ne_true (bare.symm.trans (kept (e ▸ hc)))⟩
    · rw [CsvField.render,inputCell]
  forced f s s' starts same := by
    obtain ⟨c,t,rfl,other⟩ := starts
    rw [CsvField.render,inputCell] at same
    cases needs : needsQ f.text with
    | true =>
      have quoted_ : f.quoted = true := by
        by_contra bare
        obtain ⟨d,hd,special⟩ := List.any_eq_true.mp needs
        obtain ⟨h1,h2,h3,_⟩ := f.bare (Bool.eq_false_iff.mpr bare) d hd
        simp [h1,h2,h3] at special
      rw [needs,if_pos quoted_,if_pos rfl] at same
      exact ⟨fun _ => rfl,List.append_cancel_left same⟩
    | false =>
      rw [needs,if_neg Bool.false_ne_true] at same
      have bare : f.quoted = false := by
        by_contra q
        rw [if_pos (Bool.not_eq_false _ ▸ q),quoted,List.cons_append,List.cons_append] at same
        cases text : f.text with
        | nil =>
          rw [text] at same
          exact other (List.cons.inj same).1.symm
        | cons d v =>
          rw [text] at same
          exact (bareCell needs d (text ▸ List.mem_cons_self)).2.1 (List.cons.inj same).1.symm
      rw [bare,if_neg Bool.false_ne_true] at same
      exact ⟨fun inside => absurd rfl (f.bare bare cr inside).2.2.2,List.append_cancel_left same⟩

section
variable {enc : Bytes → Bytes} {good : Bytes → Prop}

/-- A line of fields written one way is the line of a record only if every field is well written. -/
theorem recordForced (way : Encodes enc good) {fs : List (CsvField comma)} {s s' : Bytes}
    (same : joinWith comma (fs.map CsvField.render) ++ s = joinWith comma ((fs.map CsvField.text).map enc) ++ lf :: s') :
    (∀ v ∈ fs.map CsvField.text, good v) ∧ s = lf :: s' := by
  induction fs with
  | nil => exact ⟨nofun,same⟩
  | cons f fs ih =>
    cases fs with
    | nil =>
      obtain ⟨well,rest⟩ := way.forced f s (lf :: s') ⟨lf,s',rfl,by decide⟩ same
      exact ⟨fun v hv => List.mem_singleton.mp hv ▸ well,rest⟩
    | cons g fs =>
      have left : joinWith comma ((f :: g :: fs).map CsvField.render) ++ s =
          f.render ++ (comma :: (joinWith comma ((g :: fs).map CsvField.render) ++ s)) := List.append_assoc _ _ _
      have right : joinWith comma (((f :: g :: fs).map CsvField.text).map enc) ++ lf :: s' =
          enc f.text ++ (comma :: (joinWith comma (((g :: fs).map CsvField.text).map enc) ++ lf :: s')) :=
        List.append_assoc _ _ _
      rw [left,right] at same
      obtain ⟨well,rest⟩ := way.forced f _ _ ⟨comma,_,rfl,by decide⟩ same
      obtain ⟨others,end_⟩ := ih (List.cons.inj rest).2
      exact ⟨fun v hv => (List.mem_cons.mp hv).elim (fun e => e ▸ well) (others v),end_⟩

theorem recordWritten (way : Encodes enc good) {vs : List Bytes} (noNul : ∀ v ∈ vs, (0 : UInt8) ∉ v) (well : ∀ v ∈ vs, good v) :
    ∃ fs : List (CsvField comma), fs.map CsvField.text = vs ∧ fs.map CsvField.render = vs.map enc := by
  induction vs with
  | nil => exact ⟨[],rfl,rfl⟩
  | cons v vs ih =>
    obtain ⟨f,text,render⟩ := way.written v (noNul v List.mem_cons_self) (well v List.mem_cons_self)
    obtain ⟨fs,texts,renders⟩ := ih (fun w hw => noNul w (List.mem_cons_of_mem _ hw)) fun w hw => well w (List.mem_cons_of_mem _ hw)
    exact ⟨f :: fs,by rw [List.map_cons,text,texts],by rw [List.map_cons,render,renders,List.map_cons]⟩

end

/-- A result set: rows as wide as its columns are many, of texts without NUL. -/
structure InputTable where
  names : List Bytes
  rows : List (List Bytes)
  some_ : names ≠ []
  wide : ∀ r ∈ rows, r.length = names.length
  nameNoNul : ∀ n ∈ names, (0 : UInt8) ∉ n
  cellNoNul : ∀ r ∈ rows, ∀ v ∈ r, (0 : UInt8) ∉ v

/-- The input is a text of the table. -/
def InputKept (i : InputTable) : Prop := ParsesTo (scriptStepInputCsv i.names i.rows) (i.names :: i.rows)

/-- No name needs quotes, and no `\r` stands in a cell that is not quoted for something else. -/
def InputCondition (i : InputTable) : Prop :=
  (∀ n ∈ i.names, BareOf comma n) ∧ ∀ r ∈ i.rows, ∀ v ∈ r, cr ∈ v → needsQ v = true

theorem readTexts (r : CsvRecord comma) : r.read.map (·.1) = r.fields.map CsvField.text := by
  rw [CsvRecord.read,List.map_map]
  rfl

/-- The records behind the header, which end with the last row. -/
theorem rowsForced {records : List (CsvRecord comma × Bool)} {last : Option (CsvRecord comma)} {rows : List (List Bytes)}
    (texts : (records.map (·.1) ++ last.toList).map (fun r => r.fields.map CsvField.text) = rows)
    (same : (records.flatMap fun r => r.1.line ++ ending r.2) ++ (last.map CsvRecord.line).getD [] =
      rows.flatMap fun row => joinWith comma (row.map inputCell) ++ [lf]) : ∀ r ∈ rows, ∀ v ∈ r, cr ∈ v → needsQ v = true := by
  induction records generalizing rows with
  | nil =>
    cases last with
    | none =>
      subst texts
      rintro _ ⟨⟩
    | some r =>
      subst texts
      have whole : joinWith comma (r.fields.map CsvField.render) ++ [] =
          joinWith comma ((r.fields.map CsvField.text).map inputCell) ++ lf :: [] := by
        rw [List.append_nil]
        simpa [CsvRecord.line] using same
      cases (recordForced cellsEncode whole).2
  | cons p ps ih =>
    obtain ⟨r,crlf⟩ := p
    subst texts
    have line : joinWith comma (r.fields.map CsvField.render) ++ (ending crlf ++
        ((ps.flatMap fun r => r.1.line ++ ending r.2) ++ (last.map CsvRecord.line).getD [])) =
        joinWith comma ((r.fields.map CsvField.text).map inputCell) ++ lf ::
          (((ps.map (·.1) ++ last.toList).map (fun r => r.fields.map CsvField.text)).flatMap fun row =>
            joinWith comma (row.map inputCell) ++ [lf]) := by
      simpa [CsvRecord.line] using same
    obtain ⟨well,rest⟩ := recordForced cellsEncode line
    cases crlf with
    | true => exact absurd (List.cons.inj rest).1 (by decide)
    | false =>
      have others := ih rfl (List.cons.inj rest).2
      intro row hr
      rcases List.mem_cons.mp hr with rfl | hr
      · exact well
      · exact others row hr

theorem rowsWritten {rows : List (List Bytes)} (some_ : ∀ r ∈ rows, r ≠ []) (noNul : ∀ r ∈ rows, ∀ v ∈ r, (0 : UInt8) ∉ v)
    (well : ∀ r ∈ rows, ∀ v ∈ r, cr ∈ v → needsQ v = true) :
    ∃ records : List (CsvRecord comma × Bool), (records.map fun p => p.1.fields.map CsvField.text) = rows ∧
      (records.flatMap fun r => r.1.line ++ ending r.2) = rows.flatMap fun row => joinWith comma (row.map inputCell) ++ [lf] := by
  induction rows with
  | nil => exact ⟨[],rfl,rfl⟩
  | cons r rows ih =>
    obtain ⟨fs,texts,renders⟩ := recordWritten cellsEncode (noNul r List.mem_cons_self) (well r List.mem_cons_self)
    obtain ⟨records,others,text⟩ := ih (fun q hq => some_ q (List.mem_cons_of_mem _ hq))
      (fun q hq => noNul q (List.mem_cons_of_mem _ hq)) fun q hq => well q (List.mem_cons_of_mem _ hq)
    have fields : fs ≠ [] := fun e => some_ r List.mem_cons_self (by rw [← texts,e]; rfl)
    refine ⟨(⟨fs,fields⟩,false) :: records,by rw [List.map_cons,others,texts],?_⟩
    rw [List.flatMap_cons,List.flatMap_cons,text,CsvRecord.line,renders]
    rfl

/-- The input is a text of its table exactly under the condition. -/
theorem inputIff (i : InputTable) : InputKept i ↔ InputCondition i := by
  constructor
  · rintro ⟨t,render,contents⟩
    obtain ⟨records,last,seen⟩ := t
    have texts : (records.map (·.1) ++ last.toList).map (fun r => r.fields.map CsvField.text) = i.names :: i.rows := by
      rw [← contents,CsvText.contents,List.map_map]
      exact List.map_congr_left fun r _ => (readTexts r).symm
    rw [CsvText.render,scriptStepInputCsv,List.append_assoc,List.singleton_append] at render
    cases records with
    | nil =>
      cases last with
      | none => contradiction
      | some h =>
        have names : h.fields.map CsvField.text = i.names := (List.cons.inj texts).1
        have whole : joinWith comma (h.fields.map CsvField.render) ++ [] =
            joinWith comma ((h.fields.map CsvField.text).map id) ++ lf ::
              i.rows.flatMap fun row => joinWith comma (row.map inputCell) ++ [lf] := by
          rw [List.append_nil,List.map_id,names]
          exact render
        cases (recordForced namesEncode whole).2
    | cons p ps =>
      obtain ⟨h,crlf⟩ := p
      have names : h.fields.map CsvField.text = i.names := (List.cons.inj texts).1
      have rows := (List.cons.inj texts).2
      have line : joinWith comma (h.fields.map CsvField.render) ++ (ending crlf ++
          ((ps.flatMap fun r => r.1.line ++ ending r.2) ++ (last.map CsvRecord.line).getD [])) =
          joinWith comma ((h.fields.map CsvField.text).map id) ++ lf ::
            i.rows.flatMap fun row => joinWith comma (row.map inputCell) ++ [lf] := by
        rw [List.map_id,names,← render]
        simp [CsvRecord.line]
      obtain ⟨well,rest⟩ := recordForced namesEncode line
      cases crlf with
      | true => exact absurd (List.cons.inj rest).1 (by decide)
      | false => exact ⟨names ▸ well,rowsForced rows (List.cons.inj rest).2⟩
  · rintro ⟨bare,well⟩
    obtain ⟨hs,names,header⟩ := recordWritten namesEncode i.nameNoNul bare
    have fields : hs ≠ [] := fun e => i.some_ (by rw [← names,e]; rfl)
    have some_ : ∀ r ∈ i.rows, r ≠ [] := fun r hr e =>
      i.some_ (List.length_eq_zero_iff.mp (by rw [← i.wide r hr,e]; rfl))
    obtain ⟨records,texts,rows⟩ := rowsWritten some_ i.cellNoNul well
    refine ⟨⟨(⟨hs,fields⟩,false) :: records,none,by rintro _ ⟨⟩⟩,?_,?_⟩
    · rw [CsvText.render,List.flatMap_cons,rows,CsvRecord.line,header,List.map_id,scriptStepInputCsv]
      simp [ending]
    · rw [CsvText.contents,List.map_map]
      simp only [Option.toList_none,List.append_nil,List.map_cons,List.map_map,Function.comp_def,readTexts,names,texts]

/-- A header, and one record with a line end in quotes. -/
def twoPieces : CsvText comma := .closed
  [(headerA,false),(⟨[⟨[120,10,121],true,by decide,by rintro ⟨⟩⟩],by decide⟩,false)]

/-- A column whose name has a quote in it. -/
def quotedName : InputTable := ⟨[[97,34]],[[[120]]],by decide,by decide,by decide,by decide⟩

end Napastak.ScriptCsv
