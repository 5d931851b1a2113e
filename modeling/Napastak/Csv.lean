import Napastak.SplitRfc
import Mathlib.Data.List.TakeWhile

/-! Reading an uploaded CSV body: `csv_record_end` finds where a record ends, the strict splitter reads
its fields. Both go by quotes on their own, and agree on every rendered text. -/
namespace Napastak.Csv
open Store (quote cr lf cstr splitRfcGo quoted BareOf joinWith WrittenOf)

/-- `split_line_rfc4180_q`, on the line up to its first NUL. -/
def splitLineRfc4180Q (delim : UInt8) (line : Bytes) : Option (List (Bytes × Bool)) :=
  splitRfcGo delim ((cstr line).length + 1) (cstr line)

/-- How far the end of a record is; `inQ` is the parity of the quotes before. -/
def csvRecordEnd (inQ : Bool) : Bytes → Nat
  | [] => 0
  | [c] => if c = quote then 1 else if c = lf && !inQ then 0 else 1
  | c :: d :: s =>
    if c = quote then if inQ && d = quote then csvRecordEnd inQ s + 2 else csvRecordEnd (!inQ) (d :: s) + 1
    else if c = lf && !inQ then 0
    else csvRecordEnd inQ (d :: s) + 1

/-- The records of a body as the reading loops cut them, line ends `\n` left out. -/
def csvLines (body : Bytes) : List Bytes :=
  if body = [] then [] else body.take (csvRecordEnd false body) :: csvLines (body.drop (csvRecordEnd false body + 1))
termination_by body.length
decreasing_by
  rename_i some_
  have := List.length_pos_iff.mpr some_
  rw [List.length_drop]
  omega

/-- A row the reading loops pass over. -/
def csvBlank (row : Bytes) : Bool := row = [] ∨ row = [cr]

/-- A row without the `\r` before its line end. -/
def dropCr (row : Bytes) : Bytes := if row.getLast? = some cr then row.dropLast else row

/-! ### Texts -/

/-- A delimiter is no NUL, quote or line end. -/
def Separates (delim : UInt8) : Prop := delim ≠ 0 ∧ delim ≠ quote ∧ delim ≠ cr ∧ delim ≠ lf

instance (delim : UInt8) : Decidable (Separates delim) := by unfold Separates; infer_instance

/-- A field and whether it is written in quotes, as it has to be with a delimiter, a quote or a line end in it. -/
structure CsvField (delim : UInt8) where
  text : Bytes
  quoted : Bool
  noNul : (0 : UInt8) ∉ text
  bare : quoted = false → BareOf delim text

structure CsvRecord (delim : UInt8) where
  fields : List (CsvField delim)
  some_ : fields ≠ []

variable {delim : UInt8}

def CsvField.render (f : CsvField delim) : Bytes := if f.quoted then Store.quoted f.text else f.text

def CsvRecord.line (r : CsvRecord delim) : Bytes := joinWith delim (r.fields.map CsvField.render)

def CsvRecord.read (r : CsvRecord delim) : List (Bytes × Bool) := r.fields.map fun f => (f.text,f.quoted)

/-- Records each with its line end, CRLF or LF, and a last one that may come without. -/
structure CsvText (delim : UInt8) where
  records : List (CsvRecord delim × Bool)
  last : Option (CsvRecord delim)
  seen : ∀ r ∈ last, r.line ≠ []

def ending (crlf : Bool) : Bytes := if crlf then [cr,lf] else [lf]

def CsvText.render (t : CsvText delim) : Bytes :=
  (t.records.flatMap fun r => r.1.line ++ ending r.2) ++ (t.last.map CsvRecord.line).getD []

/-- The records in order, and which of them a `\r` follows. -/
def CsvText.parts (t : CsvText delim) : List (CsvRecord delim × Bool) := t.records ++ t.last.toList.map (·,false)

def rowText (p : CsvRecord delim × Bool) : Bytes := p.1.line ++ if p.2 then [cr] else []

def CsvText.contents (t : CsvText delim) : List (List (Bytes × Bool)) :=
  (t.records.map (·.1) ++ t.last.toList).map CsvRecord.read

/-! ### Where a record ends -/

theorem endBare {f : Bytes} (h : BareOf delim f) (rest : Bytes) :
    csvRecordEnd false (f ++ rest) = csvRecordEnd false rest + f.length := by
  induction f with
  | nil => rfl
  | cons c f ih =>
    obtain ⟨_,noQuote,noLf,_⟩ := h c List.mem_cons_self
    have ih := ih fun d hd => h d (List.mem_cons_of_mem _ hd)
    rw [List.cons_append,List.length_cons,← Nat.add_assoc,← ih]
    cases f ++ rest <;> simp [csvRecordEnd,noQuote,noLf]

theorem endOne {c : UInt8} (noQuote : c ≠ quote) (noLf : c ≠ lf) (rest : Bytes) :
    csvRecordEnd false (c :: rest) = csvRecordEnd false rest + 1 := by
  cases rest <;> simp [csvRecordEnd,noQuote,noLf]

theorem endInside (v : Bytes) {rest : Bytes} (h : rest.head? ≠ some quote) :
    csvRecordEnd true ((v.flatMap fun c => if c = quote then [quote,quote] else [c]) ++ quote :: rest) =
      csvRecordEnd false rest + ((v.flatMap fun c => if c = quote then [quote,quote] else [c]).length + 1) := by
  induction v with
  | nil =>
    cases rest with
    | nil => rfl
    | cons d s =>
      have : d ≠ quote := fun e => h (by rw [e]; rfl)
      simp [csvRecordEnd,this]
  | cons c v ih =>
    by_cases hq : c = quote
    · simp [hq,csvRecordEnd,ih]
      omega
    · simp only [List.flatMap_cons,if_neg hq,List.cons_append,List.nil_append,List.length_cons] at ih ⊢
      cases hr : (v.flatMap fun c => if c = quote then [quote,quote] else [c]) ++ quote :: rest with
      | nil => simp at hr
      | cons d s =>
        rw [hr] at ih
        simp [csvRecordEnd,hq,ih]
        omega

theorem endField (f : CsvField delim) {rest : Bytes} (h : rest.head? ≠ some quote) :
    csvRecordEnd false (f.render ++ rest) = csvRecordEnd false rest + f.render.length := by
  rw [CsvField.render]
  split
  · simp only [Store.quoted,List.cons_append,List.append_assoc,List.nil_append]
    have inside := endInside f.text h
    cases hr : (f.text.flatMap fun c => if c = quote then [quote,quote] else [c]) ++ quote :: rest with
    | nil => simp at hr
    | cons d s =>
      rw [hr] at inside
      simp [csvRecordEnd,inside]
      omega
  · rename_i plain
    exact endBare (f.bare (Bool.eq_false_iff.mpr plain)) rest

theorem endFields (h : Separates delim) (fs : List (CsvField delim)) {rest : Bytes} (stop : rest.head? ≠ some quote) :
    csvRecordEnd false (joinWith delim (fs.map CsvField.render) ++ rest) =
      csvRecordEnd false rest + (joinWith delim (fs.map CsvField.render)).length := by
  induction fs with
  | nil => rfl
  | cons f fs ih =>
    cases fs with
    | nil => exact endField f stop
    | cons g fs =>
      have sep : (delim :: (joinWith delim ((g :: fs).map CsvField.render) ++ rest)).head? ≠ some quote := by
        simpa using h.2.1
      have joined : joinWith delim ((f :: g :: fs).map CsvField.render) =
          f.render ++ delim :: joinWith delim ((g :: fs).map CsvField.render) := rfl
      rw [joined,List.append_assoc,List.cons_append,endField f sep,endOne h.2.1 h.2.2.2,ih,List.length_append,
        List.length_cons]
      omega

/-! ### Lines and fields read back -/

theorem linesMore {line rest : Bytes} (ends : csvRecordEnd false (line ++ lf :: rest) = line.length) :
    csvLines (line ++ lf :: rest) = line :: csvLines rest := by
  rw [csvLines,if_neg (by simp),ends,List.take_left,List.drop_append,List.drop_eq_nil_of_le (Nat.le_succ _),
    Nat.add_sub_cancel_left]
  rfl

theorem linesLast {line : Bytes} (ends : csvRecordEnd false line = line.length) (some_ : line ≠ []) :
    csvLines line = [line] := by
  rw [csvLines,if_neg some_,ends,List.take_length,List.drop_eq_nil_of_le (Nat.le_succ _),csvLines,if_pos rfl]

theorem linesRecord (h : Separates delim) (r : CsvRecord delim) (crlf : Bool) (rest : Bytes) :
    csvLines (r.line ++ ending crlf ++ rest) = rowText (r,crlf) :: csvLines rest := by
  rw [rowText]
  cases crlf with
  | false =>
    rw [List.append_assoc,if_neg Bool.false_ne_true,List.append_nil]
    refine linesMore ?_
    rw [CsvRecord.line,endFields h r.fields (by simp [lf,quote])]
    cases rest <;> exact Nat.zero_add _
  | true =>
    rw [if_pos rfl,List.append_assoc,List.append_cons]
    have ends := @linesMore (r.line ++ [cr]) rest (by
      rw [List.append_assoc,CsvRecord.line,endFields h r.fields (by simp [cr,quote]),List.length_append]
      cases rest <;> exact Nat.add_comm _ _)
    rw [List.append_assoc] at ends ⊢
    exact ends

theorem fieldWritten (f : CsvField delim) : WrittenOf delim f.render (f.text,f.quoted) := by
  rw [CsvField.render]
  cases is : f.quoted with
  | true => exact .quoted f.text
  | false => exact .bare (f.bare is)

theorem fieldNoNul (f : CsvField delim) : (0 : UInt8) ∉ f.render := by
  rw [CsvField.render]
  split
  · simp only [Store.quoted,List.cons_append,List.mem_cons,List.mem_append,List.mem_flatMap,List.not_mem_nil,or_false,not_or]
    refine ⟨by decide,?_,by decide⟩
    rintro ⟨c,mem,zero⟩
    split at zero
    · simp [quote] at zero
    · exact f.noNul (List.mem_singleton.mp zero ▸ mem)
  · exact f.noNul

theorem lineNoNul (h : Separates delim) (r : CsvRecord delim) : (0 : UInt8) ∉ r.line := fun mem => by
  rcases Store.joinedMem mem with e | ⟨f,hf,hc⟩
  · exact h.1 e.symm
  · obtain ⟨field,_,rfl⟩ := List.mem_map.mp hf
    exact fieldNoNul field hc

theorem recordReadTo (h : Separates delim) (r : CsvRecord delim) {rest : Bytes} (ends : Store.EndsOf delim rest)
    (noNul : (0 : UInt8) ∉ rest) : splitLineRfc4180Q delim (r.line ++ rest) = some r.read := by
  have whole : cstr (r.line ++ rest) = r.line ++ rest := Store.cstrSelf fun zero =>
    (List.mem_append.mp zero).elim (lineNoNul h r) noNul
  have each : List.Forall₂ (WrittenOf delim) (r.fields.map CsvField.render) r.read := by
    rw [CsvRecord.read,List.forall₂_map_left_iff,List.forall₂_map_right_iff]
    exact List.forall₂_same.mpr fun f _ => fieldWritten f
  have enough := @Store.joinedLength delim (r.fields.map CsvField.render)
  rw [splitLineRfc4180Q,whole]
  refine Store.splitRfcJoined h.2.1 each (by simpa using r.some_) ?_ ends
  rw [CsvRecord.line,List.length_append]
  omega

theorem recordRead (h : Separates delim) (r : CsvRecord delim) : splitLineRfc4180Q delim r.line = some r.read := by
  have := recordReadTo h r (.inl rfl) (List.not_mem_nil)
  rwa [List.append_nil] at this

theorem fieldLast (f : CsvField delim) : f.render.getLast? ≠ some cr := by
  rw [CsvField.render]
  split
  · rw [Store.quoted,List.getLast?_append]
    simp [quote,cr]
  · rename_i plain
    exact fun last => (f.bare (Bool.eq_false_iff.mpr plain) cr (List.mem_of_getLast? last)).2.2.2 rfl

theorem lineLast (h : Separates delim) (r : CsvRecord delim) : r.line.getLast? ≠ some cr := by
  rw [CsvRecord.line]
  induction r.fields with
  | nil => nofun
  | cons f fs ih =>
    cases fs with
    | nil => exact fieldLast f
    | cons g fs =>
      have joined : joinWith delim ((f :: g :: fs).map CsvField.render) =
          f.render ++ delim :: joinWith delim ((g :: fs).map CsvField.render) := rfl
      rw [joined,List.getLast?_append,List.getLast?_cons]
      cases last : (joinWith delim ((g :: fs).map CsvField.render)).getLast? with
      | none => simpa using h.2.2.1
      | some c => rw [last] at ih; exact ih

theorem dropEnding (h : Separates delim) (p : CsvRecord delim × Bool) : dropCr (rowText p) = p.1.line := by
  obtain ⟨r,crlf⟩ := p
  rw [rowText]
  cases crlf with
  | false => rw [if_neg Bool.false_ne_true,List.append_nil,dropCr,if_neg (lineLast h r)]
  | true => rw [if_pos rfl,dropCr,if_pos List.getLast?_concat,List.dropLast_concat]

/-- The rows passed over are those of one empty field without quotes. -/
theorem blankRead (h : Separates delim) (p : CsvRecord delim × Bool) :
    csvBlank (rowText p) = decide (p.1.read = [([],false)]) := by
  obtain ⟨r,crlf⟩ := p
  rw [rowText]
  have empty : csvBlank (r.line ++ if crlf then [cr] else []) = decide (r.line = []) := by
    have last := lineLast h r
    cases crlf with
    | false =>
      rw [if_neg Bool.false_ne_true,List.append_nil,csvBlank]
      refine decide_eq_decide.mpr (or_iff_left fun is => last ?_)
      rw [is]
      rfl
    | true =>
      rw [if_pos rfl,csvBlank]
      refine decide_eq_decide.mpr ⟨fun is => ?_,fun is => .inr (by rw [is]; rfl)⟩
      rcases is with is | is
      · exact absurd is (by simp)
      · exact List.append_left_eq_self.mp is
  rw [empty]
  refine decide_eq_decide.mpr ?_
  obtain ⟨fields,some_⟩ := r
  rw [CsvRecord.line,CsvRecord.read]
  cases fields with
  | nil => contradiction
  | cons f fs =>
    clear empty
    cases fs with
    | nil =>
      simp only [List.map_cons,List.map_nil,joinWith,List.cons.injEq,and_true,Prod.mk.injEq]
      rw [CsvField.render]
      cases is : f.quoted <;> simp [Store.quoted]
    | cons g fs => simp [joinWith]

/-- The reading loops cut a rendered text where its records end. -/
theorem linesParts (h : Separates delim) (t : CsvText delim) : csvLines t.render = t.parts.map rowText := by
  obtain ⟨records,last,seen⟩ := t
  simp only [CsvText.render,CsvText.parts]
  induction records with
  | nil =>
    cases last with
    | none =>
      rw [List.flatMap_nil,List.nil_append,Option.map_none,Option.getD_none,csvLines,if_pos rfl]
      rfl
    | some r =>
      have ends := @endFields _ h r.fields [] nofun
      rw [List.append_nil,← CsvRecord.line] at ends
      rw [List.flatMap_nil,List.nil_append,Option.map_some,Option.getD_some,
        linesLast (ends.trans (Nat.zero_add _)) (seen r rfl)]
      simp only [Option.toList_some,List.map_cons,List.map_nil,List.nil_append,rowText,Bool.false_eq_true,if_false,
        List.append_nil]
  | cons r rs ih => rw [List.flatMap_cons,List.append_assoc,linesRecord h,ih,List.cons_append,List.map_cons]

theorem contentsParts (t : CsvText delim) : t.contents = t.parts.map fun p => p.1.read := by
  rw [CsvText.contents,CsvText.parts,List.map_append,List.map_append,List.map_map,List.map_map]
  rfl

/-- Every rendered text is read back field by field, and what the loops pass over are its blank records. -/
theorem csvReadBack (h : Separates delim) (t : CsvText delim) :
    (csvLines t.render).map (fun row => splitLineRfc4180Q delim (dropCr row)) = t.contents.map some ∧
    ((csvLines t.render).filter (!csvBlank ·)).map (fun row => splitLineRfc4180Q delim (dropCr row)) =
      (t.contents.filter fun r => !decide (r = [([],false)])).map some := by
  have each : ∀ p : CsvRecord delim × Bool, splitLineRfc4180Q delim (dropCr (rowText p)) = some p.1.read := fun p => by
    rw [dropEnding h,recordRead h]
  rw [linesParts h,contentsParts]
  constructor
  · simp only [List.map_map,Function.comp_def,each]
  · simp only [List.filter_map,List.map_map,Function.comp_def,each,blankRead h]

/-- A text in which every record ends its line. -/
def CsvText.closed (records : List (CsvRecord delim × Bool)) : CsvText delim := ⟨records,none,by rintro _ ⟨⟩⟩

/-- The field `a`, and a record of it alone. -/
def letterA : CsvField Store.comma := ⟨[97],false,by decide,by intro _ c mem; rw [List.mem_singleton.mp mem]; decide⟩
def headerA : CsvRecord Store.comma := ⟨[letterA],by decide⟩

/-- `a,"x,""` over two lines, then an empty quoted field. -/
def twoLines : CsvText Store.comma :=
  ⟨[(⟨[⟨[97],false,by decide,by intro _ c mem; rw [List.mem_singleton.mp mem]; decide⟩,
      ⟨[120,44,34,13,10,121],true,by decide,nofun⟩],by decide⟩,true)],
    some ⟨[⟨[],true,by decide,nofun⟩],by decide⟩,by rintro r ⟨⟩; decide⟩

theorem csvReadBackTwoLines : Separates Store.comma ∧
    (csvLines twoLines.render).map (fun row => splitLineRfc4180Q Store.comma (dropCr row)) =
      [some [([97],false),([120,44,34,13,10,121],true)],some [([],true)]] :=
  ⟨by decide,(csvReadBack (by decide) twoLines).1⟩

end Napastak.Csv
