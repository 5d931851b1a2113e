import Napastak.CsvFile
import Napastak.ColBatch

/-! What a written file reads back as, record by record and page by page. -/
namespace Napastak.CsvFile
open Store (quote cr lf cstr cstrSelf comma quoted BareOf joinWith WrittenOf LineEnds)
open Csv (splitLineRfc4180Q Separates)
open Textenc (TextEnc textencBomLen textencToUtf8 textencDetect putUtf8 lookup fromSingleByte singleChanges extendsCp1251
  extendsCp866 extendsKoi8r tableCp1251 tableCp866 tableKoi8r Extends)

/-! ### Scanning a record -/

/-- Whether a scan is inside quotes after `s`; nothing where a line end stands outside them. -/
def passes : Bool → Bytes → Option Bool
  | inQ, [] => some inQ
  | inQ, c :: s => if c = lf && !turned inQ c then none else passes (turned inQ c) s

theorem passesAppend (s t : Bytes) (inQ : Bool) : passes inQ (s ++ t) = (passes inQ s).bind (passes · t) := by
  induction s generalizing inQ with
  | nil => rfl
  | cons c s ih =>
    simp only [List.cons_append,passes]
    split
    · rfl
    · exact ih _

theorem readPasses {s : Bytes} {inQ inQ' : Bool} {n : Nat} (through : passes inQ s = some inQ') (room : n + s.length + 2 ≤ lineCap)
    (rest : Bytes) : readGo n inQ (s ++ rest) =
      (s ++ (readGo (n + s.length) inQ' rest).1,(readGo (n + s.length) inQ' rest).2) := by
  induction s generalizing inQ n with
  | nil => cases through; rfl
  | cons c s ih =>
    rw [List.length_cons] at room
    rw [passes] at through
    split at through
    · contradiction
    · rename_i goes
      have step := ih through (n := n + 1) (by omega)
      rw [List.cons_append,readGo,if_neg (by omega)]
      simp only [goes,Bool.false_eq_true,if_false,step,List.length_cons,List.cons_append]
      rw [Nat.add_right_comm n 1,Nat.add_assoc n]

variable {delim : UInt8}

theorem passesBare {v : Bytes} (bare : ∀ c ∈ v, c ≠ quote ∧ c ≠ lf) : passes false v = some false := by
  induction v with
  | nil => rfl
  | cons c v ih =>
    obtain ⟨noQuote,noLf⟩ := bare c List.mem_cons_self
    simp [passes,turned,noQuote,noLf,ih fun d hd => bare d (List.mem_cons_of_mem _ hd)]

theorem passesEscaped (v : Bytes) : passes true (v.flatMap fun c => if c = quote then [quote,quote] else [c]) = some true := by
  induction v with
  | nil => rfl
  | cons c v ih =>
    rw [List.flatMap_cons,passesAppend]
    by_cases is : c = quote
    · rw [if_pos is]
      exact ih
    · rw [if_neg is]
      simp [passes,turned,is,ih]

theorem needed {v : Bytes} (bare : needQ delim v = false) : BareOf delim v := fun c hc => by
  have := List.any_eq_false.mp bare c hc
  simpa using this

theorem fieldWritten (v : Bytes) : WrittenOf delim (csvWriteField delim v) (v,needQ delim v) := by
  rw [csvWriteField]
  cases is : needQ delim v with
  | true => exact .quoted v
  | false => exact .bare (needed is)

theorem passesField (v : Bytes) : passes false (csvWriteField delim v) = some false := by
  rw [csvWriteField]
  split
  · have opened : quoted v = [quote] ++ (v.flatMap (fun c => if c = quote then [quote,quote] else [c]) ++ [quote]) := rfl
    have first : passes false [quote] = some true := rfl
    rw [opened,passesAppend,first,Option.bind_some,passesAppend,passesEscaped]
    rfl
  · rename_i bare
    have bare := needed (Bool.eq_false_iff.mpr bare)
    exact passesBare fun c hc => ⟨(bare c hc).2.1,(bare c hc).2.2.1⟩

theorem passesJoined (sep : Separates delim) (vs : List Bytes) :
    passes false (joinWith delim (vs.map (csvWriteField delim))) = some false := by
  induction vs with
  | nil => rfl
  | cons v vs ih =>
    cases vs with
    | nil => exact passesField v
    | cons w vs =>
      have joined : joinWith delim ((v :: w :: vs).map (csvWriteField delim)) =
          csvWriteField delim v ++ ([delim] ++ joinWith delim ((w :: vs).map (csvWriteField delim))) := rfl
      rw [joined,passesAppend,passesField,Option.bind_some,passesAppend]
      have one : passes false [delim] = some false := by simp [passes,turned,sep.2.1,sep.2.2.2]
      rw [one]
      exact ih

theorem fieldNoNul {v : Bytes} (noNul : (0 : UInt8) ∉ v) : (0 : UInt8) ∉ csvWriteField delim v := by
  rw [csvWriteField]
  split
  · simp only [quoted,List.cons_append,List.mem_cons,List.mem_append,List.mem_flatMap,List.not_mem_nil,or_false,not_or]
    refine ⟨by decide,?_,by decide⟩
    rintro ⟨c,mem,zero⟩
    split at zero
    · simp [quote] at zero
    · exact noNul (List.mem_singleton.mp zero ▸ mem)
  · exact noNul

theorem joinedNoNul (sep : Separates delim) {fs : List Bytes} (noNul : ∀ f ∈ fs, (0 : UInt8) ∉ f) :
    (0 : UInt8) ∉ joinWith delim fs ++ [lf] := fun mem => by
  rcases List.mem_append.mp mem with mem | mem
  · rcases Store.joinedMem mem with e | ⟨f,hf,hc⟩
    · exact sep.1 e.symm
    · exact noNul f hf hc
  · simp [lf] at mem

/-- A line that one call of `csv_read_record` takes off a file. -/
def Record (line : Bytes) : Prop := ∀ rest, csvReadRecord (line ++ rest) = some (line,rest)

theorem writtenRecord (sep : Separates delim) {vs : List Bytes} (noNul : ∀ v ∈ vs, (0 : UInt8) ∉ v)
    (fits : (writeRecord delim vs).length + 2 ≤ lineCap) : Record (writeRecord delim vs) := fun rest => by
  have fields : ∀ f ∈ vs.map (csvWriteField delim), (0 : UInt8) ∉ f := fun f hf => by
    obtain ⟨v,mem,rfl⟩ := List.mem_map.mp hf
    exact fieldNoNul (noNul v mem)
  rw [writeRecord,List.length_append,List.length_singleton] at fits
  have read := readPasses (n := 0) (passesJoined sep vs) (by omega) (lf :: rest)
  have last : readGo (0 + (joinWith delim (vs.map (csvWriteField delim))).length) false (lf :: rest) = ([lf],rest) := by
    rw [readGo,if_neg (by omega)]
    rfl
  rw [last] at read
  rw [csvReadRecord,writeRecord,List.append_assoc,List.singleton_append,read]
  simp only [List.append_eq_nil_iff,List.cons_ne_self,and_false,if_false]
  rw [cstrSelf (joinedNoNul sep fields)]

/-! ### Pages -/

theorem skipFlatten {ls : List Bytes} (records : ∀ l ∈ ls, Record l) (n : Nat) : skipRecords n ls.flatten = (ls.drop n).flatten := by
  induction n generalizing ls with
  | zero => rfl
  | succ n ih =>
    cases ls with
    | nil => rfl
    | cons l ls =>
      rw [List.flatten_cons,skipRecords,records l List.mem_cons_self ls.flatten]
      exact ih fun l hl => records l (List.mem_cons_of_mem _ hl)

theorem readFlatten {ctx : CsvCtx} {ncols : Nat} {g : Bytes → List Cell} {ls : List Bytes} (records : ∀ l ∈ ls, Record l)
    (reads : ∀ l ∈ ls, readRecord ctx ncols l = some (g l)) (room : Nat) :
    readRows ctx ncols room ls.flatten = some ((ls.take room).map g) := by
  induction room generalizing ls with
  | zero => rfl
  | succ room ih =>
    cases ls with
    | nil => rfl
    | cons l ls =>
      have more := ih (fun l hl => records l (List.mem_cons_of_mem _ hl)) fun l hl => reads l (List.mem_cons_of_mem _ hl)
      rw [List.flatten_cons,readRows,records l List.mem_cons_self ls.flatten]
      simp only [reads l List.mem_cons_self,more]
      rfl

section
variable {ctx : CsvCtx} {names : List Bytes} {g : Bytes → List Cell} {ls : List Bytes}

/-- The lines whose records are data. -/
def dataLines (ctx : CsvCtx) (ls : List Bytes) : List Bytes := if ctx.hasHeader then ls.drop 1 else ls

theorem dataMem {l : Bytes} (mem : l ∈ dataLines ctx ls) : l ∈ ls := by
  rw [dataLines] at mem
  split at mem
  · exact List.mem_of_mem_drop mem
  · exact mem

theorem batchRead (schema : ctx.schema = some names) (records : ∀ l ∈ ls, Record l)
    (reads : ∀ l ∈ ls, readRecord ctx names.length l = some (g l)) (start : Nat) :
    csvReadBatch ctx ls.flatten start =
      some ((((dataLines ctx ls).drop start).take pageRows).map g,
        decide (((dataLines ctx ls).drop start).length < pageRows)) := by
  have body : (if ctx.hasHeader then skipRecords 1 ls.flatten else ls.flatten) = (dataLines ctx ls).flatten := by
    rw [dataLines]
    split
    · exact skipFlatten records 1
    · rfl
  have rows : readRows ctx names.length pageRows ((dataLines ctx ls).drop start).flatten =
      some ((((dataLines ctx ls).drop start).take pageRows).map g) :=
    readFlatten (fun l hl => records l (dataMem (List.mem_of_mem_drop hl)))
      (fun l hl => reads l (dataMem (List.mem_of_mem_drop hl))) pageRows
  rw [csvReadBatch,schema]
  simp only [Option.bind_eq_bind,Option.bind_some,body,skipFlatten fun l hl => records l (dataMem hl),rows,Option.some.injEq,
    Prod.mk.injEq,true_and,decide_eq_decide]
  rw [List.length_map,List.length_take]
  omega

theorem pagesOnly (schema : ctx.schema = some names) (records : ∀ l ∈ ls, Record l)
    (reads : ∀ l ∈ ls, readRecord ctx names.length l = some (g l)) {fuel start : Nat} {x : List (List Cell)}
    (got : readPages ctx ls.flatten fuel start = some x) : x = ((dataLines ctx ls).drop start).map g := by
  induction fuel generalizing start x with
  | zero => contradiction
  | succ fuel ih =>
    rw [readPages,batchRead schema records reads] at got
    simp only [Option.bind_eq_bind,Option.bind_some] at got
    split at got
    · rename_i last
      have short := of_decide_eq_true last
      rw [← Option.some.inj got,List.take_of_length_le (Nat.le_of_lt short)]
    · rename_i full
      have full : pageRows ≤ ((dataLines ctx ls).drop start).length := Nat.not_lt.mp fun short => full (decide_eq_true short)
      obtain ⟨more,next,both⟩ := Option.bind_eq_some_iff.mp got
      rw [List.length_map,List.length_take,Nat.min_eq_left full] at next
      rw [← Option.some.inj both,ih next,← List.drop_drop,← List.map_append,List.take_append_drop]

/-- Each page but the last is full, so that the pages end. -/
theorem pagesEnd (schema : ctx.schema = some names) (records : ∀ l ∈ ls, Record l)
    (reads : ∀ l ∈ ls, readRecord ctx names.length l = some (g l)) (k start : Nat)
    (enough : ((dataLines ctx ls).drop start).length < (k + 1) * pageRows) :
    ∃ x, readPages ctx ls.flatten (k + 1) start = some x := by
  induction k generalizing start with
  | zero =>
    rw [readPages,batchRead schema records reads]
    simp only [Option.bind_eq_bind,Option.bind_some]
    rw [if_pos (decide_eq_true (by omega))]
    exact ⟨_,rfl⟩
  | succ k ih =>
    rw [readPages,batchRead schema records reads]
    simp only [Option.bind_eq_bind,Option.bind_some]
    split
    · exact ⟨_,rfl⟩
    · rename_i full
      have full : pageRows ≤ ((dataLines ctx ls).drop start).length := Nat.not_lt.mp fun short => full (decide_eq_true short)
      obtain ⟨more,next⟩ := ih (start + pageRows) (by
        rw [List.length_drop] at enough full ⊢
        have : (k + 1 + 1) * pageRows = (k + 1) * pageRows + pageRows := Nat.succ_mul _ _
        omega)
      rw [List.length_map,List.length_take,Nat.min_eq_left full,next]
      exact ⟨_,rfl⟩

/-- Following the cursor gives every record of data once and in order. -/
theorem pagesIff (schema : ctx.schema = some names) (records : ∀ l ∈ ls, Record l)
    (reads : ∀ l ∈ ls, readRecord ctx names.length l = some (g l)) (x : List (List Cell)) :
    (∃ fuel, readPages ctx ls.flatten fuel 0 = some x) ↔ x = (dataLines ctx ls).map g := by
  constructor
  · rintro ⟨fuel,got⟩
    exact pagesOnly schema records reads got
  · rintro rfl
    obtain ⟨x,got⟩ := pagesEnd schema records reads (dataLines ctx ls).length 0 (by
      rw [List.drop_zero]
      exact Nat.lt_of_lt_of_le (Nat.lt_succ_self _) (Nat.le_mul_of_pos_right _ (by decide)))
    exact ⟨_,by rw [got,pagesOnly schema records reads got,List.drop_zero]⟩

end

/-! ### What a record reads back as -/

/-- The table of a single-byte encoding. -/
def pageOf : TextEnc → Option (List Nat)
  | .cp1251 => some tableCp1251
  | .cp866 => some tableCp866
  | .koi8r => some tableKoi8r
  | _ => none

def byteOut (enc : TextEnc) (b : UInt8) : Bytes :=
  match pageOf enc with
  | none => [b]
  | some tbl => if b < 0x80 then [b] else putUtf8 (if lookup tbl b = 0 then 0xFFFD else lookup tbl b)

def decoded (enc : TextEnc) (s : Bytes) : Bytes := s.flatMap (byteOut enc)

/-- The marks the reader takes off: a second one where the text is converted. -/
def unmarked (enc : TextEnc) (s : Bytes) : Bytes :=
  let s := s.drop (textencBomLen s)
  if (pageOf enc).isSome then s.drop (textencBomLen s) else s

def Utf16 (enc : TextEnc) : Prop := enc = .utf16le ∨ enc = .utf16be

instance (enc : TextEnc) : Decidable (Utf16 enc) := inferInstanceAs (Decidable (_ ∨ _))

theorem convertedIs {enc : TextEnc} (single : ¬ Utf16 enc) (line : Bytes) : csvToUtf8 enc line = decoded enc (unmarked enc line) := by
  have same : ∀ s : Bytes, s.flatMap (fun b => [b]) = s := fun s => by simp
  cases enc with
  | utf16le => exact absurd (.inl rfl) single
  | utf16be => exact absurd (.inr rfl) single
  | unknown => exact (same _).symm
  | utf8 => exact (same _).symm
  | cp1251 => rfl
  | cp866 => rfl
  | koi8r => rfl

/-- A converted character is two bytes or more, all beyond ASCII, and no mark. -/
def beyond (u : Nat) : Bool :=
  match putUtf8 u with
  | x :: y :: t => (x :: y :: t).all (fun c => !decide (c < 0x80)) && !decide (x = 0xFF) && !decide (x = 0xFE) &&
      !(decide (x = 0xEF) && decide (y = 0xBB))
  | _ => false

theorem tablesBeyond : ∀ tbl ∈ [tableCp1251,tableCp866,tableKoi8r], ∀ u ∈ tbl, u = 0 ∨ beyond u = true := by decide +kernel

theorem pageBeyond {enc : TextEnc} {tbl : List Nat} (page : pageOf enc = some tbl) (b : UInt8) :
    beyond (if lookup tbl b = 0 then 0xFFFD else lookup tbl b) = true := by
  have known : tbl ∈ [tableCp1251,tableCp866,tableKoi8r] := by
    cases enc <;> cases page <;> simp
  split
  · decide
  · rename_i some_
    exact (tablesBeyond tbl known _ (Textenc.lookupMem some_)).resolve_left some_

theorem outLow (enc : TextEnc) {b : UInt8} (low : b < 0x80) : byteOut enc b = [b] := by
  rw [byteOut]
  split
  · rfl
  · rw [if_pos low]

theorem outHigh (enc : TextEnc) {b c : UInt8} (mem : c ∈ byteOut enc b) : c = b ∨ ¬ b < 0x80 ∧ ¬ c < 0x80 := by
  rw [byteOut] at mem
  split at mem
  · exact .inl (List.mem_singleton.mp mem)
  · rename_i tbl page
    split at mem
    · exact .inl (List.mem_singleton.mp mem)
    · rename_i high
      have far := pageBeyond page b
      rw [beyond] at far
      split at far
      · rename_i x y t is
        rw [is] at mem
        simp only [Bool.and_eq_true] at far
        have := List.all_eq_true.mp far.1.1.1 c mem
        exact .inr ⟨high,by simpa using this⟩
      · contradiction

theorem decodedAppend (enc : TextEnc) (s t : Bytes) : decoded enc (s ++ t) = decoded enc s ++ decoded enc t :=
  List.flatMap_append

theorem decodedMem (enc : TextEnc) {s : Bytes} {c : UInt8} (mem : c ∈ decoded enc s) : c ∈ s ∨ ¬ c < 0x80 := by
  obtain ⟨b,hb,hc⟩ := List.mem_flatMap.mp mem
  rcases outHigh enc hc with rfl | ⟨_,high⟩
  · exact .inl hb
  · exact .inr high

theorem decodedBare (ascii_ : delim < 0x80) (enc : TextEnc) {v : Bytes} (bare : BareOf delim v) : BareOf delim (decoded enc v) := by
  intro c hc
  rcases decodedMem enc hc with mem | high
  · exact bare c mem
  · refine ⟨?_,?_,?_,?_⟩ <;> rintro rfl
    · exact high ascii_
    all_goals exact high (by decide)

theorem decodedQuoted (enc : TextEnc) (v : Bytes) : decoded enc (quoted v) = quoted (decoded enc v) := by
  have one : ∀ b : UInt8, decoded enc (if b = quote then [quote,quote] else [b]) =
      (byteOut enc b).flatMap fun c => if c = quote then [quote,quote] else [c] := fun b => by
    by_cases is : b = quote
    · subst is
      rw [if_pos rfl,outLow enc (by decide),decoded,List.flatMap_cons,List.flatMap_cons,outLow enc (by decide)]
      rfl
    · have others : ∀ c ∈ byteOut enc b, c ≠ quote := fun c hc e => by
        subst e
        rcases outHigh enc hc with e | ⟨_,high⟩
        · exact is e.symm
        · exact high (by decide)
      rw [if_neg is,decoded,List.flatMap_singleton]
      have same : ∀ s : Bytes, (∀ c ∈ s, c ≠ quote) → (s.flatMap fun c => if c = quote then [quote,quote] else [c]) = s := by
        intro s h
        induction s with
        | nil => rfl
        | cons c s ih =>
          rw [List.flatMap_cons,if_neg (h c List.mem_cons_self),ih fun d hd => h d (List.mem_cons_of_mem _ hd)]
          rfl
      exact (same _ others).symm
  have inside : decoded enc (v.flatMap fun c => if c = quote then [quote,quote] else [c]) =
      (decoded enc v).flatMap fun c => if c = quote then [quote,quote] else [c] := by
    rw [decoded,decoded,List.flatMap_assoc,List.flatMap_assoc]
    exact List.flatMap_congr fun b _ => one b
  have mark : decoded enc [quote] = [quote] := by rw [decoded,List.flatMap_singleton,outLow enc (by decide)]
  have split_ : quoted v = [quote] ++ (v.flatMap (fun c => if c = quote then [quote,quote] else [c]) ++ [quote]) := rfl
  rw [split_,decodedAppend,decodedAppend,mark,inside]
  rfl

theorem decodedJoined (ascii_ : delim < 0x80) (enc : TextEnc) (fs : List Bytes) :
    decoded enc (joinWith delim fs) = joinWith delim (fs.map (decoded enc)) := by
  induction fs with
  | nil => rfl
  | cons f fs ih =>
    cases fs with
    | nil => rfl
    | cons g fs =>
      have joined : joinWith delim (f :: g :: fs) = f ++ ([delim] ++ joinWith delim (g :: fs)) := rfl
      have mark : decoded enc [delim] = [delim] := by rw [decoded,List.flatMap_singleton,outLow enc ascii_]
      rw [joined,decodedAppend,decodedAppend,mark,ih]
      rfl

theorem writtenBack (ascii_ : delim < 0x80) (enc : TextEnc) (v : Bytes) :
    WrittenOf delim (decoded enc (csvWriteField delim v)) (decoded enc v,needQ delim v) := by
  rw [csvWriteField]
  cases is : needQ delim v with
  | true =>
    rw [if_pos rfl,decodedQuoted]
    exact .quoted _
  | false => exact .bare (decodedBare ascii_ enc (needed is))

/-! ### Marks -/

theorem markBefore {c : UInt8} (low : c < 0x80) (v t : Bytes) : textencBomLen (v ++ c :: t) = textencBomLen v := by
  have apart : ∀ d : UInt8, ¬ d < 0x80 → d ≠ c := fun d high e => high (e ▸ low)
  have ef := apart 0xEF (by decide)
  have bb := apart 0xBB (by decide)
  have bf := apart 0xBF (by decide)
  have ff := apart 0xFF (by decide)
  have fe := apart 0xFE (by decide)
  match v with
  | [] => simp [textencBomLen,ef,ff,fe]
  | [a] => simp [textencBomLen,bb,ff,fe]
  | [a,b] => simp [textencBomLen,bf]
  | a :: b :: d :: s => simp [textencBomLen]

theorem markShort (v : Bytes) : textencBomLen v ≤ v.length := by
  rw [textencBomLen]
  split
  · rename_i is
    exact (List.isPrefixOf_iff_prefix.mp is).length_le
  split
  · rename_i is
    exact (List.isPrefixOf_iff_prefix.mp is).length_le
  split
  · rename_i is
    exact (List.isPrefixOf_iff_prefix.mp is).length_le
  · exact Nat.zero_le _

theorem unmarkedSelf (enc : TextEnc) {v : Bytes} (plain : textencBomLen v = 0) : unmarked enc v = v := by
  rw [unmarked]
  simp only [plain,List.drop_zero]
  split <;> rfl

theorem unmarkedFront (enc : TextEnc) (v : Bytes) {c : UInt8} (low : c < 0x80) (t : Bytes) :
    unmarked enc (v ++ c :: t) = unmarked enc v ++ c :: t := by
  rw [unmarked,unmarked]
  simp only [markBefore low v t,List.drop_append_of_le_length (markShort v)]
  split
  · rw [markBefore low _ t,List.drop_append_of_le_length (markShort _)]
  · rfl

theorem convertedMarkless {enc : TextEnc} {tbl : List Nat} (page : pageOf enc = some tbl) (s : Bytes) :
    textencBomLen (decoded enc s) = 0 := by
  cases s with
  | nil => rfl
  | cons b s =>
    rw [decoded,List.flatMap_cons]
    by_cases low : b < 0x80
    · rw [outLow enc low]
      exact markBefore low [] _
    · rw [byteOut,page]
      simp only [if_neg low]
      have far := pageBeyond page b
      rw [beyond] at far
      split at far
      · rename_i x y t is
        rw [is]
        simp only [Bool.and_eq_true,Bool.not_eq_true',decide_eq_false_iff_not,Bool.and_eq_false_iff] at far
        obtain ⟨⟨⟨_,noFf⟩,noFe⟩,noEf⟩ := far
        rw [textencBomLen]
        simp only [List.cons_append,List.isPrefixOf_cons_cons,List.isPrefixOf_nil_left,Bool.and_true,beq_iff_eq,Bool.and_eq_true]
        rw [if_neg,if_neg (fun e => noFf e.1.symm),if_neg (fun e => noFe e.1.symm)]
        rintro ⟨rfl,rfl,-⟩
        simp at noEf
      · contradiction

/-! ### What a row comes back as -/

/-- The fields of a record as the reader gets them. -/
def backFields (enc : TextEnc) (delim : UInt8) : List Bytes → List (Bytes × Bool)
  | [] => []
  | v :: vs =>
    (decoded enc (if needQ delim v then v else unmarked enc v),needQ delim v) ::
      vs.map fun v => (decoded enc v,needQ delim v)

/-- The first field without the marks in front of the record. -/
def firstField (enc : TextEnc) (delim : UInt8) (v : Bytes) : Bytes := if needQ delim v then quoted v else unmarked enc v

theorem unmarkedRecord (enc : TextEnc) (ascii_ : delim < 0x80) (v : Bytes) (vs : List Bytes) :
    unmarked enc (writeRecord delim (v :: vs)) =
      joinWith delim (firstField enc delim v :: vs.map (csvWriteField delim)) ++ [lf] := by
  have front : ∀ {c : UInt8} (t : Bytes), c < 0x80 →
      unmarked enc (csvWriteField delim v ++ c :: t) = firstField enc delim v ++ c :: t := fun {c} t low => by
    rw [csvWriteField,firstField]
    split
    · have mark : textencBomLen (quoted v ++ c :: t) = 0 := markBefore (by decide : quote < 0x80) [] _
      rw [unmarkedSelf enc mark]
    · exact unmarkedFront enc v low t
  rw [writeRecord,List.map_cons]
  cases vs with
  | nil => exact front [] (by decide)
  | cons w vs =>
    rw [List.map_cons,joinWith,joinWith,List.append_assoc,List.append_assoc]
    exact front _ ascii_

theorem unmarkedMem (enc : TextEnc) {v : Bytes} {c : UInt8} (mem : c ∈ unmarked enc v) : c ∈ v := by
  rw [unmarked] at mem
  split at mem
  · exact List.mem_of_mem_drop (List.mem_of_mem_drop mem)
  · exact List.mem_of_mem_drop mem

theorem firstWritten (ascii_ : delim < 0x80) (enc : TextEnc) (v : Bytes) :
    WrittenOf delim (decoded enc (firstField enc delim v))
      (decoded enc (if needQ delim v then v else unmarked enc v),needQ delim v) := by
  rw [firstField]
  cases is : needQ delim v with
  | true =>
    rw [if_pos rfl,if_pos rfl,decodedQuoted]
    exact .quoted _
  | false =>
    rw [if_neg Bool.false_ne_true,if_neg Bool.false_ne_true]
    exact .bare (decodedBare ascii_ enc fun c hc => needed is c (unmarkedMem enc hc))

theorem decodedNoNul (enc : TextEnc) {s : Bytes} (noNul : (0 : UInt8) ∉ s) : (0 : UInt8) ∉ decoded enc s := fun mem => by
  rcases decodedMem enc mem with mem | high
  · exact noNul mem
  · exact high (by decide)

/-- A written record is split into its fields, converted. -/
theorem splitBack (sep : Separates delim) (ascii_ : delim < 0x80) {enc : TextEnc} (single : ¬ Utf16 enc) {vs : List Bytes}
    (some_ : vs ≠ []) (noNul : ∀ v ∈ vs, (0 : UInt8) ∉ v) :
    splitLineExQ delim (csvToUtf8 enc (writeRecord delim vs)) = some (backFields enc delim vs) := by
  cases vs with
  | nil => contradiction
  | cons v vs =>
    have others : List.Forall₂ (WrittenOf delim) ((vs.map (csvWriteField delim)).map (decoded enc))
        (vs.map fun v => (decoded enc v,needQ delim v)) := by
      rw [List.map_map,List.forall₂_map_left_iff,List.forall₂_map_right_iff]
      exact List.forall₂_same.mpr fun v _ => writtenBack ascii_ enc v
    have each := List.Forall₂.cons (firstWritten ascii_ enc v) others
    rw [← List.map_cons] at each
    have noNuls : ∀ f ∈ (firstField enc delim v :: vs.map (csvWriteField delim)).map (decoded enc), (0 : UInt8) ∉ f := by
      intro f hf
      obtain ⟨x,mem,rfl⟩ := List.mem_map.mp hf
      refine decodedNoNul enc ?_
      rcases List.mem_cons.mp mem with rfl | mem
      · have := @fieldNoNul delim v (noNul v List.mem_cons_self)
        rw [firstField]
        rw [csvWriteField] at this
        split
        · rename_i q
          rwa [if_pos q] at this
        · exact fun mem => noNul v List.mem_cons_self (unmarkedMem enc mem)
      · obtain ⟨w,hw,rfl⟩ := List.mem_map.mp mem
        exact fieldNoNul (noNul w (List.mem_cons_of_mem _ hw))
    have lineEnd : decoded enc [lf] = [lf] := by rw [decoded,List.flatMap_singleton,outLow enc (by decide)]
    have ends : LineEnds delim [lf] := by
      rintro c ⟨⟩
      exact ⟨Ne.symm sep.2.2.2,.inr rfl⟩
    rw [convertedIs single,unmarkedRecord enc ascii_,decodedAppend,decodedJoined ascii_,lineEnd,splitLineExQ,splitLineRfc4180Q,
      cstrSelf (joinedNoNul sep noNuls)]
    refine Store.splitRfcJoinedTo sep.2.1 each (by simp) ?_ ends
    have := @Store.joinedLength delim ((firstField enc delim v :: vs.map (csvWriteField delim)).map (decoded enc))
    rw [List.length_append]
    omega

theorem backLength (enc : TextEnc) (delim : UInt8) (vs : List Bytes) : (backFields enc delim vs).length = vs.length := by
  cases vs <;> simp [backFields]

theorem readRowWhole (vals : List (Bytes × Bool)) : readRow vals.length vals = some (vals.map readCell) := by
  rw [readRow,if_neg (Nat.lt_irrefl _)]
  congr 1
  apply List.ext_getElem?
  intro i
  rw [List.getElem?_map,List.getElem?_map]
  by_cases less : i < vals.length
  · rw [List.getElem?_range less,Option.map_some,List.getElem?_eq_getElem less]
    rfl
  · rw [List.getElem?_eq_none (by simpa using less),List.getElem?_eq_none (Nat.not_lt.mp less)]
    rfl

/-! ### Which cells come back -/

/-- A text the reader does not take for NULL, and does not change in converting it. -/
def CellKept (enc : TextEnc) (delim : UInt8) (c : Cell) : Prop :=
  ∀ v ∈ c, v ≠ nullSentinel ∧ (needQ delim v = true ∨ nullWord v = false) ∧
    ((pageOf enc).isSome = true → ∀ b ∈ v, b < 0x80)

/-- No mark of an encoding stands in front of a record. -/
def FirstKept (delim : UInt8) (c : Cell) : Prop := ∀ v ∈ c, needQ delim v = true ∨ textencBomLen v = 0

theorem decodedSelf (enc : TextEnc) (v : Bytes) :
    decoded enc v = v ↔ ((pageOf enc).isSome = true → ∀ b ∈ v, b < 0x80) := by
  have plain : ∀ {s : Bytes}, (∀ b ∈ s, byteOut enc b = [b]) → decoded enc s = s := fun {s} one => by
    rw [decoded,List.flatMap_congr one]
    simp
  constructor
  · intro same page b hb
    by_contra high
    have grows : ∀ tbl, Extends tbl → decoded enc v ≠ fromSingleByte tbl v := fun tbl ext e =>
      singleChanges ext ⟨b,hb,high⟩ (e ▸ same)
    cases enc with
    | cp1251 => exact grows _ extendsCp1251 rfl
    | cp866 => exact grows _ extendsCp866 rfl
    | koi8r => exact grows _ extendsKoi8r rfl
    | _ => cases page
  · intro low
    refine plain fun b hb => ?_
    cases page : pageOf enc with
    | none => rw [byteOut,page]
    | some tbl => exact outLow enc (low (by rw [page]; rfl) b hb)

theorem firstSelf (enc : TextEnc) (v : Bytes) :
    decoded enc (unmarked enc v) = v ↔ decoded enc v = v ∧ textencBomLen v = 0 := by
  constructor
  · intro same
    have plain : textencBomLen v = 0 := by
      cases page : pageOf enc with
      | some tbl => exact same ▸ convertedMarkless page _
      | none =>
        have keep : decoded enc (unmarked enc v) = v.drop (textencBomLen v) := by
          rw [(decodedSelf enc _).mpr (by rw [page]; nofun),unmarked,page]
          rfl
        rw [keep] at same
        have lengths := congrArg List.length same
        have := markShort v
        rw [List.length_drop] at lengths
        omega
    rw [unmarkedSelf enc plain] at same
    exact ⟨same,plain⟩
  · rintro ⟨same,plain⟩
    rw [unmarkedSelf enc plain,same]

theorem readKept (q : Bool) (w v : Bytes) :
    readCell (w,q) = some v ↔ w = v ∧ v ≠ nullSentinel ∧ (q = true ∨ nullWord v = false) := by
  rw [readCell]
  constructor
  · intro same
    split at same
    · contradiction
    · rename_i kept
      obtain rfl : w = v := Option.some.inj same
      simp only [not_or,Bool.and_eq_true,Bool.not_eq_true',not_and] at kept
      refine ⟨rfl,kept.2,?_⟩
      cases q with
      | true => exact .inl rfl
      | false => exact .inr (Bool.eq_false_iff.mpr (kept.1 rfl))
  · rintro ⟨rfl,other,word⟩
    rw [if_neg]
    simp only [not_or,Bool.and_eq_true,Bool.not_eq_true',not_and]
    refine ⟨fun bare null => ?_,other⟩
    rcases word with e | e
    · simp [bare] at e
    · simp [null] at e

/-- A cell after the first comes back exactly when it is kept. -/
theorem cellBack (enc : TextEnc) (c : Cell) :
    readCell (decoded enc (csvCellText c),needQ delim (csvCellText c)) = c ↔ CellKept enc delim c := by
  cases c with
  | none => exact ⟨fun _ _ => nofun,fun _ => rfl⟩
  | some v =>
    have only : CellKept enc delim (some v) ↔ v ≠ nullSentinel ∧ (needQ delim v = true ∨ nullWord v = false) ∧
        ((pageOf enc).isSome = true → ∀ b ∈ v, b < 0x80) := ⟨fun h => h v rfl,by rintro h w ⟨⟩; exact h⟩
    rw [only,csvCellText]
    by_cases is : v = nullSentinel
    · rw [if_pos is]
      exact ⟨nofun,fun h => absurd is h.1⟩
    · rw [if_neg is,readKept,decodedSelf]
      exact ⟨fun ⟨same,other,word⟩ => ⟨other,word,same⟩,fun ⟨other,word,same⟩ => ⟨same,other,word⟩⟩

theorem firstBack (enc : TextEnc) (c : Cell) :
    readCell (decoded enc (if needQ delim (csvCellText c) then csvCellText c else unmarked enc (csvCellText c)),
      needQ delim (csvCellText c)) = c ↔ CellKept enc delim c ∧ FirstKept delim c := by
  cases c with
  | none =>
    have empty : unmarked enc (csvCellText none) = csvCellText none := unmarkedSelf enc rfl
    rw [empty,ite_self,cellBack]
    exact ⟨fun h => ⟨h,fun _ => nofun⟩,fun h => h.1⟩
  | some v =>
    have only : FirstKept delim (some v) ↔ needQ delim v = true ∨ textencBomLen v = 0 :=
      ⟨fun h => h v rfl,by rintro h w ⟨⟩; exact h⟩
    rw [← cellBack,only,csvCellText]
    by_cases is : v = nullSentinel
    · rw [if_pos is,unmarkedSelf enc (show textencBomLen [] = 0 from rfl),ite_self]
      exact ⟨nofun,fun h => absurd h.1 nofun⟩
    · rw [if_neg is]
      cases needs : needQ delim v with
      | true =>
        rw [if_pos rfl]
        exact ⟨fun h => ⟨h,.inl rfl⟩,fun h => h.1⟩
      | false =>
        rw [if_neg Bool.false_ne_true,readKept,readKept,firstSelf]
        constructor
        · rintro ⟨⟨same,plain⟩,rest⟩
          exact ⟨⟨same,rest⟩,.inr plain⟩
        · rintro ⟨⟨same,rest⟩,plain⟩
          exact ⟨⟨same,plain.resolve_left Bool.false_ne_true⟩,rest⟩

theorem mapSelf {α : Type} {f : α → α} {l : List α} : l.map f = l ↔ ∀ a ∈ l, f a = a := by
  conv => lhs; rhs; rw [← List.map_id l]
  exact List.map_inj_left

/-- A row comes back exactly when its cells are kept, the first of them also by the marks. -/
theorem rowBack (enc : TextEnc) (r : List Cell) :
    (backFields enc delim (r.map csvCellText)).map readCell = r ↔
      (∀ c ∈ r, CellKept enc delim c) ∧ ∀ c ∈ r.head?, FirstKept delim c := by
  cases r with
  | nil => exact ⟨fun _ => ⟨nofun,nofun⟩,fun _ => rfl⟩
  | cons c cs =>
    have head : (∀ d ∈ (c :: cs).head?, FirstKept delim d) ↔ FirstKept delim c := ⟨fun h => h c rfl,by rintro h d ⟨⟩; exact h⟩
    rw [List.map_cons,backFields,List.map_cons,List.map_map,List.map_map,List.cons.injEq,firstBack,mapSelf,head,
      List.forall_mem_cons]
    have others : (∀ d ∈ cs, ((readCell ∘ fun v => (decoded enc v,needQ delim v)) ∘ csvCellText) d = d) ↔
        ∀ d ∈ cs, CellKept enc delim d := forall₂_congr fun d _ => cellBack enc d
    rw [others]
    exact ⟨fun ⟨⟨c,f⟩,cs⟩ => ⟨⟨c,cs⟩,f⟩,fun ⟨⟨c,cs⟩,f⟩ => ⟨⟨c,f⟩,cs⟩⟩

/-! ### Batches -/

/-- Rows of texts and NULLs under at least one column. -/
structure Batch where
  names : List Bytes
  rows : List (List Cell)
  some_ : names ≠ []
  few : names.length ≤ Store.maxCols
  wide : ∀ r ∈ rows, r.length = names.length
  nameNoNul : ∀ n ∈ names, (0 : UInt8) ∉ n
  cellNoNul : ∀ r ∈ rows, ∀ c ∈ r, ∀ v ∈ c, (0 : UInt8) ∉ v

/-- The records of a batch's file, the column names first. -/
def Batch.lines (b : Batch) (delim : UInt8) : List Bytes := writeRecord delim b.names :: b.rows.map (rowRecord delim)

def Batch.text (b : Batch) (delim : UInt8) : Bytes := (b.lines delim).flatten

/-- Every record goes into the line buffer. -/
def Fits (delim : UInt8) (b : Batch) : Prop := ∀ l ∈ b.lines delim, l.length + 2 ≤ lineCap

instance (delim : UInt8) (b : Batch) : Decidable (Fits delim b) := inferInstanceAs (Decidable (∀ l ∈ _, _))

/-- The encoding the file of a batch is read in. -/
def Batch.encoding (b : Batch) (cfg : CsvCfg) : TextEnc := csvSniffEncoding (b.text cfg.delimiter) cfg.encoding

structure Kept (cfg : CsvCfg) (b : Batch) : Prop where
  header : cfg.hasHeader = true
  bytes : ¬ Utf16 (b.encoding cfg)
  cells : ∀ r ∈ b.rows, (∀ c ∈ r, CellKept (b.encoding cfg) cfg.delimiter c) ∧ ∀ c ∈ r.head?, FirstKept cfg.delimiter c

theorem writtenText {cfg : CsvCfg} (sep : Separates cfg.delimiter) (b : Batch) {mode : SinkMode} {old : Bytes}
    (fresh : mode = .overwrite ∨ old = []) :
    csvWriteBatch cfg.delimiter mode old (some b.names) b.rows = b.text cfg.delimiter := by
  have start : (if mode = .overwrite then [] else old) = [] := by
    split
    · rfl
    · rename_i append
      exact fresh.resolve_left append
  rw [csvWriteBatch,start]
  simp only [if_pos fresh,if_pos sep.1,List.nil_append]
  rw [Batch.text,Batch.lines,List.flatten_cons,List.flatMap_def]

theorem Batch.textsNoNul (b : Batch) {r : List Cell} (mem : r ∈ b.rows) : ∀ v ∈ r.map csvCellText, (0 : UInt8) ∉ v := by
  intro v hv
  obtain ⟨c,hc,rfl⟩ := List.mem_map.mp hv
  cases c with
  | none => exact List.not_mem_nil
  | some v =>
    rw [csvCellText]
    split
    · exact List.not_mem_nil
    · exact b.cellNoNul r mem (some v) hc v rfl

/-- Every line of a batch is a record, of fields without NUL under the columns. -/
theorem Batch.lineIs (b : Batch) {l : Bytes} (mem : l ∈ b.lines delim) :
    ∃ vs, l = writeRecord delim vs ∧ vs.length = b.names.length ∧ ∀ v ∈ vs, (0 : UInt8) ∉ v := by
  rcases List.mem_cons.mp mem with rfl | mem
  · exact ⟨b.names,rfl,rfl,b.nameNoNul⟩
  · obtain ⟨r,hr,rfl⟩ := List.mem_map.mp mem
    exact ⟨r.map csvCellText,rfl,by rw [List.length_map,b.wide r hr],b.textsNoNul hr⟩

theorem lineRead {ctx : CsvCtx} (sep : Separates ctx.delimiter) (ascii_ : ctx.delimiter < 0x80) (single : ¬ Utf16 ctx.enc)
    {vs : List Bytes} (some_ : vs ≠ []) (noNul : ∀ v ∈ vs, (0 : UInt8) ∉ v) :
    readRecord ctx vs.length (writeRecord ctx.delimiter vs) = some ((backFields ctx.enc ctx.delimiter vs).map readCell) := by
  rw [readRecord,splitBack sep ascii_ single some_ noNul,Option.bind_some,← backLength ctx.enc ctx.delimiter vs]
  exact readRowWhole _

theorem created {cfg : CsvCfg} (sep : Separates cfg.delimiter) (ascii_ : cfg.delimiter < 0x80) {b : Batch}
    (fits : Fits cfg.delimiter b) (single : ¬ Utf16 (b.encoding cfg)) :
    ∃ names, csvCreate cfg (b.text cfg.delimiter) = ⟨cfg.delimiter,cfg.hasHeader,b.encoding cfg,some names⟩ ∧
      names.length = b.names.length := by
  have header := writtenRecord sep b.nameNoNul (fits _ List.mem_cons_self) (b.rows.map (rowRecord cfg.delimiter)).flatten
  rw [← List.flatten_cons] at header
  have first : csvReadRecord (b.text cfg.delimiter) = _ := header
  rw [Batch.encoding] at single ⊢
  have fields := splitBack sep ascii_ single b.some_ b.nameNoNul
  rw [Utf16] at single
  rw [csvCreate]
  simp only [if_neg single,first,fields,Option.bind_eq_bind,Option.bind_some]
  refine ⟨_,rfl,?_⟩
  split
  · rw [List.length_map,backLength]
  · rw [List.length_map,List.length_range,backLength]

theorem refused {ctx : CsvCtx} (schema : ctx.schema = none) (file : Bytes) (fuel start : Nat) :
    readPages ctx file fuel start = none := by
  cases fuel with
  | zero => rfl
  | succ fuel => rw [readPages,csvReadBatch,schema]; rfl

/-- Reading a written file page by page gives the batch back exactly when the reader skips the header, reads
bytes and not UTF-16, and every cell is kept. -/
theorem batchBack {cfg : CsvCfg} (sep : Separates cfg.delimiter) (ascii_ : cfg.delimiter < 0x80) {b : Batch}
    (fits : Fits cfg.delimiter b) {mode : SinkMode} {old file : Bytes} (fresh : mode = .overwrite ∨ old = [])
    (written : file = csvWriteBatch cfg.delimiter mode old (some b.names) b.rows) :
    (∃ fuel, readPages (csvCreate cfg file) file fuel 0 = some b.rows) ↔ Kept cfg b := by
  rw [written,writtenText sep b fresh]
  by_cases single : Utf16 (b.encoding cfg)
  · have none_ : (csvCreate cfg (b.text cfg.delimiter)).schema = none := by
      rw [Utf16,Batch.encoding] at single
      rw [csvCreate]
      simp only [if_pos single]
    exact ⟨fun ⟨fuel,got⟩ => by rw [refused none_] at got; contradiction,fun kept => absurd single kept.bytes⟩
  · obtain ⟨names,ctx,width⟩ := created sep ascii_ fits single
    have records : ∀ l ∈ b.lines cfg.delimiter, Record l := fun l hl => by
      obtain ⟨vs,rfl,_,noNul⟩ := b.lineIs hl
      exact writtenRecord sep noNul (fits _ hl)
    have line : ∀ {vs : List Bytes}, vs.length = b.names.length → (∀ v ∈ vs, (0 : UInt8) ∉ v) →
        readRecord ⟨cfg.delimiter,cfg.hasHeader,b.encoding cfg,some names⟩ names.length (writeRecord cfg.delimiter vs) =
          some ((backFields (b.encoding cfg) cfg.delimiter vs).map readCell) := fun {vs} len noNul => by
      have some_ : vs ≠ [] := fun e => b.some_ (List.length_eq_zero_iff.mp (by rw [← len,e]; rfl))
      rw [width,← len]
      exact @lineRead ⟨cfg.delimiter,cfg.hasHeader,b.encoding cfg,some names⟩ sep ascii_ single vs some_ noNul
    have reads : ∀ l ∈ b.lines cfg.delimiter, readRecord ⟨cfg.delimiter,cfg.hasHeader,b.encoding cfg,some names⟩ names.length l =
        some ((readRecord ⟨cfg.delimiter,cfg.hasHeader,b.encoding cfg,some names⟩ names.length l).getD []) := fun l hl => by
      obtain ⟨vs,rfl,len,noNul⟩ := b.lineIs hl
      rw [line len noNul]
      rfl
    rw [ctx,Batch.text,pagesIff rfl records reads]
    cases header : cfg.hasHeader with
    | false =>
      rw [header] at line
      refine ⟨fun same => ?_,fun kept => absurd kept.header (by rw [header]; decide)⟩
      have lengths := congrArg List.length same
      rw [List.length_map,dataLines,if_neg Bool.false_ne_true,Batch.lines,List.length_cons,List.length_map] at lengths
      omega
    | true =>
      rw [header] at line
      have data : (b.rows.map (rowRecord cfg.delimiter)).map (fun l =>
          (readRecord ⟨cfg.delimiter,true,b.encoding cfg,some names⟩ names.length l).getD []) =
          b.rows.map fun r => (backFields (b.encoding cfg) cfg.delimiter (r.map csvCellText)).map readCell := by
        rw [List.map_map]
        refine List.map_congr_left fun r hr => ?_
        rw [Function.comp_apply,rowRecord,line (by rw [List.length_map,b.wide r hr]) (b.textsNoNul hr)]
        rfl
      rw [dataLines,if_pos rfl,Batch.lines,List.drop_one,List.tail_cons,data,eq_comm,mapSelf]
      have rows : (∀ r ∈ b.rows, (backFields (b.encoding cfg) cfg.delimiter (r.map csvCellText)).map readCell = r) ↔ _ :=
        forall₂_congr fun r _ => rowBack (b.encoding cfg) r
      rw [rows]
      exact ⟨fun cells => ⟨header,single,cells⟩,fun kept => kept.cells⟩

/-- A text and a NULL under one column. -/
def textAndNull : Batch :=
  ⟨[[97]],[[some [120,44]],[none]],by decide,by decide,by decide,by decide,by decide⟩

theorem batchBackTwo : ∃ fuel, readPages (csvCreate {} (textAndNull.text comma)) (textAndNull.text comma) fuel 0 =
    some [[some [120,44]],[none]] := by
  have kept : Kept {} textAndNull := ⟨rfl,by decide,by
    have plain : textAndNull.encoding {} = .utf8 := by decide
    rw [plain]
    intro r hr
    rcases List.mem_cons.mp hr with rfl | hr
    · refine ⟨fun c hc v hv => ?_,fun c hc v hv => ?_⟩
      · rw [List.mem_singleton.mp hc] at hv
        cases hv
        exact ⟨by decide,.inl (by decide),nofun⟩
      · cases hc
        cases hv
        exact .inl (by decide)
    · rw [List.mem_singleton.mp hr]
      refine ⟨fun c hc v hv => ?_,fun c hc v hv => ?_⟩
      · rw [List.mem_singleton.mp hc] at hv
        cases hv
      · cases hc
        cases hv⟩
  exact (@batchBack {} (by decide) (by decide) textAndNull (by decide) .overwrite [] _ (.inl rfl) (by decide)).mpr kept

/-- An empty text and the text `NA`. -/
def twoWords : Batch := ⟨[[97]],[[some []],[some [78,65]]],by decide,by decide,by decide,by decide,by decide⟩

/-- The reader takes both for NULL. -/
theorem wordsLost : Fits comma twoWords ∧ ¬ ∃ fuel, readPages (csvCreate {} (csvWriteBatch comma .overwrite [] (some twoWords.names)
    twoWords.rows)) (csvWriteBatch comma .overwrite [] (some twoWords.names) twoWords.rows) fuel 0 = some twoWords.rows := by
  refine ⟨by decide,fun ⟨fuel,got⟩ => ?_⟩
  cases fuel with
  | zero => contradiction
  | succ fuel =>
    have page : csvReadBatch (csvCreate {} (csvWriteBatch comma .overwrite [] (some twoWords.names) twoWords.rows))
        (csvWriteBatch comma .overwrite [] (some twoWords.names) twoWords.rows) 0 = some ([[none],[none]],true) := by
      decide
    rw [readPages,page] at got
    exact absurd (Option.some.inj got) (by decide)

end Napastak.CsvFile
