import Napastak.Ingest

/-! When a CSV request leaves all of its rows or none: the appends before the first failing one stay. -/
namespace Napastak.Csv
open Store (quote cr lf comma maxCols)

/-- The rows of a text under its header. -/
def csvRows {delim : UInt8} (t : CsvText delim) : List Row :=
  match t.parts with
  | [] => []
  | (header,_) :: ps =>
    ((ps.map fun p => p.1.read).filter fun r => !decide (r = [([],false)])).map (asRow header.fields.length)

/-- A row that is not passed over and is too long or too wide. -/
def Unfit {delim : UInt8} (header : CsvRecord delim) (p : CsvRecord delim × Bool) : Prop :=
  p.1.read ≠ [([],false)] ∧ (rowCap ≤ (rowText p).length ∨ header.fields.length < p.1.fields.length)

/-- What is turned down before any append: no header line, one that goes on over a line end in quotes, too
many columns, a row too long or too wide. -/
def Refused {delim : UInt8} (t : CsvText delim) : Prop :=
  match t.records with
  | [] => True
  | (header,_) :: _ =>
    lf ∈ header.line ∨ maxCols < header.fields.length ∨ ∃ p ∈ t.parts.tail, Unfit header p

/-- Success with the rows added, or an error with the table as it was. -/
def AllOrNothing (answer : Except Refusal (Nat × Nat)) (before after : List Row) (rows : List Row) : Prop :=
  (∃ n, answer = .ok n) ∧ after = before ++ rows ∨ (∃ e, answer = .error e) ∧ after = before

def Tables.visible (st : Tables) : List Row := st.table.getD []

/-- The number of appends so many rows take. -/
def appends (rows : Nat) : Nat := (rows + batchSize - 1) / batchSize

variable {delim : UInt8}

/-! ### The header -/

theorem firstLineNone {s : Bytes} (h : lf ∉ s) (rest : Bytes) : firstLine (s ++ lf :: rest) = s := by
  have all : ∀ c ∈ s, (decide (c ≠ lf)) = true := fun c mem => decide_eq_true fun e => h (e ▸ mem)
  rw [firstLine,List.takeWhile_append_of_pos all,List.takeWhile_cons,if_neg (by simp),List.append_nil]

theorem firstLineSome {s : Bytes} (h : lf ∈ s) (rest : Bytes) : firstLine (s ++ rest) = firstLine s := by
  induction s with
  | nil => contradiction
  | cons c s ih =>
    rw [firstLine,firstLine,List.cons_append,List.takeWhile_cons,List.takeWhile_cons]
    by_cases e : c = lf
    · simp [e]
    · have := ih ((List.mem_cons.mp h).resolve_left fun is => e is.symm)
      rw [firstLine,firstLine] at this
      rw [this]

/-- Quoted text cut at a line end never closes. -/
theorem cutQuotedField (v : Bytes) (h : lf ∈ v) (rest : Bytes) :
    Store.quotedField (firstLine ((v.flatMap fun c => if c = quote then [quote,quote] else [c]) ++ rest)) = none := by
  induction v with
  | nil => contradiction
  | cons c v ih =>
    by_cases e : c = lf
    · subst e
      rfl
    · have ih := ih ((List.mem_cons.mp h).resolve_left fun is => e is.symm)
      by_cases q : c = quote
      · have step : firstLine (((c :: v).flatMap fun c => if c = quote then [quote,quote] else [c]) ++ rest) =
            quote :: quote :: firstLine ((v.flatMap fun c => if c = quote then [quote,quote] else [c]) ++ rest) := by
          subst q
          rfl
        rw [step,Store.quotedField,if_pos rfl,if_pos rfl,ih]
        rfl
      · have step : firstLine (((c :: v).flatMap fun c => if c = quote then [quote,quote] else [c]) ++ rest) =
            c :: firstLine ((v.flatMap fun c => if c = quote then [quote,quote] else [c]) ++ rest) := by
          rw [List.flatMap_cons,if_neg q,List.singleton_append,List.cons_append,firstLine,List.takeWhile_cons,
            if_pos (decide_eq_true e)]
          rfl
        rw [step]
        cases hr : firstLine ((v.flatMap fun c => if c = quote then [quote,quote] else [c]) ++ rest) with
        | nil => simp [Store.quotedField,q]
        | cons d ds =>
          rw [hr] at ih
          simp [Store.quotedField,q,ih]

theorem cutField (f : CsvField delim) (h : lf ∈ f.render) (rest : Bytes) :
    Store.rfcField delim (firstLine (f.render ++ rest)) = none := by
  rw [CsvField.render] at h ⊢
  split at h
  · rename_i inQuotes
    have inside : lf ∈ f.text := by
      simp only [Store.quoted,List.mem_append,List.mem_cons,List.mem_flatMap,List.not_mem_nil,or_false] at h
      rcases h with (e | ⟨c,mem,is⟩) | e
      · exact absurd e (by decide)
      · split at is
        · exact absurd is (by decide)
        · exact List.mem_singleton.mp is ▸ mem
      · exact absurd e (by decide)
    have step : firstLine (Store.quoted f.text ++ rest) =
        quote :: firstLine ((f.text.flatMap fun c => if c = quote then [quote,quote] else [c]) ++ quote :: rest) := by
      simp [Store.quoted,firstLine,quote,lf]
    rw [if_pos inQuotes,step,Store.rfcField,if_pos rfl,cutQuotedField _ inside]
  · rename_i plain
    exact absurd rfl (f.bare (Bool.eq_false_iff.mpr plain) lf h).2.2.1

/-- A header record cut at a line end inside its quotes is malformed. -/
theorem cutHeader (sep : Separates delim) (fs : List (CsvField delim)) (fuel : Nat) (rest : Bytes)
    (h : lf ∈ Store.joinWith delim (fs.map CsvField.render)) :
    Store.splitRfcGo delim fuel (firstLine (Store.joinWith delim (fs.map CsvField.render) ++ rest)) = none := by
  induction fs generalizing fuel with
  | nil => contradiction
  | cons f fs ih =>
    cases fuel with
    | zero => rfl
    | succ fuel =>
      by_cases here : lf ∈ f.render
      · rw [Store.splitRfcGo]
        cases fs with
        | nil => rw [List.map_cons,List.map_nil,Store.joinWith,cutField f here]
        | cons g fs =>
          rw [List.map_cons,List.map_cons,Store.joinWith,List.append_assoc,cutField f here]
      · cases fs with
        | nil => exact absurd h here
        | cons g fs =>
          have joined : Store.joinWith delim ((f :: g :: fs).map CsvField.render) =
              f.render ++ delim :: Store.joinWith delim ((g :: fs).map CsvField.render) := rfl
          rw [joined] at h ⊢
          have later : lf ∈ Store.joinWith delim ((g :: fs).map CsvField.render) := by
            rcases List.mem_append.mp h with mem | mem
            · exact absurd mem here
            · exact (List.mem_cons.mp mem).resolve_left fun e => sep.2.2.2 e.symm
          have all : ∀ c ∈ f.render, (decide (c ≠ lf)) = true := fun c mem => decide_eq_true fun e => here (e ▸ mem)
          have step : firstLine (f.render ++ delim :: Store.joinWith delim ((g :: fs).map CsvField.render) ++ rest) =
              f.render ++ delim :: firstLine (Store.joinWith delim ((g :: fs).map CsvField.render) ++ rest) := by
            rw [List.append_assoc,firstLine,List.takeWhile_append_of_pos all,List.cons_append,List.takeWhile_cons,
              if_pos (decide_eq_true sep.2.2.2)]
            rfl
          rw [step,Store.splitRfcGo,Store.rfcFieldStops sep.2.1 (fieldWritten f) (.inr ⟨_,rfl⟩)]
          simp only [if_true,ih fuel later,Option.map_none]

theorem cutSplit (sep : Separates delim) (r : CsvRecord delim) (rest : Bytes) (h : lf ∈ r.line) :
    splitLineRfc4180Q delim (firstLine (r.line ++ rest)) = none := by
  have noNul : (0 : UInt8) ∉ firstLine (r.line ++ rest) := fun mem => by
    rw [firstLineSome h] at mem
    exact lineNoNul sep r ((List.takeWhile_prefix _).subset mem)
  rw [splitLineRfc4180Q,Store.cstrSelf noNul]
  exact cutHeader sep r.fields _ rest h

theorem headerCut (sep : Separates delim) (r : CsvRecord delim) (rest : Bytes) (h : lf ∈ r.line)
    (sniffed : detectDelim (firstLine (r.line ++ rest)) = delim) : csvHeader (r.line ++ rest) = .error .malformedHeader := by
  rw [csvHeader,if_neg (not_not_intro (List.mem_append_left _ h))]
  simp only [sniffed,cutSplit sep r rest h]

theorem headerRead (sep : Separates delim) (p : CsvRecord delim × Bool) (rest : Bytes) (h : lf ∉ p.1.line)
    (sniffed : detectDelim (firstLine (rowText p ++ lf :: rest)) = delim) :
    csvHeader (rowText p ++ lf :: rest) = if maxCols < p.1.fields.length then .error .tooManyColumns
      else .ok ⟨delim,p.1.read.map fun f => trimName f.1,rest⟩ := by
  have noLf : lf ∉ rowText p := fun mem => by
    rw [rowText] at mem
    rcases List.mem_append.mp mem with mem | mem
    · exact h mem
    · split at mem
      · exact absurd mem (by decide)
      · contradiction
  have line : firstLine (rowText p ++ lf :: rest) = rowText p := firstLineNone noLf rest
  have read : splitLineRfc4180Q delim (rowText p) = some p.1.read := by
    rw [rowText]
    split
    · exact recordReadTo sep p.1 (.inr ⟨sep.2.2.1.symm,[],rfl⟩) (by decide)
    · exact recordReadTo sep p.1 (.inl rfl) List.not_mem_nil
  have wide : p.1.read.length = p.1.fields.length := List.length_map _
  have left : (rowText p ++ lf :: rest).drop ((rowText p).length + 1) = rest := by
    rw [List.drop_append,List.drop_eq_nil_of_le (Nat.le_succ _),Nat.add_sub_cancel_left]
    rfl
  rw [line] at sniffed
  rw [csvHeader,if_neg (not_not_intro (List.mem_append_right _ List.mem_cons_self))]
  simp only [line,sniffed,read,wide,left]

/-! ### The rows -/

variable {header : CsvRecord delim} {h : Header}

/-- The header as it was read: the delimiter, and as many names as fields. -/
structure Heads (h : Header) (header : CsvRecord delim) : Prop where
  delim : h.delim = delim
  names : h.names.length = header.fields.length

theorem blankShort {row : Bytes} (blank : csvBlank row = true) : row.length < rowCap := by
  rcases of_decide_eq_true blank with rfl | rfl <;> decide

theorem checkOk (sep : Separates delim) (heads : Heads h header) {p : CsvRecord delim × Bool} (fit : ¬ Unfit header p) :
    checkRow h (rowText p) = .ok () := by
  rw [checkRow,blankRead sep,heads.delim,dropEnding sep,recordRead sep,heads.names]
  by_cases blank : p.1.read = [([],false)]
  · rw [if_pos (decide_eq_true blank)]
  · have bounds : ¬ rowCap ≤ (rowText p).length ∧ ¬ header.fields.length < p.1.fields.length :=
      not_or.mp fun out => fit ⟨blank,out⟩
    have wide : p.1.read.length = p.1.fields.length := List.length_map _
    rw [if_neg (by simpa using blank),if_neg bounds.1]
    simp only [wide,if_neg bounds.2]

theorem checkError (sep : Separates delim) (heads : Heads h header) {p : CsvRecord delim × Bool} (unfit : Unfit header p) :
    ∃ e, checkRow h (rowText p) = .error e := by
  have wide : p.1.read.length = p.1.fields.length := List.length_map _
  rw [checkRow,blankRead sep,heads.delim,dropEnding sep,recordRead sep,heads.names,if_neg (by simpa using unfit.1)]
  split
  · exact ⟨_,rfl⟩
  · rename_i short
    refine ⟨.tooManyFields,if_pos ?_⟩
    rw [wide]
    exact unfit.2.resolve_left short

theorem checkCons (h : Header) (row : Bytes) (rows : List Bytes) :
    (row :: rows).forM (checkRow h) = (checkRow h row).bind fun _ => rows.forM (checkRow h) := rfl

theorem checkAll (sep : Separates delim) (heads : Heads h header) (ps : List (CsvRecord delim × Bool)) :
    (¬ (∃ p ∈ ps, Unfit header p) ∧ (ps.map rowText).forM (checkRow h) = .ok ()) ∨
    ((∃ p ∈ ps, Unfit header p) ∧ ∃ e, (ps.map rowText).forM (checkRow h) = .error e) := by
  induction ps with
  | nil => exact .inl ⟨by simp,rfl⟩
  | cons p ps ih =>
    by_cases unfit : Unfit header p
    · obtain ⟨e,is⟩ := checkError sep heads unfit
      refine .inr ⟨⟨p,List.mem_cons_self,unfit⟩,e,?_⟩
      rw [List.map_cons,checkCons,is]
      rfl
    · have step : ((p :: ps).map rowText).forM (checkRow h) = (ps.map rowText).forM (checkRow h) := by
        rw [List.map_cons,checkCons,checkOk sep heads unfit]
        rfl
      rw [step]
      rcases ih with ⟨none_,is⟩ | ⟨⟨q,mem,bad⟩,is⟩
      · refine .inl ⟨fun ⟨q,mem,bad⟩ => ?_,is⟩
        rcases List.mem_cons.mp mem with rfl | mem
        · exact unfit bad
        · exact none_ ⟨q,mem,bad⟩
      · exact .inr ⟨⟨q,List.mem_cons_of_mem _ mem,bad⟩,is⟩

theorem rowRead (sep : Separates delim) (heads : Heads h header) {p : CsvRecord delim × Bool} (fit : ¬ Unfit header p)
    (seen : p.1.read ≠ [([],false)]) : ingestRow h (rowText p) = .ok (asRow header.fields.length p.1.read) := by
  have bounds : ¬ rowCap ≤ (rowText p).length ∧ ¬ header.fields.length < p.1.fields.length :=
    not_or.mp fun out => fit ⟨seen,out⟩
  have wide : p.1.read.length = p.1.fields.length := List.length_map _
  rw [ingestRow,List.take_of_length_le (by omega),heads.delim,dropEnding sep,recordRead sep,heads.names]
  simp only [wide,if_neg bounds.2]

/-! ### The appends -/

variable {fates : Nat → Fate}

/-- The rows that are not passed over. -/
def seenRows (header : CsvRecord delim) (ps : List (CsvRecord delim × Bool)) : List Row :=
  ((ps.map fun p => p.1.read).filter fun r => !decide (r = [([],false)])).map (asRow header.fields.length)

/-- How the appends from the `k`-th on end for so many rows: all went well, or one failed after those before it. -/
def Ends (fates : Nat → Fate) (k : Nat) (tbl rows : List Row) (out : Except Refusal Nat × Tables) : Prop :=
  (∃ n, out.1 = .ok n) ∧ out.2.table = some (tbl ++ rows) ∧ (∀ j < appends rows.length, fates (k + j) = .ok) ∨
  ∃ j w, j < appends rows.length ∧ (∀ i < j, fates (k + i) = .ok) ∧ fates (k + j) = .fails w ∧ (∃ e, out.1 = .error e) ∧
    out.2.table = some (tbl ++ rows.take (j * batchSize + min w batchSize))

theorem appendsOne {n : Nat} (pos : 0 < n) (small : n ≤ batchSize) : appends n = 1 := by
  unfold appends batchSize at *
  omega

theorem appendsMore (n : Nat) : appends (batchSize + n) = appends n + 1 := by
  unfold appends batchSize
  omega

theorem lastFlush {batch : List Row} (small : batch.length < batchSize) (some_ : 0 < batch.length) (k n : Nat)
    {tbl : List Row} {st : Tables} (is : st.table = some tbl) :
    Ends fates k tbl batch (match flush fates 0 k batch st with
      | (some e,st) => (.error e,st)
      | (none,st) => (.ok n,st)) := by
  have one := appendsOne some_ (Nat.le_of_lt small)
  cases fate : fates k with
  | ok =>
    simp only [flush,fate,if_true,is,Option.map_some,ne_eq,not_true_eq_false,if_false]
    refine .inl ⟨⟨n,rfl⟩,rfl,fun j lt => ?_⟩
    rw [one] at lt
    obtain rfl : j = 0 := by omega
    exact fate
  | fails w =>
    simp only [flush,fate,is,Option.map_some,ne_eq,not_true_eq_false,if_false,reduceCtorEq]
    refine .inr ⟨0,w,by omega,by omega,fate,⟨_,rfl⟩,?_⟩
    have taken : batch.take (0 * batchSize + min w batchSize) = batch.take w := by
      rcases Nat.le_total w batchSize with le | le
      · rw [Nat.zero_mul,Nat.zero_add,Nat.min_eq_left le]
      · rw [Nat.zero_mul,Nat.zero_add,Nat.min_eq_right le,List.take_of_length_le (by omega),
          List.take_of_length_le (by omega)]
    rw [taken]

theorem fullFlush {batch rows : List Row} (full : batch.length = batchSize) (k : Nat) {tbl : List Row} {st : Tables}
    (is : st.table = some tbl) {next : Tables → Except Refusal Nat × Tables}
    (later : ∀ st', st'.table = some (tbl ++ batch) → Ends fates (k + 1) (tbl ++ batch) rows (next st')) :
    Ends fates k tbl (batch ++ rows) (match flush fates 0 k batch st with
      | (some e,st) => (.error e,st)
      | (none,st) => next st) := by
  have more : appends (batch ++ rows).length = appends rows.length + 1 := by rw [List.length_append,full,appendsMore]
  cases fate : fates k with
  | ok =>
    simp only [flush,fate,if_true,is,Option.map_some,ne_eq,not_true_eq_false,if_false]
    rcases later { st with table := some (tbl ++ batch) } rfl with ⟨ok,table,all⟩ | ⟨j,w,lt,all,bad,error,table⟩
    · refine .inl ⟨ok,by rw [table,List.append_assoc],fun j lt => ?_⟩
      cases j with
      | zero => exact fate
      | succ j =>
        rw [← Nat.succ_add_eq_add_succ]
        exact all j (by omega)
    · refine .inr ⟨j + 1,w,by omega,fun i lt => ?_,by rw [← Nat.succ_add_eq_add_succ]; exact bad,error,?_⟩
      · cases i with
        | zero => exact fate
        | succ i =>
          rw [← Nat.succ_add_eq_add_succ]
          exact all i (by omega)
      · have past : (j + 1) * batchSize + min w batchSize = batch.length + (j * batchSize + min w batchSize) := by
          rw [full,Nat.succ_mul]
          omega
        rw [table,past,List.take_length_add_append,List.append_assoc]
  | fails w =>
    simp only [flush,fate,is,Option.map_some,ne_eq,not_true_eq_false,if_false,reduceCtorEq]
    refine .inr ⟨0,w,by omega,by omega,fate,⟨_,rfl⟩,?_⟩
    have taken : (batch ++ rows).take (0 * batchSize + min w batchSize) = batch.take w := by
      rw [Nat.zero_mul,Nat.zero_add,List.take_append_of_le_length (by omega)]
      rcases Nat.le_total w batchSize with le | le
      · rw [Nat.min_eq_left le]
      · rw [Nat.min_eq_right le,List.take_of_length_le (by omega),List.take_of_length_le (by omega)]
    rw [taken]

/-- What the loop leaves, whatever the batch so far holds. -/
theorem loopEnds (sep : Separates delim) (heads : Heads h header) {ps : List (CsvRecord delim × Bool)}
    (fit : ∀ p ∈ ps, ¬ Unfit header p) {batch : List Row} (small : batch.length < batchSize) (k n : Nat)
    {tbl : List Row} {st : Tables} (is : st.table = some tbl) :
    Ends fates k tbl (batch ++ seenRows header ps) (ingestLoop fates 0 h (ps.map rowText) batch k n st) := by
  induction ps generalizing batch k n tbl st with
  | nil =>
    rw [List.map_nil,ingestLoop,seenRows,List.map_nil,List.filter_nil,List.map_nil,List.append_nil]
    split
    · rename_i some_
      exact lastFlush small some_ k n is
    · rename_i none_
      obtain rfl : batch = [] := List.length_eq_zero_iff.mp (by omega)
      exact .inl ⟨⟨n,rfl⟩,by rw [is,List.append_nil],by simp [appends,batchSize]⟩
  | cons p ps ih =>
    have ih := @ih fun q mem => fit q (List.mem_cons_of_mem _ mem)
    rw [List.map_cons,ingestLoop,blankRead sep]
    by_cases blank : p.1.read = [([],false)]
    · have skip : seenRows header (p :: ps) = seenRows header ps := by
        rw [seenRows,List.map_cons,List.filter_cons_of_neg (by simp [blank])]
        rfl
      rw [if_pos (decide_eq_true blank),skip]
      exact ih small k n is
    · have keep : seenRows header (p :: ps) = asRow header.fields.length p.1.read :: seenRows header ps := by
        rw [seenRows,List.map_cons,List.filter_cons_of_pos (by simp [blank])]
        rfl
      rw [if_neg (by simpa using blank),rowRead sep heads (fit p List.mem_cons_self) blank,keep,List.append_cons]
      simp only
      split
      · rename_i full
        exact fullFlush full k is fun st' is' => by
          have := @ih [] (by decide) (k + 1) (n + 1) _ _ is'
          rwa [List.nil_append] at this
      · rename_i room
        refine ih ?_ k (n + 1) is
        rw [List.length_append,List.length_singleton] at room ⊢
        omega

theorem endsAtomic {before rows : List Row} {out : Except Refusal Nat × Tables} (ends : Ends fates 0 before rows out)
    {answer : Except Refusal (Nat × Nat)} (ok : (∃ n, out.1 = .ok n) → ∃ n, answer = .ok n)
    (error : (∃ e, out.1 = .error e) → ∃ e, answer = .error e) :
    AllOrNothing answer before out.2.visible rows ↔
      ∀ k w, k < appends rows.length → (∀ j < k, fates j = .ok) → fates k = .fails w → k = 0 ∧ w = 0 := by
  rcases ends with ⟨answered,table,all⟩ | ⟨j,w,lt,earlier,bad,failed,table⟩
  · refine iff_of_true (.inl ⟨ok answered,by rw [Tables.visible,table]; rfl⟩) fun k w lt _ bad => ?_
    have := all k lt
    rw [Nat.zero_add,bad] at this
    contradiction
  · simp only [Nat.zero_add] at earlier bad
    have first : ∀ k v, (∀ i < k, fates i = .ok) → fates k = .fails v → k = j ∧ v = w := fun k v before bad' => by
      rcases Nat.lt_trichotomy k j with less | rfl | more
      · rw [earlier k less] at bad'
        contradiction
      · exact ⟨rfl,by rw [bad] at bad'; cases bad'; rfl⟩
      · rw [before j more] at bad
        contradiction
    obtain ⟨e,refused⟩ := error failed
    rw [Tables.visible,table,Option.getD_some,refused]
    constructor
    · rintro (⟨⟨_,is⟩,_⟩ | ⟨_,same⟩)
      · contradiction
      · intro k v _ before bad'
        obtain ⟨rfl,rfl⟩ := first k v before bad'
        have none_ := List.append_right_eq_self.mp same
        have some_ : 0 < rows.length := by
          refine Nat.pos_of_ne_zero fun zero => ?_
          rw [zero] at lt
          exact absurd lt (by simp [appends,batchSize])
        have zero : k * batchSize + min v batchSize = 0 := by
          rcases List.take_eq_nil_iff.mp none_ with zero | nil
          · exact zero
          · rw [nil] at some_
            contradiction
        unfold batchSize at zero
        omega
    · intro only
      obtain ⟨rfl,rfl⟩ := only j w lt earlier bad
      refine .inr ⟨⟨e,rfl⟩,?_⟩
      rw [Nat.zero_mul,Nat.zero_add,Nat.zero_min,List.take_zero,List.append_nil]

theorem sniffedSeparates (line : Bytes) : Separates (detectDelim line) := by
  rw [detectDelim]
  split <;> decide

def CsvText.tail (t : CsvText delim) : CsvText delim := { t with records := t.records.tail }

theorem renderCons {t : CsvText delim} {p : CsvRecord delim × Bool} {rs : List (CsvRecord delim × Bool)}
    (is : t.records = p :: rs) : t.render = rowText p ++ lf :: t.tail.render := by
  obtain ⟨r,crlf⟩ := p
  rw [CsvText.render,CsvText.render,CsvText.tail,is,List.flatMap_cons,List.tail_cons,rowText]
  cases crlf <;> simp [ending]

theorem partsCons {t : CsvText delim} {p : CsvRecord delim × Bool} {rs : List (CsvRecord delim × Bool)}
    (is : t.records = p :: rs) : t.parts = p :: t.tail.parts := by
  rw [CsvText.parts,CsvText.parts,CsvText.tail,is]
  rfl

theorem headerRefused {body : Bytes} {e : Refusal} (refused : csvHeader body = .error e) (st : Tables) :
    hIngestCsv fates 0 body st = (.error e,st) := by rw [hIngestCsv,refused]

theorem untouched {answer : Except Refusal (Nat × Nat) × Tables} {e : Refusal} {st : Tables} (is : answer = (.error e,st))
    (rows : List Row) : AllOrNothing answer.1 st.visible answer.2.visible rows := by
  rw [is]
  exact .inr ⟨⟨e,rfl⟩,rfl⟩

theorem bufferedKeeps (k : Nat) {txnId : Nat} (txn : txnId ≠ 0) (batch : List Row) (st : Tables) :
    (flush fates txnId k batch st).2.table = st.table := by rw [flush,if_pos txn]

theorem loopBuffers {txnId : Nat} (txn : txnId ≠ 0) (h : Header) (rows : List Bytes) (batch : List Row) (k n : Nat)
    (st : Tables) : (ingestLoop fates txnId h rows batch k n st).2.table = st.table := by
  induction rows generalizing batch k n st with
  | nil =>
    rw [ingestLoop]
    split
    · have kept := @bufferedKeeps fates k txnId txn batch st
      split <;> rename_i is <;> rw [is] at kept <;> exact kept
    · rfl
  | cons row rows ih =>
    rw [ingestLoop]
    split
    · exact ih batch k n st
    · split
      · rfl
      · rename_i r _
        split
        · have kept := @bufferedKeeps fates k txnId txn (batch ++ [r]) st
          split <;> rename_i is <;> rw [is] at kept
          · exact kept
          · rw [ih]
            exact kept
        · exact ih _ _ _ _

/-- One column `a` with one row `1`. -/
def oneRow : CsvText comma := .closed
  [(headerA,false),(⟨[⟨[49],false,by decide,by intro _ c mem; rw [List.mem_singleton.mp mem]; decide⟩],by decide⟩,false)]

theorem oneRowSniffed : detectDelim (firstLine oneRow.render) = comma := by decide

end Napastak.Csv
