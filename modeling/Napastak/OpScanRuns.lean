import Napastak.OpScan

/-! Where `op_scan` and the full scan of the gateway show the same rows: record by record, and after any
calls that write only records both read alike. -/
namespace Napastak.Store
open Codec Framing

/-! ### The condition -/

/-- A cell of a plain line that both readers end at the same place and neither takes for NULL. -/
def Settled (f : Bytes) : Prop := (∀ c ∈ f, stops c = false) ∧ f ≠ nullSentinel

instance (f : Bytes) : Decidable (Settled f) :=
  decidable_of_iff ((f.all fun c => !stops c) = true ∧ f ≠ nullSentinel) (by simp [Settled])

/-- An escaped line is a row of bare and quoted fields, or one that the strict splitter gives up on and whose
cells the lenient reader takes as they stand. -/
def EscAlike (ncols : Nat) (rest : Bytes) : Prop :=
  (∃ encs ps, List.Forall₂ Written encs ps ∧ encs ≠ [] ∧ rest = joinCells encs ∧ ∀ p ∈ ps.take ncols, p.1 ≠ nullSentinel) ∨
  (splitLineRfc4180 rest = none ∧
    ∀ f ∈ (splitLineSimple rest maxCols).take ncols, Settled f ∧ f.head? ≠ some quote ∧ f ≠ nullText)

/-- Both readers find the same cells in a line. -/
def FieldsAlike (ncols : Nat) : Bytes → Prop
  | 4 :: rest => EscAlike ncols rest
  | line => ∀ f ∈ (splitLineSimple line maxCols).take ncols, Settled f

/-- A record neither scan shows as a row. -/
def isService (p : Bytes) : Bool := p.head? = some walOpDelete ∨ p.head? = some walOpUpdate

theorem serviceBytes {p : Bytes} : isService p = true ↔ p.head? = some walOpDelete ∨ p.head? = some walOpUpdate := by
  simp [isService]

structure DataFits (ncols : Nat) (p : Bytes) : Prop where
  short : p.length < lineBuf
  line : isBatch p = false
  shown : printable (lineOf p) = true
  alike : FieldsAlike ncols (lineOf p)

/-- The record may be written after the records `ps`: a service record is no tombstone of a row, and a row
has no tombstone waiting for it. -/
def RecordFits (ncols : Nat) (ps : List Bytes) (p : Bytes) : Prop :=
  p.length < 2 ^ 32 ∧
    if isService p then
      ∀ t, scanTombstone p = some t → ∀ r ∈ placed 0 ps, isService r.2 = false → r.1 ≠ t.origOff
    else DataFits ncols p ∧ stonesAt (tombstones ps) (frame ps).length = []

def RecordsFit (ncols : Nat) : List Bytes → List Bytes → Prop
  | _, [] => True
  | ps, q :: qs => RecordFits ncols ps q ∧ RecordsFit ncols (ps ++ [q]) qs

/-- A log of fitting rows, none of which has a tombstone. -/
structure CleanLog (ncols : Nat) (ps : List Bytes) : Prop where
  small : Framable ps
  rows : ∀ r ∈ placed 0 ps, isService r.2 = false → DataFits ncols r.2 ∧ stonesAt (tombstones ps) r.1 = []

/-! ### One line -/

section
variable {α β : Type}

/-- The first `n` cells of a row, `d` for those it does not have. -/
def firstCells (d : α) : Nat → List α → List α
  | 0, _ => []
  | n + 1, [] => d :: firstCells d n []
  | n + 1, x :: xs => x :: firstCells d n xs

theorem firstCellsGet (d : α) (n : Nat) (xs : List α) : firstCells d n xs = (List.range n).map fun i => xs.getD i d := by
  induction n generalizing xs with
  | zero => rfl
  | succ n ih =>
    rw [List.range_succ_eq_map,List.map_cons,List.map_map]
    cases xs with
    | nil => rw [firstCells,ih]; rfl
    | cons x xs => rw [firstCells,ih]; rfl

theorem firstCellsMap (g : α → β) (d : α) (n : Nat) (xs : List α) :
    firstCells (g d) n (xs.map g) = (firstCells d n xs).map g := by
  induction n generalizing xs with
  | zero => rfl
  | succ n ih =>
    cases xs with
    | nil => simpa [firstCells] using ih []
    | cons x xs => simpa [firstCells] using ih xs

theorem firstCellsTake {d : α} {n m : Nat} (le : n ≤ m) (xs : List α) :
    firstCells d n (xs.take m) = firstCells d n xs := by
  induction n generalizing m xs with
  | zero => rfl
  | succ n ih =>
    obtain ⟨m,rfl⟩ : ∃ k, m = k + 1 := ⟨m - 1,by omega⟩
    cases xs with
    | nil => rfl
    | cons x xs => simpa [firstCells] using ih (by omega) xs

theorem firstCellsMem {d : α} {n : Nat} {xs : List α} {x : α} (h : x ∈ firstCells d n xs) : x = d ∨ x ∈ xs.take n := by
  induction n generalizing xs with
  | zero => cases h
  | succ n ih =>
    cases xs with
    | nil =>
      rcases List.mem_cons.mp h with rfl | h
      · exact .inl rfl
      · exact (ih h).imp_right fun m => by simp at m
    | cons y ys =>
      rcases List.mem_cons.mp h with rfl | h
      · exact .inr (by simp)
      · exact (ih h).imp_right fun m => by rw [List.take_succ_cons]; exact List.mem_cons_of_mem _ m

end

theorem commaCases (line : Bytes) :
    (∀ c ∈ line, c ≠ comma) ∨ ∃ f rest, line = f ++ comma :: rest ∧ ∀ c ∈ f, c ≠ comma := by
  induction line with
  | nil => exact .inl (by simp)
  | cons c cs ih =>
    by_cases h : c = comma
    · exact .inr ⟨[],cs,by simp [h],by simp⟩
    · rcases ih with none_ | ⟨f,rest,rfl,none_⟩
      · exact .inl (List.forall_mem_cons.mpr ⟨h,none_⟩)
      · exact .inr ⟨c :: f,rest,rfl,List.forall_mem_cons.mpr ⟨h,none_⟩⟩

theorem trimSplit (s : Bytes) : ∃ tail, s = trimEnd s ++ tail ∧ ∀ c ∈ tail, c = lf ∨ c = cr := by
  refine ⟨(s.reverse.takeWhile fun c => c = lf ∨ c = cr).reverse,?_,fun c hc => ?_⟩
  · rw [trimEnd,← List.reverse_append,List.takeWhile_append_dropWhile,List.reverse_reverse]
  · simpa using List.mem_takeWhile_imp (List.mem_reverse.mp hc)

theorem nextComma (rest : Bytes) : nextCol (comma :: rest) = rest := by
  simp [nextCol]

theorem nextEnd {tail : Bytes} (none_ : ∀ c ∈ tail, c ≠ comma) : nextCol tail = [] := by
  have all : tail.dropWhile (· ≠ comma) = [] := List.dropWhile_eq_nil_iff.mpr fun c hc => by simpa using none_ c hc
  rw [nextCol,all]
  rfl

/-- What follows a field: nothing, or a byte that ends it. -/
def Ended (rest : Bytes) : Prop := ∀ c, rest.head? = some c → stops c = true

theorem endedTail {tail : Bytes} (ends : ∀ c ∈ tail, c = lf ∨ c = cr) : Ended tail := by
  intro c hc
  rcases ends c (List.mem_of_mem_head? hc) with rfl | rfl <;> decide

theorem endedComma (rest : Bytes) : Ended (comma :: rest) := by
  rintro c ⟨⟩
  decide

theorem tailNoComma {tail : Bytes} (ends : ∀ c ∈ tail, c = lf ∨ c = cr) : ∀ c ∈ tail, c ≠ comma := by
  intro c hc
  rcases ends c hc with rfl | rfl <;> decide

theorem opFieldPlain {esc : Bool} {f rest : Bytes} (plain : ∀ c ∈ f, stops c = false) (ended : Ended rest)
    (open_ : esc = true → f.head? ≠ some quote) : opField esc (f ++ rest) = ((f,false),rest) := by
  have notQuoted : ¬ (esc = true ∧ (f ++ rest).head? = some quote) := by
    rintro ⟨he,head⟩
    cases f with
    | nil => exact absurd (ended quote head) (by decide)
    | cons c cs => exact open_ he head
  have none_ : rest.takeWhile (!stops ·) = [] ∧ rest.dropWhile (!stops ·) = rest := by
    cases rest with
    | nil => exact ⟨rfl,rfl⟩
    | cons c cs => simp [ended c rfl]
  rw [opField,if_neg notQuoted,List.takeWhile_append_of_pos (by simpa using plain),
    List.dropWhile_append_of_pos (by simpa using plain),none_.1,none_.2,List.append_nil]

theorem opFieldsEnd (esc : Bool) (n : Nat) : opFields esc n [] = firstCells ([],false) n [] := by
  induction n with
  | zero => rfl
  | succ n ih =>
    have field : opField esc [] = (([],false),[]) := @opFieldPlain esc [] [] (by simp) (by simp [Ended]) (by simp)
    simp only [opFields,field,firstCells]
    rw [show nextCol [] = [] from rfl,ih]
    rfl

/-- The cells of a plain line, as far as they are wanted. -/
theorem opFieldsPlain {esc : Bool} {tail : Bytes} (ends : ∀ c ∈ tail, c = lf ∨ c = cr) (n left : Nat) (line : Bytes)
    (room : n ≤ left + 1)
    (ok : ∀ f ∈ (splitSimpleGo comma left line).take n, (∀ c ∈ f, stops c = false) ∧ (esc = true → f.head? ≠ some quote)) :
    opFields esc n (line ++ tail) =
      (firstCells [] n (splitSimpleGo comma left line)).map fun f => (f,decide (f = nullText)) := by
  induction n generalizing left line with
  | zero => rfl
  | succ n ih =>
    rcases commaCases line with none_ | ⟨f,rest,rfl,none_⟩
    · rw [splitLast left none_] at ok ⊢
      obtain ⟨plain,open_⟩ := ok line (by simp)
      simp only [opFields,opFieldPlain plain (endedTail ends) open_,nextEnd (tailNoComma ends),firstCells,List.map_cons]
      rw [opFieldsEnd,← firstCellsMap]
      rfl
    · cases left with
      | zero =>
        have whole : splitSimpleGo comma 0 (f ++ comma :: rest) = [f ++ comma :: rest] := by
          cases f <;> rfl
        rw [whole] at ok
        exact absurd ((ok (f ++ comma :: rest) (by simp)).1 comma (by simp)) (by decide)
      | succ left =>
        rw [splitNext left none_] at ok ⊢
        obtain ⟨plain,open_⟩ := ok f (by simp)
        have more := ih left rest (by omega) fun g hg => ok g (by rw [List.take_succ_cons]; exact List.mem_cons_of_mem _ hg)
        rw [List.append_assoc,List.cons_append]
        simp only [opFields,opFieldPlain plain (endedComma _) open_,nextComma,firstCells,List.map_cons,more]
        simp

theorem quotedRestCons {c : UInt8} (ne : c ≠ quote) (cs : Bytes) :
    quotedRest (c :: cs) = (c :: (quotedRest cs).1,(quotedRest cs).2) := by
  cases cs with
  | nil => simp [quotedRest,ne]
  | cons d ds => simp [quotedRest,ne]

theorem quotedRestQuoted (v : Bytes) {rest : Bytes} (ended : Ended rest) :
    quotedRest ((v.flatMap fun c => if c = quote then [quote,quote] else [c]) ++ quote :: rest) = (v,rest) := by
  induction v with
  | nil =>
    cases rest with
    | nil => rfl
    | cons d ds =>
      have ne : d ≠ quote := by rintro rfl; exact absurd (ended quote rfl) (by decide)
      simp [quotedRest,ne]
  | cons c v ih =>
    rw [List.flatMap_cons,List.append_assoc]
    by_cases h : c = quote
    · subst h
      simp only [if_true,List.cons_append,List.nil_append,quotedRest,ih]
    · simp only [if_neg h,List.cons_append,List.nil_append,quotedRestCons h,ih]

theorem opFieldWritten {enc : Bytes} {p : Bytes × Bool} (w : Written enc p) {rest : Bytes} (ended : Ended rest) :
    opField true (enc ++ rest) = (p,rest) := by
  cases w with
  | @bare v h =>
    refine opFieldPlain (fun c hc => ?_) ended fun _ head => ?_
    · obtain ⟨notComma,-,notLf,notCr⟩ := h c hc
      simp [stops,notComma,notLf,notCr]
    · exact (h quote (List.mem_of_mem_head? head)).2.1 rfl
  | quoted v =>
    have tail := quotedRestQuoted v ended
    simp only [quoted,List.cons_append,List.append_assoc,List.nil_append,opField,List.head?_cons,and_self,if_true,
      List.drop_succ_cons,List.drop_zero,tail]

theorem opFieldsWritten {encs : List Bytes} {ps : List (Bytes × Bool)} (w : List.Forall₂ Written encs ps)
    (some_ : encs ≠ []) {tail : Bytes} (ends : ∀ c ∈ tail, c = lf ∨ c = cr) (n : Nat) :
    opFields true n (joinCells encs ++ tail) =
      (firstCells ([],false) n ps).map fun p => (p.1,!p.2 && decide (p.1 = nullText)) := by
  induction w generalizing n with
  | nil => exact absurd rfl some_
  | @cons enc p encs ps head rest ih =>
    cases n with
    | zero => rfl
    | succ n =>
      cases rest with
      | nil =>
        simp only [joinCells,opFields,opFieldWritten head (endedTail ends),nextEnd (tailNoComma ends),firstCells,
          List.map_cons]
        rw [opFieldsEnd,← firstCellsMap]
        rfl
      | @cons enc' p' encs ps head' rest =>
        have more := ih (by simp) n
        rw [joinCells,List.append_assoc,List.cons_append]
        simp only [opFields,opFieldWritten head (endedComma _),nextComma,firstCells,List.map_cons,more]

theorem rowOfCells {ncols : Nat} {α : Type} {line : Bytes} {h : α → Bytes} {d : α} {fs : List α} (none_ : h d = [])
    (vals : walSplitRow line maxCols = fs.map h) : rowOf ncols line = (firstCells d ncols fs).map h := by
  rw [rowOf,vals,← firstCellsMap,none_,firstCellsGet]

theorem emptySettled : ([] : Bytes) ≠ nullSentinel ∧ ([] : Bytes) ≠ nullText := by decide

section
variable [Floats]

theorem rowsAlike {α : Type} {g : α → Bytes × Bool} {h : α → Bytes} {xs : List α}
    (same : ∀ x ∈ xs, ∀ t, opDatum t (g x) = loadDatum t (h x)) (types : List ColType) :
    List.zipWith opDatum types (xs.map g) = List.zipWith loadDatum types (xs.map h) := by
  induction xs generalizing types with
  | nil => simp
  | cons x xs ih =>
    cases types with
    | nil => rfl
    | cons t types =>
      rw [List.map_cons,List.map_cons,List.zipWith_cons_cons,List.zipWith_cons_cons,same x List.mem_cons_self,
        ih fun y hy => same y (List.mem_cons_of_mem _ hy)]

/-- A text that is not a bare `NULL` and not the sentinel is read as it stands by both. -/
theorem datumPlain {f : Bytes} (ne : f ≠ nullSentinel) (t : ColType) : opDatum t (f,false) = loadDatum t f := by
  simp [opDatum,loadDatum,ne]

theorem datumNull (f : Bytes) (t : ColType) : opDatum t (f,true) = loadDatum t nullSentinel := by
  simp [opDatum,loadDatum]

/-- A row of bare and quoted fields. -/
theorem writtenAlike {types : List ColType} (few : types.length ≤ maxCols) {encs : List Bytes} {ps : List (Bytes × Bool)}
    (written : List.Forall₂ Written encs ps) (some_ : encs ≠ []) (settled : ∀ p ∈ ps.take types.length, p.1 ≠ nullSentinel)
    {tail : Bytes} (ends : ∀ c ∈ tail, c = lf ∨ c = cr) :
    List.zipWith opDatum types (opFields true types.length (joinCells encs ++ tail)) =
      loadRow types (rowOf types.length (4 :: joinCells encs)) := by
  have split := splitRfcJoin written some_ (joinLength encs)
  have vals : walSplitRow (4 :: joinCells encs) maxCols =
      (ps.take maxCols).map fun p => if p.2 = false ∧ p.1 = nullText then nullSentinel else p.1 := by
    rw [walSplitRow,splitLineRfc4180,split]
  rw [loadRow,rowOfCells (d := ([],false)) (by decide) vals,firstCellsTake few,opFieldsWritten written some_ ends]
  refine rowsAlike (fun p hp t => ?_) types
  have ne : p.1 ≠ nullSentinel := by
    rcases firstCellsMem hp with rfl | hp
    · exact emptySettled.1
    · exact settled p hp
  obtain ⟨f,quoted⟩ := p
  cases quoted with
  | true => simpa using datumPlain ne t
  | false =>
    by_cases null : f = nullText
    · simpa [null] using datumNull nullText t
    · simpa [null] using datumPlain ne t

/-- An escaped line that the strict splitter gives up on. -/
theorem brokenAlike {types : List ColType} (few : types.length ≤ maxCols) {rest : Bytes} (broken : splitLineRfc4180 rest = none)
    (settled : ∀ f ∈ (splitLineSimple rest maxCols).take types.length, Settled f ∧ f.head? ≠ some quote ∧ f ≠ nullText)
    {tail : Bytes} (ends : ∀ c ∈ tail, c = lf ∨ c = cr) :
    List.zipWith opDatum types (opFields true types.length (rest ++ tail)) = loadRow types (rowOf types.length (4 :: rest)) := by
  have room : types.length ≤ maxCols - 1 + 1 := few
  have vals : walSplitRow (4 :: rest) maxCols = (splitLineSimple rest maxCols).map id := by
    rw [walSplitRow,broken,List.map_id]
  rw [loadRow,rowOfCells (d := []) rfl vals,
    opFieldsPlain ends _ (maxCols - 1) rest room fun f hf => ⟨(settled f hf).1.1,fun _ => (settled f hf).2.1⟩]
  refine rowsAlike (fun f hf t => ?_) types
  have own : f ≠ nullSentinel ∧ f ≠ nullText := by
    rcases firstCellsMem hf with rfl | hf
    · exact emptySettled
    · exact ⟨(settled f hf).1.2,(settled f hf).2.2⟩
  simpa [own.2] using datumPlain own.1 t

theorem plainAlike {types : List ColType} (few : types.length ≤ maxCols) {line : Bytes} (head : line.head? ≠ some 4)
    (settled : ∀ f ∈ (splitLineSimple line maxCols).take types.length, Settled f) {tail : Bytes}
    (ends : ∀ c ∈ tail, c = lf ∨ c = cr) :
    List.zipWith opDatum types (opFields false types.length (line ++ tail)) = loadRow types (rowOf types.length line) := by
  have room : types.length ≤ maxCols - 1 + 1 := few
  rw [loadRow,rowOfCells (d := []) (by decide) (walSplitPlain head maxCols),
    opFieldsPlain ends _ (maxCols - 1) line room fun f hf => ⟨(settled f hf).1,fun h => by cases h⟩]
  refine rowsAlike (fun f hf t => ?_) types
  by_cases null : f = nullText
  · simpa [null] using datumNull nullText t
  · have ne : f ≠ nullSentinel := by
      rcases firstCellsMem hf with rfl | hf
      · exact emptySettled.1
      · exact (settled f hf).2
    simpa [null] using datumPlain ne t

/-- The row of a line, read from the line with whatever line ends stood after it. -/
theorem lineAlike {types : List ColType} (few : types.length ≤ maxCols) {line tail : Bytes}
    (ends : ∀ c ∈ tail, c = lf ∨ c = cr) (alike : FieldsAlike types.length line) :
    List.zipWith opDatum types (opFields (decide (line.head? = some 4)) types.length
      ((if line.head? = some 4 then line.drop 1 else line) ++ tail)) = loadRow types (rowOf types.length line) := by
  unfold FieldsAlike at alike
  split at alike
  · rename_i rest
    simp only [List.head?_cons,decide_true,if_true,List.drop_succ_cons,List.drop_zero]
    rcases alike with ⟨encs,ps,written,some_,rfl,settled⟩ | ⟨broken,settled⟩
    · exact writtenAlike few written some_ settled ends
    · exact brokenAlike few broken settled ends
  · rename_i plain
    have head : line.head? ≠ some 4 := by
      intro h
      cases line with
      | nil => cases h
      | cons c cs => cases h; exact plain cs rfl
    simp only [head,decide_false,if_false]
    exact plainAlike few head alike ends

/-! ### One record -/

theorem serviceRecord {p : Bytes} (service : isService p = true) (types : List ColType) (tbs : List Tombstone)
    (ncols off : Nat) : opRecord types p = none ∧ scanRecord tbs ncols (off,p) = some [] := by
  have ops := serviceBytes.mp service
  refine ⟨?_,(unscanned tbs [] ncols fun scanned => ops.elim scanned.2.2.1 scanned.2.2.2).1⟩
  rw [opRecord,if_pos ops]
  split <;> rfl

/-- Both scans give a fitting record the same row. -/
theorem dataRecord {types : List ColType} (few : types.length ≤ maxCols) {p : Bytes} (fits : DataFits types.length p)
    (data : isService p = false) {tbs : List Tombstone} {off : Nat} (free : stonesAt tbs off = []) :
    opRecord types p = some (loadRow types (rowOf types.length (lineOf p))) ∧
      scanRecord tbs types.length (off,p) = some [rowOf types.length (lineOf p)] := by
  have ops : ¬ (p.head? = some walOpDelete ∨ p.head? = some walOpUpdate) := fun h => by
    rw [serviceBytes.mpr h] at data
    cases data
  have shown := fits.shown
  have short := fits.short
  obtain ⟨tail,whole,ends⟩ := trimSplit (cstr p)
  have row := lineAlike few ends fits.alike
  cases p with
  | nil => cases shown
  | cons op body =>
    have notNul : op ≠ 0 := by
      rintro rfl
      cases shown
    have scanned : Scanned (op :: body) :=
      ⟨by simp,by unfold lineBuf at short; omega,fun h => ops (.inl h),fun h => ops (.inr h)⟩
    refine ⟨?_,?_⟩
    · have first : cstr (op :: body) = op :: cstr body := by simp [cstr,notNul]
      obtain ⟨cs,line⟩ : ∃ cs, lineOf (op :: body) = op :: cs := by
        rw [lineOf,first] at shown ⊢
        rw [first] at whole
        cases h : trimEnd (op :: cstr body) with
        | nil =>
          rw [h] at shown
          cases shown
        | cons c cs =>
          rw [h,List.cons_append,List.cons.injEq] at whole
          exact ⟨cs,by rw [whole.1]⟩
      rw [lineOf] at line
      have rest : cstr body = cs ++ tail := by
        rw [line,first,List.cons_append,List.cons.injEq] at whole
        exact whole.2
      have seen : cstr (if op = 4 then body else op :: body) = (if op = 4 then cs else op :: cs) ++ tail := by
        by_cases esc : op = 4
        · rw [if_pos esc,if_pos esc,rest]
        · rw [if_neg esc,if_neg esc,first,rest,List.cons_append]
      rw [lineOf,line] at row
      simp only [List.head?_cons,Option.some.injEq,List.drop_succ_cons,List.drop_zero] at row
      rw [opRecord,if_neg (Nat.not_le.mpr short),if_neg ops,lineOf,line,← row,← seen]
      simp only [List.head?_cons,Option.some.injEq,List.drop_succ_cons,List.drop_zero,walOpInsertEsc,decide_eq_true_eq]
    · rw [scanOwn scanned,fits.line,free]
      simp [shown]

/-! ### A log -/

/-- What both scans show of a log whose rows have no tombstones. -/
def shownRows (ncols : Nat) (ps : List Bytes) : List Row :=
  ps.flatMap fun p => if isService p then [] else [rowOf ncols (lineOf p)]

theorem shownAlike {types : List ColType} {ps : List Bytes}
    (each : ∀ p ∈ ps, isService p = false → opRecord types p = some (loadRow types (rowOf types.length (lineOf p)))) :
    ps.filterMap (opRecord types) = (shownRows types.length ps).map (loadRow types) := by
  induction ps with
  | nil => rfl
  | cons p ps ih =>
    have rest := ih fun q hq => each q (List.mem_cons_of_mem _ hq)
    rw [shownRows] at rest ⊢
    cases service : isService p with
    | true => rw [List.filterMap_cons_none (serviceRecord service types [] 0 0).1,rest,List.flatMap_cons,service]; rfl
    | false => rw [List.filterMap_cons_some (each p List.mem_cons_self service),rest,List.flatMap_cons,service]; rfl

/-- A clean log shows the same rows to both. -/
theorem cleanScans {types : List ColType} (few : types.length ≤ maxCols) {ps : List Bytes}
    (clean : CleanLog types.length ps) :
    loadTbl types.length (frame ps) = some (shownRows types.length ps) ∧
      (opScan types (frame ps)).flatten = (shownRows types.length ps).map (loadRow types) := by
  have row : ∀ r ∈ placed 0 ps, isService r.2 = false → _ := fun r hr data =>
    dataRecord few (clean.rows r hr data).1 data (clean.rows r hr data).2
  constructor
  · have each : ∀ r ∈ placed 0 ps, scanRecord (tombstones ps) types.length r =
        some (if isService r.2 then [] else [rowOf types.length (lineOf r.2)]) := fun r hr => by
      cases service : isService r.2 with
      | true => exact (serviceRecord service types _ _ r.1).2
      | false => exact (row r hr service).2
    rw [loadTbl,recordsFrame clean.small,scanRecords,mapMMap each,Option.map_some,← List.flatMap_def,shownRows]
    conv_rhs => rw [← placedRecords 0 ps,List.flatMap_map]
  · rw [opScanRows,recordsFrame clean.small]
    refine shownAlike fun p hp data => ?_
    obtain ⟨r,hr,rfl⟩ := List.mem_map.mp (placedRecords 0 ps ▸ hp)
    exact (row r hr data).1

end

theorem cleanEmpty (ncols : Nat) : CleanLog ncols [] where
  small := by simp [Framable]
  rows := by simp [placed]

theorem dataNoStone {p : Bytes} (data : isService p = false) : scanTombstone p = none := by
  have ops : ¬ (p.head? = some walOpDelete ∨ p.head? = some walOpUpdate) := fun h => by
    rw [serviceBytes.mpr h] at data
    cases data
  cases p with
  | nil => rfl
  | cons op body => exact noStone ⟨fun e => ops (.inl (congrArg some e)),fun e => ops (.inr (congrArg some e))⟩

theorem cleanAdd {ncols : Nat} {ps : List Bytes} {p : Bytes} (clean : CleanLog ncols ps) (fits : RecordFits ncols ps p) :
    CleanLog ncols (ps ++ [p]) := by
  obtain ⟨size,fits⟩ := fits
  have stones : ∀ off, stonesAt (tombstones (ps ++ [p])) off =
      stonesAt (tombstones ps) off ++ stonesAt (tombstones [p]) off := fun off => by
    rw [tombstones,List.filterMap_append,stonesAt,List.filter_append]
    rfl
  refine ⟨fun q hq => ?_,fun r hr data => ?_⟩
  · rcases List.mem_append.mp hq with old | new
    · exact clean.small q old
    · rwa [List.mem_singleton.mp new]
  · rw [placedAppend,List.mem_append] at hr
    rw [stones]
    cases service : isService p with
    | true =>
      rw [if_pos service] at fits
      rcases hr with old | new
      · obtain ⟨own,free⟩ := clean.rows r old data
        refine ⟨own,?_⟩
        rw [free,List.nil_append,stonesAt,List.filter_eq_nil_iff]
        intro t ht
        obtain ⟨q,hq,stone⟩ := List.mem_filterMap.mp ht
        rw [List.mem_singleton.mp hq] at stone
        simpa using (fits t stone r old data).symm
      · rw [placed,placed,List.mem_singleton] at new
        rw [new] at data
        rw [service] at data
        cases data
    | false =>
      rw [if_neg (by simp [service])] at fits
      have none_ : tombstones [p] = [] := by rw [tombstones,List.filterMap_cons_none (dataNoStone service)]; rfl
      rw [none_]
      rcases hr with old | new
      · obtain ⟨own,free⟩ := clean.rows r old data
        exact ⟨own,by rw [free]; rfl⟩
      · rw [placed,placed,List.mem_singleton,Nat.zero_add] at new
        subst new
        exact ⟨fits.1,by rw [fits.2]; rfl⟩

theorem cleanAppend {ncols : Nat} {ps qs : List Bytes} (clean : CleanLog ncols ps) (fit : RecordsFit ncols ps qs) :
    CleanLog ncols (ps ++ qs) := by
  induction qs generalizing ps with
  | nil => rwa [List.append_nil]
  | cons q qs ih =>
    have rest := ih (cleanAdd clean fit.1) fit.2
    rwa [List.append_assoc] at rest

/-- Compaction of a clean log copies its rows. -/
theorem cleanRecords {ncols : Nat} {ps : List Bytes} (clean : CleanLog ncols ps) :
    compactRecords ps = ps.filter fun p => !isService p := by
  have each : ∀ r ∈ placed 0 ps, compactRecord (ps.filterMap compactStone) r = if isService r.2 then [] else [r.2] := by
    rintro ⟨off,p⟩ hr
    cases service : isService p with
    | true =>
      have ops := serviceBytes.mp service
      exact (unscanned [] _ 0 fun scanned => ops.elim scanned.2.2.1 scanned.2.2.2).2
    | false =>
      obtain ⟨own,free⟩ := clean.rows _ hr service
      have short : p.length < lineBuf := own.short
      have ops : ¬ (p.head? = some walOpDelete ∨ p.head? = some walOpUpdate) := fun h => by
        rw [serviceBytes.mpr h] at service
        cases service
      have scanned : Scanned p := by
        refine ⟨?_,by unfold lineBuf at short; omega,fun h => ops (.inl h),fun h => ops (.inr h)⟩
        rintro rfl
        cases own.shown
      have at_ := @stonesAlike ps off fun q hq head long small same => by
        obtain ⟨-,t,stone,own⟩ := oddStone ⟨head,long,small⟩
        have mem : t ∈ stonesAt (tombstones ps) off :=
          List.mem_filter.mpr ⟨List.mem_filterMap.mpr ⟨q,hq,stone⟩,by simp [own,same]⟩
        rw [free] at mem
        cases mem
      rw [compactFree scanned (by rw [at_,free]; rfl),if_neg (by unfold lineBuf at short; unfold rowBufMax; omega)]
      rfl
  have split : ∀ qs : List Bytes,
      (qs.flatMap fun p => if isService p then [] else [p]) = qs.filter fun p => !isService p := by
    intro qs
    induction qs with
    | nil => rfl
    | cons q qs ih =>
      rw [List.flatMap_cons,ih,List.filter_cons]
      cases isService q <;> rfl
  rw [compactRecords,List.flatMap_def,List.map_congr_left each,← List.flatMap_def,← split]
  conv_rhs => rw [← placedRecords 0 ps,List.flatMap_map]

theorem cleanCompact {ncols : Nat} {ps : List Bytes} (clean : CleanLog ncols ps) : CleanLog ncols (compactRecords ps) := by
  rw [cleanRecords clean]
  have stones : tombstones (ps.filter fun p => !isService p) = [] :=
    List.filterMap_eq_nil_iff.mpr fun p hp => dataNoStone (by simpa using (List.mem_filter.mp hp).2)
  refine ⟨fun p hp => clean.small p (List.mem_filter.mp hp).1,fun r hr data => ⟨?_,by rw [stones]; rfl⟩⟩
  have mem : r.2 ∈ ps.filter fun p => !isService p := by
    rw [← placedRecords 0 (ps.filter fun p => !isService p)]
    exact List.mem_map_of_mem hr
  obtain ⟨s,hs,same⟩ := List.mem_map.mp (placedRecords 0 ps ▸ (List.mem_filter.mp mem).1)
  exact same ▸ (clean.rows s hs (same ▸ data)).1

/-! ### Any calls -/

inductive TableCall
  | write (op : LogOp)
  | compact

section
variable [Floats]

def TableCall.run (build : Build) (file : Bytes) : TableCall → Option Bytes
  | .write op => op.run build file
  | .compact => some (tableCompact file)

def runTable (build : Build) (file : Bytes) (calls : List TableCall) : Option Bytes :=
  calls.foldlM (TableCall.run build) file

/-- All records the call writes fit. -/
def CallFits (build : Build) (ncols : Nat) (file : Bytes) : TableCall → Prop
  | .write op => ∀ qs, op.records build = some qs → RecordsFit ncols (records file) qs
  | .compact => True

/-- Every call of a run fits the log it is made on. -/
def CallsFit (build : Build) (ncols : Nat) : Bytes → List TableCall → Prop
  | _, [] => True
  | file, call :: calls =>
    CallFits build ncols file call ∧ ∀ next, call.run build file = some next → CallsFit build ncols next calls

theorem callClean {build : Build} {ncols : Nat} {ps : List Bytes} {call : TableCall} {file : Bytes}
    (clean : CleanLog ncols ps) (fits : CallFits build ncols (frame ps) call)
    (ran : call.run build (frame ps) = some file) :
    ∃ qs, file = frame qs ∧ CleanLog ncols qs := by
  cases call with
  | write op =>
    rw [TableCall.run,logOpRecords] at ran
    obtain ⟨qs,wrote,rfl⟩ := Option.map_eq_some_iff.mp ran
    have fit := fits qs wrote
    rw [recordsFrame clean.small] at fit
    exact ⟨ps ++ qs,rfl,cleanAppend clean fit⟩
  | compact =>
    cases ran
    exact ⟨compactRecords ps,by rw [tableCompact,recordsFrame clean.small],cleanCompact clean⟩

theorem runClean {build : Build} {ncols : Nat} {ps : List Bytes} {calls before : List TableCall} {file : Bytes}
    (clean : CleanLog ncols ps) (fit : CallsFit build ncols (frame ps) calls) (part : before <+: calls)
    (ran : runTable build (frame ps) before = some file) : ∃ qs, file = frame qs ∧ CleanLog ncols qs := by
  induction before generalizing ps calls with
  | nil =>
    cases ran
    exact ⟨ps,rfl,clean⟩
  | cons call before ih =>
    obtain ⟨after,rfl⟩ := part
    rw [runTable,List.foldlM_cons] at ran
    obtain ⟨next,one,ran⟩ := Option.bind_eq_some_iff.mp ran
    obtain ⟨qs,rfl,clean'⟩ := callClean clean fit.1 one
    exact ih clean' (fit.2 _ one) ⟨after,rfl⟩ ran

/-- In every run of calls that fit, the query engine's scan and the gateway's show the same rows at every point. -/
theorem scansAgree (build : Build) {types : List ColType} (few : types.length ≤ maxCols) {calls : List TableCall}
    (fit : CallsFit build types.length [] calls) {before : List TableCall} (part : before <+: calls) {file : Bytes}
    (ran : runTable build [] before = some file) :
    ∃ rows, loadTbl types.length file = some rows ∧ (opScan types file).flatten = rows.map (loadRow types) := by
  obtain ⟨qs,rfl,clean⟩ := @runClean _ build _ [] calls before file (cleanEmpty types.length) fit part ran
  exact ⟨_,cleanScans few clean⟩

end

/-- Two rows, a DELETE of an offset no row has, and compaction. -/
def keepCalls : List TableCall := [.write (.append sevenEight),.write (.delete 1),.compact]

theorem sevenEightFits : RecordsFit 1 [] [ascii "7\n",ascii "8\n"] := by
  have cells : ∀ f ∈ [ascii "7"], Settled f := List.forall_mem_singleton.mpr (by decide)
  have cells' : ∀ f ∈ [ascii "8"], Settled f := List.forall_mem_singleton.mpr (by decide)
  exact ⟨⟨by decide,⟨by decide,by decide,by decide,cells⟩,rfl⟩,
    ⟨by decide,⟨by decide,by decide,by decide,cells'⟩,rfl⟩,trivial⟩

theorem keepCallsFit : @CallsFit wholeFloats .rows 1 [] keepCalls := by
  refine ⟨fun qs wrote => ?_,fun next ran => ⟨fun qs wrote => ?_,fun _ _ => ⟨trivial,fun _ _ => trivial⟩⟩⟩
  · cases Option.some.inj (wrote.symm.trans (by decide : _ = some [ascii "7\n",ascii "8\n"]))
    exact sevenEightFits
  · cases Option.some.inj (ran.symm.trans (by decide : _ = some (frame [ascii "7\n",ascii "8\n"])))
    cases Option.some.inj (wrote.symm.trans (rfl : _ = some [deleteRecord 1]))
    refine ⟨⟨by decide,?_⟩,trivial⟩
    rw [if_pos (by decide)]
    intro t stone r hr _
    cases Option.some.inj (stone.symm.trans (by decide : _ = some ⟨1,walOpDelete,none⟩))
    revert r
    decide

theorem scansAgreeKeepCalls : ∃ rows, loadTbl 1 (frame [ascii "7\n",ascii "8\n"]) = some rows ∧
    (@opScan wholeFloats [.int64] (frame [ascii "7\n",ascii "8\n"])).flatten = rows.map (@loadRow wholeFloats [.int64]) :=
  @scansAgree wholeFloats .rows [.int64] (by decide) keepCalls keepCallsFit keepCalls (List.prefix_refl _) _ (by decide)

/-- The gateway hides a deleted row and the query engine still shows it. -/
theorem scansDiffer : ∃ file,
    @runTable wholeFloats .rows [] [.write (.append sevenEight),.write (.delete 0)] = some file ∧
      loadTbl 1 file = some [[ascii "8"]] ∧ @opScan wholeFloats [.int64] file = [[[.int 7],[.int 8]]] :=
  ⟨frame [ascii "7\n",ascii "8\n",deleteRecord 0],by decide,by decide,by decide⟩

end Napastak.Store
