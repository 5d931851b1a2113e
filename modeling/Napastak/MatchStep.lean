import Mathlib.Data.Sym.Sym2
import Napastak.Lib.Pairs
import Napastak.NormName
import Napastak.Pipeline
import Napastak.Scd2
import Napastak.Similarity

/-! `run_match_step`: the pairs of candidates that a chain of rules holds for the same. What the engine answers to
the candidate query is a parameter. -/
namespace Napastak.MatchStep
open Query Store Similarity Pairs
open Json (JVal jsonGet jsonParse)
open Scheduler (jsonStr)
open Scd2 (Rs colIndex cellAt joinCut)

/-- The texts of the step, an unset one being empty. -/
structure PipelineStep where
  sql : Bytes
  matchRules : Bytes
  output : Bytes

inductive Error
  | sqlRequired | rulesRequired | targetRequired
  | parse (message : Bytes) | exec (message : Bytes)
  | truncated | notArray
  | idMissing (rule : Nat) (col : Bytes)
  /-- the reader of the rules has not come to an end -/
  | reading
  deriving DecidableEq, Repr

/-- The engine's answer to the candidate query. -/
inductive Answer
  | rejected (message : Bytes)
  | failed (message : Bytes)
  | rows (cand : Rs)

structure Rule (F : Type) where
  ruleName : Bytes
  idIdx : Nat
  metricFunction : Bytes
  operator : Bytes
  threshold : F
  normalize : Bytes
  scan : List (Option Nat)
  test : List (Option Nat)
  deriving DecidableEq

section
variable {F : Type}

/-- `json_str`, up to a zero byte. -/
def str (v : Option (JVal F)) (dflt : Bytes) : Bytes := cstr (jsonStr v dflt)

def jsonDbl (v : Option (JVal F)) (dflt : F) : F :=
  match v with
  | some (.number d) => d
  | _ => dflt

def maxCols : Nat := 32

def indices (names : List Bytes) (items : List (JVal F)) : List (Option Nat) :=
  (items.take maxCols).map fun v => colIndex names (str (some v) [])

variable [MatchDoubles F]

/-- Rule number `ri`; none when it is skipped. -/
def readRule (names : List Bytes) (ri : Nat) (rule : JVal F) : Except Error (Option (Rule F)) :=
  let idCol := str (jsonGet rule (ascii "id_column")) []
  match jsonGet rule (ascii "scan_columns"), jsonGet rule (ascii "test_columns") with
  | some (.array scan), some (.array test) =>
    if idCol = [] then .ok none
    else
      match colIndex names idCol with
      | none => .error (.idMissing ri idCol)
      | some idIdx => .ok (some {
          ruleName := str (jsonGet rule (ascii "rule_name")) []
          idIdx
          metricFunction := str (jsonGet rule (ascii "metric_function")) (ascii "word_similarity")
          operator := str (jsonGet rule (ascii "operator")) (ascii ">=")
          threshold := jsonDbl (jsonGet rule (ascii "threshold")) MatchDoubles.eightTenths
          normalize := str (jsonGet rule (ascii "normalize")) (ascii "none")
          scan := indices names scan
          test := indices names test })
  | _, _ => .ok none

variable (rule : Rule F)

/-- `sbuf`, empty for a row without a key. -/
def Rule.scanKey (row : Row) : Bytes :=
  if rule.scan.any fun k => cellAt row k = [] ∨ cellAt row k = nullSentinel then []
  else joinCut 0x1f 1023 (rule.scan.map (cellAt row))

def Rule.normalized (v : Bytes) : Bytes :=
  if strcasecmp rule.normalize (ascii "name") = 0 then NormName.qeNormalizeName v
  else if strcasecmp rule.normalize (ascii "inn") = 0 then qeNormalizeInn v
  else v

/-- `tbuf`. -/
def Rule.testStr (row : Row) : Bytes := joinCut 32 1023 (rule.test.map fun k => rule.normalized (cellAt row k))

def Rule.metric (a b : Bytes) : F :=
  if strcasecmp rule.metricFunction (ascii "jaro_winkler") = 0 then qeJaroWinkler a b
  -- the texts of two buffers are too short for the distance to overflow
  else if strcasecmp rule.metricFunction (ascii "levenshtein") = 0 then Doubles.ofInt ((Levenshtein.qeLevenshtein a b).getD 0)
  else qeWordSimilarity a b

def Rule.passes (metric : F) : Bool :=
  if rule.operator = ascii ">=" then Doubles.lt rule.threshold metric || Doubles.eq metric rule.threshold
  else if rule.operator = ascii "<=" then Doubles.lt metric rule.threshold || Doubles.eq metric rule.threshold
  else if rule.operator = ascii ">" then Doubles.lt rule.threshold metric
  else if rule.operator = ascii "<" then Doubles.lt metric rule.threshold
  else false

structure Prepared where
  row : Row
  key : Bytes
  text : Bytes

def Rule.prepare (row : Row) : Prepared := ⟨row,rule.scanKey row,rule.testStr row⟩

def Rule.line (a b : Row) (metric : F) : Row :=
  [a.getD rule.idIdx [],b.getD rule.idIdx [],rule.ruleName,MatchDoubles.fixed6 metric]

/-- The inner loop. -/
def Rule.against (x : Prepared) (out : ResultSet) (y : Prepared) : ResultSet :=
  if x.key ≠ y.key then out
  else
    let metric := rule.metric x.text y.text
    if rule.passes metric then rsAdd out (rule.line x.row y.row metric) else out

def Rule.run (rule : Rule F) (out : ResultSet) : List Prepared → ResultSet
  | [] => out
  | x :: xs => rule.run (if x.key = [] then out else xs.foldl (rule.against x) out) xs

def runRules (cand : Rs) : Nat → List (JVal F) → ResultSet → Except Error ResultSet
  | _, [], out => .ok out
  | ri, item :: items, out =>
    match readRule cand.names ri item with
    | .error e => .error e
    | .ok none => runRules cand (ri + 1) items out
    | .ok (some rule) => runRules cand (ri + 1) items (rule.run out (cand.rows.map rule.prepare))

end

/-- The result is what goes to the target table; the reader of the rules has `n` steps. -/
def runMatchStep (F : Type) [MatchDoubles F] (query : Bytes → Answer) (n : Nat) (st : PipelineStep) : Except Error ResultSet :=
  if st.sql = [] then .error .sqlRequired
  else if st.matchRules = [] then .error .rulesRequired
  else if st.output = [] then .error .targetRequired
  else
    match query st.sql with
    | .rejected message => .error (.parse message)
    | .failed message => .error (.exec message)
    | .rows cand =>
      if cand.truncated then .error .truncated
      else if cand.rows = [] then .ok ⟨[],false⟩
      else
        match (jsonParse n st.matchRules : Option (JVal F)) with
        | none => .error .reading
        | some (.array rules) => runRules cand 0 rules ⟨[],false⟩
        | some _ => .error .notArray

/-! ### What a rule is to find -/

section
variable {F : Type} [MatchDoubles F]

section
variable (rule : Rule F)

/-- The key of a row is the text of its scan columns; none where one of them is missing or NULL. -/
def Rule.key (row : Row) : Option Bytes :=
  if rule.scan = [] ∨ ∃ k ∈ rule.scan, cellAt row k = [] ∨ cellAt row k = nullSentinel then none
  else some (List.intercalate [0x1f] (rule.scan.map (cellAt row)))

def Rule.text (row : Row) : Bytes := List.intercalate [32] (rule.test.map fun k => rule.normalized (cellAt row k))

def Rule.similar (a b : Row) : Bool := rule.passes (rule.metric (rule.text a) (rule.text b))

/-- The places of two different rows that have the same key and pass. -/
def Rule.Matched (rows : List Row) (i j : Nat) : Prop :=
  i < j ∧ ∃ a b key, rows[i]? = some a ∧ rows[j]? = some b ∧ rule.key a = some key ∧ rule.key b = some key ∧ rule.similar a b = true

def Rule.hits (a b : Row) : Bool := (rule.key a).isSome && rule.key a = rule.key b && rule.similar a b

def Rule.found (rows : List Row) : List (Nat × Nat) :=
  (pairs (List.range rows.length)).filter fun p => rule.hits (rows.getD p.1 []) (rows.getD p.2 [])

def Rule.lineOf (a b : Row) : Row := rule.line a b (rule.metric (rule.text a) (rule.text b))

def Rule.lines (rows : List Row) : List Row :=
  (rule.found rows).map fun p => rule.lineOf (rows.getD p.1 []) (rows.getD p.2 [])

theorem foundNodup (rows : List Row) : (rule.found rows).Nodup := (pairsNodup List.nodup_range).filter _

theorem foundIff (rows : List Row) (i j : Nat) : (i,j) ∈ rule.found rows ↔ rule.Matched rows i j := by
  rw [Rule.found,List.mem_filter,memPairs List.pairwise_lt_range,List.mem_range,List.mem_range,Rule.hits,Bool.and_eq_true,
    Bool.and_eq_true,Option.isSome_iff_exists,decide_eq_true_eq]
  constructor
  · rintro ⟨⟨i_,j_,less⟩,⟨⟨key,is⟩,same⟩,similar⟩
    rw [List.getD_eq_getElem?_getD,List.getElem?_eq_getElem i_,Option.getD_some] at is same similar
    rw [List.getD_eq_getElem?_getD,List.getElem?_eq_getElem j_,Option.getD_some] at same similar
    exact ⟨less,rows[i],rows[j],key,List.getElem?_eq_getElem i_,List.getElem?_eq_getElem j_,is,same ▸ is,similar⟩
  · rintro ⟨less,a,b,key,a_,b_,is,is',similar⟩
    have i_ := (List.getElem?_eq_some_iff.mp a_).1
    have j_ := (List.getElem?_eq_some_iff.mp b_).1
    rw [List.getD_eq_getElem?_getD,List.getD_eq_getElem?_getD,a_,b_,Option.getD_some,Option.getD_some]
    exact ⟨⟨i_,j_,less⟩,⟨⟨key,is⟩,is.trans is'.symm⟩,similar⟩

theorem linesPairs (rows : List Row) :
    rule.lines rows = (pairs rows).filterMap fun p => if rule.hits p.1 p.2 then some (rule.lineOf p.1 p.2) else none := by
  have rows_ : rows = (List.range rows.length).map (rows.getD · []) := by
    refine List.ext_getElem (by simp) fun k k_ _ => ?_
    rw [List.getElem_map,List.getElem_range,List.getD_eq_getElem?_getD,List.getElem?_eq_getElem k_,Option.getD_some]
  conv_rhs => rw [rows_,pairsMap,List.filterMap_map]
  rw [Rule.lines,Rule.found,← List.filterMap_eq_map,← List.filterMap_eq_filter,List.filterMap_filterMap]
  refine List.filterMap_congr fun p _ => ?_
  simp only [Function.comp_apply,Prod.map_fst,Prod.map_snd,Option.guard]
  split <;> rfl

/-! ### What it finds -/

/-- Keys and texts of the rows fit in the buffers. -/
def Rule.Short (rows : List Row) : Prop :=
  ∀ row ∈ rows, (∀ key, rule.key row = some key → key.length ≤ 1023) ∧ (rule.text row).length ≤ 1023

omit [MatchDoubles F] in
theorem keySome {row : Row} {key : Bytes} (is : rule.key row = some key) : key ≠ [] := by
  rw [Rule.key] at is
  split at is
  · cases is
  · rename_i whole
    rw [not_or] at whole
    obtain ⟨k,ks,cols⟩ := List.exists_cons_of_ne_nil whole.1
    cases is
    have first : cellAt row k ≠ [] := fun empty => whole.2 ⟨k,cols ▸ List.mem_cons_self,.inl empty⟩
    rw [cols,List.map_cons]
    cases ks with
    | nil => rwa [List.map_nil,List.intercalate_singleton]
    | cons l ks =>
      rw [List.map_cons,List.intercalate_cons_cons]
      exact fun empty => first (List.append_eq_nil_iff.mp (List.append_eq_nil_iff.mp empty).1).1

omit [MatchDoubles F] in
theorem scanKeyIs {row : Row} (short : ∀ key, rule.key row = some key → key.length ≤ 1023) :
    rule.scanKey row = (rule.key row).getD [] := by
  rw [Rule.scanKey]
  split
  · rename_i missing
    have none_ : rule.key row = none := if_pos (.inr (by simpa using missing))
    rw [none_]
    rfl
  · rename_i whole
    by_cases cols : rule.scan = []
    · rw [show rule.key row = none from if_pos (.inl cols),cols]
      rfl
    · have is : rule.key row = some (List.intercalate [0x1f] (rule.scan.map (cellAt row))) :=
        if_neg (not_or.mpr ⟨cols,by simpa using whole⟩)
      rw [is,Option.getD_some,joinCut,List.take_of_length_le (short _ is)]

omit [MatchDoubles F] in
theorem testStrIs {row : Row} (short : (rule.text row).length ≤ 1023) : rule.testStr row = rule.text row :=
  List.take_of_length_le short

def Rule.adds (p : Prepared × Prepared) : Option Row :=
  if p.1.key = [] ∨ p.1.key ≠ p.2.key then none
  else if rule.passes (rule.metric p.1.text p.2.text) then some (rule.line p.1.row p.2.row (rule.metric p.1.text p.2.text)) else none

theorem againstAdds {x : Prepared} (some_ : x.key ≠ []) (out : ResultSet) (ys : List Prepared) :
    ys.foldl (rule.against x) out = ((ys.map (x,·)).filterMap rule.adds).foldl rsAdd out := by
  induction ys generalizing out with
  | nil => rfl
  | cons y ys ih =>
    rw [List.foldl_cons,ih,List.map_cons,List.filterMap_cons,Rule.against,Rule.adds]
    by_cases other : x.key ≠ y.key
    · rw [if_pos other,if_pos (.inr other)]
    · rw [if_neg other,if_neg (not_or.mpr ⟨some_,other⟩)]
      dsimp only
      split <;> rfl

/-- The two loops add what every pair adds. -/
theorem runAdds (out : ResultSet) (xs : List Prepared) : rule.run out xs = ((pairs xs).filterMap rule.adds).foldl rsAdd out := by
  induction xs generalizing out with
  | nil => rfl
  | cons x xs ih =>
    rw [Rule.run,ih,pairs,List.filterMap_append,List.foldl_append]
    by_cases empty : x.key = []
    · have nothing : (xs.map (x,·)).filterMap rule.adds = [] := by
        rw [List.filterMap_map]
        exact List.filterMap_eq_nil_iff.mpr fun y _ => if_pos (.inl empty)
      rw [if_pos empty,nothing]
      rfl
    · rw [if_neg empty,againstAdds rule empty]

theorem runLines {rows : List Row} (short : rule.Short rows) (out : ResultSet) :
    rule.run out (rows.map rule.prepare) = (rule.lines rows).foldl rsAdd out := by
  rw [runAdds,linesPairs,pairsMap,List.filterMap_map]
  refine congrArg (List.foldl rsAdd out) (List.filterMap_congr fun p mem => ?_)
  have left := short p.1 (memLeft mem)
  have right := short p.2 (memRight mem)
  rw [Function.comp_apply,Prod.map_apply,Rule.adds,Rule.prepare,Rule.prepare,Rule.hits]
  dsimp only
  rw [scanKeyIs rule left.1,scanKeyIs rule right.1,testStrIs rule left.2,testStrIs rule right.2]
  cases is : rule.key p.1 with
  | none => rfl
  | some key =>
    have key_ := keySome rule is
    cases is' : rule.key p.2 with
    | none => rw [if_pos (.inr key_)]; rfl
    | some key' =>
      rw [Option.getD_some,Option.getD_some]
      by_cases same : key = key'
      · subst same
        rw [if_neg (not_or.mpr ⟨key_,fun other => other rfl⟩)]
        simp only [Option.isSome_some,decide_true,Bool.true_and]
        rfl
      · rw [if_pos (.inr same)]
        simp [same]

theorem addAll {lines : List Row} {rs : ResultSet} (room : rs.rows.length + lines.length ≤ maxRsRows) :
    lines.foldl rsAdd rs = {rs with rows := rs.rows ++ lines} := by
  induction lines generalizing rs with
  | nil => rw [List.foldl_nil,List.append_nil]
  | cons line lines ih =>
    rw [List.length_cons] at room
    rw [List.foldl_cons,rsAdd,if_neg (by omega),ih (by rw [List.length_append,List.length_singleton]; omega),List.append_assoc,
      List.singleton_append]

end

def readRules (names : List Bytes) : Nat → List (JVal F) → Except Error (List (Rule F))
  | _, [] => .ok []
  | ri, item :: items =>
    match readRule names ri item with
    | .error e => .error e
    | .ok none => readRules names (ri + 1) items
    | .ok (some rule) => (readRules names (ri + 1) items).map (rule :: ·)

def allLines (rules : List (Rule F)) (rows : List Row) : List Row := rules.flatMap (Rule.lines · rows)

theorem runRulesLines {cand : Rs} {items : List (JVal F)} {ri : Nat} {rules : List (Rule F)} (read : readRules cand.names ri items = .ok rules)
    (short : ∀ rule ∈ rules, rule.Short cand.rows) (out : ResultSet) :
    runRules cand ri items out = .ok ((allLines rules cand.rows).foldl rsAdd out) := by
  induction items generalizing ri rules out with
  | nil => cases read; rfl
  | cons item items ih =>
    rw [readRules] at read
    rw [runRules]
    cases first : readRule cand.names ri item with
    | error e => rw [first] at read; cases read
    | ok rule =>
      rw [first] at read
      cases rule with
      | none => exact ih read short out
      | some rule =>
        obtain ⟨rest,more,rfl⟩ : ∃ rest, readRules cand.names (ri + 1) items = .ok rest ∧ rule :: rest = rules := by
          cases more : readRules cand.names (ri + 1) items with
          | error e => rw [more] at read; cases read
          | ok rest => rw [more] at read; cases read; exact ⟨rest,rfl,rfl⟩
        dsimp only
        rw [ih more (fun rule mem => short rule (List.mem_cons_of_mem _ mem)),runLines rule (short rule List.mem_cons_self),allLines,
          allLines,List.flatMap_cons,List.foldl_append]

/-- The step as far as its result: the candidates and the rules that it gets. -/
structure Ready (F : Type) [MatchDoubles F] (query : Bytes → Answer) (n : Nat) (st : PipelineStep) (cand : Rs) (rules : List (Rule F)) :
    Prop where
  sql : st.sql ≠ []
  matchRules : st.matchRules ≠ []
  output : st.output ≠ []
  asked : query st.sql = .rows cand
  whole : cand.truncated = false
  read : cand.rows ≠ [] → ∃ items, (jsonParse n st.matchRules : Option (JVal F)) = some (.array items) ∧
    readRules cand.names 0 items = .ok rules

/-- Keys and texts fit in the buffers, and the pairs in the result. -/
structure Fits (rules : List (Rule F)) (rows : List Row) : Prop where
  short : ∀ rule ∈ rules, rule.Short rows
  room : (rules.map fun rule => (rule.found rows).length).sum ≤ maxRsRows

theorem runReady {query : Bytes → Answer} {n : Nat} {st : PipelineStep} {cand : Rs} {rules : List (Rule F)}
    (ready : Ready F query n st cand rules) (fits : Fits rules cand.rows) :
    runMatchStep F query n st = .ok ⟨allLines rules cand.rows,false⟩ := by
  rw [runMatchStep,if_neg ready.sql,if_neg ready.matchRules,if_neg ready.output,ready.asked]
  dsimp only
  rw [ready.whole,if_neg Bool.false_ne_true]
  by_cases empty : cand.rows = []
  · have nothing : allLines rules [] = [] := List.flatMap_eq_nil_iff.mpr fun _ _ => rfl
    rw [if_pos empty,empty,nothing]
  · obtain ⟨items,parsed,read⟩ := ready.read empty
    have length : (allLines rules cand.rows).length = (rules.map fun rule => (rule.found cand.rows).length).sum := by
      rw [allLines,List.length_flatMap]
      exact congrArg List.sum (List.map_congr_left fun rule _ => List.length_map _)
    rw [if_neg empty,parsed]
    dsimp only
    rw [runRulesLines read fits.short,addAll (by rw [length,List.length_nil,Nat.zero_add]; exact fits.room),List.nil_append]

theorem runRulesRead {cand : Rs} {items : List (JVal F)} {ri : Nat} {out res : ResultSet} (ran : runRules cand ri items out = .ok res) :
    ∃ rules, readRules cand.names ri items = .ok rules := by
  induction items generalizing ri out with
  | nil => exact ⟨[],rfl⟩
  | cons item items ih =>
    rw [runRules] at ran
    rw [readRules]
    cases first : readRule cand.names ri item with
    | error e => rw [first] at ran; cases ran
    | ok rule =>
      rw [first] at ran
      obtain ⟨rules,read⟩ : ∃ rules, readRules cand.names (ri + 1) items = .ok rules := by cases rule <;> exact ih ran
      cases rule with
      | none => exact ⟨rules,read⟩
      | some rule => exact ⟨rule :: rules,by dsimp only; rw [read]; rfl⟩

/-- Every step with a result had its texts, its candidates and its rules. -/
theorem ranReady {query : Bytes → Answer} {n : Nat} {st : PipelineStep} {out : ResultSet} (ran : runMatchStep F query n st = .ok out) :
    ∃ cand rules, Ready F query n st cand rules := by
  unfold runMatchStep at ran
  split at ran
  · cases ran
  split at ran
  · cases ran
  split at ran
  · cases ran
  rename_i sql matchRules output
  cases asked : query st.sql with
  | rejected message => rw [asked] at ran; cases ran
  | failed message => rw [asked] at ran; cases ran
  | rows cand =>
    rw [asked] at ran
    dsimp only at ran
    split at ran
    · cases ran
    rename_i whole
    by_cases empty : cand.rows = []
    · exact ⟨cand,[],sql,matchRules,output,asked,Bool.not_eq_true _ ▸ whole,fun some_ => absurd empty some_⟩
    rw [if_neg empty] at ran
    split at ran
    · cases ran
    · rename_i items parsed
      obtain ⟨rules,read⟩ := runRulesRead ran
      exact ⟨cand,rules,sql,matchRules,output,asked,Bool.not_eq_true _ ▸ whole,fun _ => ⟨items,parsed,read⟩⟩
    · cases ran

/-! ### The order of the rows -/

def Rule.BySimilarity (rule : Rule F) : Prop :=
  strcasecmp rule.metricFunction (ascii "jaro_winkler") ≠ 0 ∧ strcasecmp rule.metricFunction (ascii "levenshtein") ≠ 0

/-- Where the rule takes `word_similarity`, it is the same both ways for any two rows of one key. -/
def Rule.Even (rule : Rule F) (rows : List Row) : Prop :=
  rule.BySimilarity → ∀ a ∈ rows, ∀ b ∈ rows, rule.key a = rule.key b →
    (qeWordSimilarity (rule.text a) (rule.text b) : F) = qeWordSimilarity (rule.text b) (rule.text a)

def unordered (line : Row) : Sym2 Bytes × List Bytes := (s(line.getD 0 [],line.getD 1 []),line.drop 2)

section
variable {rule : Rule F} {rows rows' : List Row}

theorem metricFlip (short : rule.Short rows) (even : rule.Even rows) {a b : Row} (a_ : a ∈ rows) (b_ : b ∈ rows)
    (same : rule.key a = rule.key b) : rule.metric (rule.text b) (rule.text a) = rule.metric (rule.text a) (rule.text b) := by
  have left := (short a a_).2
  have right := (short b b_).2
  rw [Rule.metric,Rule.metric]
  by_cases jaro : strcasecmp rule.metricFunction (ascii "jaro_winkler") = 0
  · rw [if_pos jaro,if_pos jaro,qeJaroWinklerFlip]
  rw [if_neg jaro,if_neg jaro]
  by_cases edit : strcasecmp rule.metricFunction (ascii "levenshtein") = 0
  · rw [if_pos edit,if_pos edit,levenshteinShort (by omega) (by omega),levenshteinShort (by omega) (by omega),EditDistance.distanceComm]
  · rw [if_neg edit,if_neg edit,even ⟨jaro,edit⟩ a a_ b b_ same]

theorem linesPerm (short : rule.Short rows) (even : rule.Even rows) (perm : rows.Perm rows') :
    ((rule.lines rows).map unordered).Perm ((rule.lines rows').map unordered) := by
  rw [linesPairs,linesPairs,List.map_filterMap,List.map_filterMap]
  refine pairsPerm perm fun a a_ b b_ => ?_
  dsimp only
  by_cases same : rule.key a = rule.key b
  · have metric := metricFlip short even a_ b_ same
    have hits : rule.hits b a = rule.hits a b := by rw [Rule.hits,Rule.hits,Rule.similar,Rule.similar,same,metric]
    have line : unordered (rule.lineOf b a) = unordered (rule.lineOf a b) := by
      rw [Rule.lineOf,Rule.lineOf,metric]
      exact congrArg (·,_) Sym2.eq_swap
    rw [hits]
    split
    · exact congrArg some line.symm
    · rfl
  · have none_ : rule.hits a b = false := by simp [Rule.hits,same]
    have none_' : rule.hits b a = false := by simp [Rule.hits,Ne.symm same]
    rw [none_,none_']
    rfl

theorem fitsPerm {rules : List (Rule F)} (fits : Fits rules rows) (even : ∀ rule ∈ rules, rule.Even rows) (perm : rows.Perm rows') :
    Fits rules rows' where
  short rule mem row row_ := fits.short rule mem row (perm.mem_iff.mpr row_)
  room := by
    have length (rule : Rule F) (rows : List Row) : (rule.found rows).length = ((rule.lines rows).map unordered).length := by
      rw [List.length_map,Rule.lines,List.length_map]
    have same : rules.map (fun rule => (rule.found rows').length) = rules.map fun rule => (rule.found rows).length :=
      List.map_congr_left fun rule mem => by rw [length,length,(linesPerm (fits.short rule mem) (even rule mem) perm).length_eq]
    exact same ▸ fits.room

end

/-- The step gives every pair of places once, rule by rule; other orders of the rows change the order of the lines and of their pairs
only, where `word_similarity` is the same both ways. -/
theorem everyPairOnce {query : Bytes → Answer} {n : Nat} {st : PipelineStep} {cand : Rs} {rules : List (Rule F)}
    (ready : Ready F query n st cand rules) (fits : Fits rules cand.rows) :
    ∃ out, runMatchStep F query n st = .ok out ∧ out.truncated = false ∧
      out.rows = rules.flatMap (fun rule => (rule.found cand.rows).map fun p =>
        rule.lineOf (cand.rows.getD p.1 []) (cand.rows.getD p.2 [])) ∧
      (∀ rule ∈ rules, (rule.found cand.rows).Nodup ∧ ∀ i j, (i,j) ∈ rule.found cand.rows ↔ rule.Matched cand.rows i j) ∧
      ((∀ rule ∈ rules, rule.Even cand.rows) → ∀ query' rows', cand.rows.Perm rows' →
        query' st.sql = .rows {cand with rows := rows'} →
        ∃ out', runMatchStep F query' n st = .ok out' ∧ (out.rows.map unordered).Perm (out'.rows.map unordered)) := by
  refine ⟨⟨allLines rules cand.rows,false⟩,runReady ready fits,rfl,rfl,fun rule _ => ⟨foundNodup rule _,foundIff rule _⟩,
    fun even query' rows' perm asked => ?_⟩
  have ready' : Ready F query' n st {cand with rows := rows'} rules :=
    ⟨ready.sql,ready.matchRules,ready.output,asked,ready.whole,fun some_ => ready.read fun empty => some_ (empty ▸ perm).nil_eq.symm⟩
  refine ⟨_,runReady ready' (fitsPerm fits even perm),?_⟩
  rw [allLines,allLines,List.map_flatMap,List.map_flatMap]
  exact List.Perm.flatMap_left rules fun rule mem => linesPerm (fits.short rule mem) (even rule mem) perm

end

/-! ### Two texts of one key -/

theorem ranOk {α : Type} {r : Except Error α} {a : α} (is : r.toOption = some a) : r = .ok a := by
  cases r with
  | error e => cases is
  | ok b => cases is; rfl

def rat6 (q : Rat) : Bytes :=
  let n := (q * 1000000 + 1 / 2).floor.toNat
  ascii (toString (n / 1000000)) ++ 46 :: ((List.range 6).reverse.map fun k => UInt8.ofNat (48 + n / 10 ^ k % 10))

/-- Fractions, as the doubles of a run whose texts hold whole numbers and whose metrics are no negative numbers. -/
instance : MatchDoubles Rat where
  lt a b := decide (a < b)
  eq a b := decide (a = b)
  zero := 0
  ofInt n := n
  strtod s := (Doubles.strtod s : Option (Int × Bytes)).map fun r => ((r.1 : Rat),r.2)
  fmt := rat6
  toLong q := Int64.ofInt (q.num.tdiv q.den)
  inLong q := decide (-9200000000000000000 ≤ q ∧ q ≤ 9200000000000000000)
  printG _ := rat6
  neg q := -q
  finite _ := true
  add a b := a + b
  sub a b := a - b
  mul a b := a * b
  div a b := a / b
  tenth := 1 / 10
  eightTenths := 4 / 5
  fixed6 := rat6
  addComm := Rat.add_comm

def personRules (metric : String) : Bytes :=
  ascii "[\x7b\"rule_name\":\"inn\",\"id_column\":\"id\",\"scan_columns\":[\"inn\"],\"test_columns\":[\"name\"],\"metric_function\":\"" ++
    ascii metric ++ ascii "\",\"operator\":\">=\",\"threshold\":1\x7d]"

def matchPersons (metric : String) : PipelineStep := ⟨ascii "SELECT * FROM persons",personRules metric,ascii "person_matches"⟩

def person (id name : String) : Row := [ascii id,ascii "7707083893",ascii name]

def persons (rows : List Row) : Rs := ⟨⟨rows,false⟩,[ascii "id",ascii "inn",ascii "name"]⟩

def shorterFirst : List Row := [person "1" "abc",person "2" "abcd"]

def longerFirst : List Row := [person "2" "abcd",person "1" "abc"]

/-- The first query finds the second text around its only trigram; the other way round half of the trigrams are missing. -/
theorem orderDecides : ¬ ∀ (query query' : Bytes → Answer) (n : Nat) (st : PipelineStep) (cand : Rs) (rows' : List Row)
    (out out' : ResultSet),
    cand.rows.Perm rows' → query st.sql = .rows cand → query' st.sql = .rows {cand with rows := rows'} →
    runMatchStep Rat query n st = .ok out → runMatchStep Rat query' n st = .ok out' →
    (out.rows.map unordered).Perm (out'.rows.map unordered) := by
  intro all
  have one : ((runMatchStep Rat (fun _ => .rows (persons shorterFirst)) 60 (matchPersons "word_similarity")).toOption.any
      fun out => out.rows.length = 1) = true := by decide +kernel
  have none_ : ((runMatchStep Rat (fun _ => .rows (persons longerFirst)) 60 (matchPersons "word_similarity")).toOption.any
      fun out => out.rows.length = 0) = true := by decide +kernel
  obtain ⟨out,ran,one⟩ := (Option.any_eq_true _ _).mp one
  obtain ⟨out',ran',none_⟩ := (Option.any_eq_true _ _).mp none_
  have perm := all _ _ 60 _ _ longerFirst out out' (List.Perm.swap ..) rfl rfl (ranOk ran) (ranOk ran')
  have length := perm.length_eq
  rw [List.length_map,List.length_map,of_decide_eq_true one,of_decide_eq_true none_] at length
  cases length

def innRule : Rule Rat := ⟨ascii "inn",0,ascii "levenshtein",ascii ">=",1,ascii "none",[some 1],[some 2]⟩

/-- The rules of a `match_rules` that is read are this one. -/
def readsInn : JVal Rat → Bool
  | .array items => (readRules (persons shorterFirst).names 0 items).toOption = some [innRule]
  | _ => false

theorem innRead : ∃ items, (jsonParse 60 (matchPersons "levenshtein").matchRules : Option (JVal Rat)) = some (.array items) ∧
    readRules (persons shorterFirst).names 0 items = .ok [innRule] := by
  have read : ((jsonParse 60 (matchPersons "levenshtein").matchRules : Option (JVal Rat)).any readsInn) = true := by decide +kernel
  obtain ⟨v,parsed,read⟩ := (Option.any_eq_true _ _).mp read
  cases v with
  | array items => exact ⟨items,parsed,ranOk (of_decide_eq_true read)⟩
  | _ => cases read

theorem innFits : Fits [innRule] shorterFirst where
  short rule mem row row_ := by
    cases List.mem_singleton.mp mem
    have both : ∀ row ∈ shorterFirst,
        innRule.key row = some (ascii "7707083893") ∧ (innRule.text row).length ≤ 1023 := by decide +kernel
    refine ⟨fun key is => ?_,(both row row_).2⟩
    cases (both row row_).1.symm.trans is
    decide
  room := by decide +kernel

theorem everyPairOncePersons : ∃ out, runMatchStep Rat (fun _ => .rows (persons shorterFirst)) 60
      (matchPersons "levenshtein") = .ok out ∧ out.truncated = false ∧
    ∃ out', runMatchStep Rat (fun _ => .rows (persons longerFirst)) 60 (matchPersons "levenshtein") = .ok out' ∧
      (out.rows.map unordered).Perm (out'.rows.map unordered) := by
  have ready : Ready Rat (fun _ => .rows (persons shorterFirst)) 60 (matchPersons "levenshtein")
      (persons shorterFirst) [innRule] :=
    ⟨by decide +kernel,by decide +kernel,by decide +kernel,rfl,rfl,fun _ => innRead⟩
  obtain ⟨out,ran,whole,_,_,orders⟩ := everyPairOnce ready innFits
  have even : ∀ rule ∈ [innRule], rule.Even (persons shorterFirst).rows := fun rule mem bySimilarity => by
    cases List.mem_singleton.mp mem
    exact absurd (by decide +kernel) bySimilarity.2
  exact ⟨out,ran,whole,orders even (fun _ => .rows (persons longerFirst)) longerFirst
    (List.Perm.swap ..) rfl⟩

end Napastak.MatchStep
