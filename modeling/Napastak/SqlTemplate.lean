import Napastak.NamedParams
import Napastak.PipelineTrip

/-! `sql_template.c`: the literal of a string, and templates with `\x7bname\x7d` in them. -/
namespace Napastak.SqlTemplate
open Json Scheduler
open Query (Doubles)
open Sql (JsonDoubles doubled lexAll Lexeme Paired Token)
open Store (cstr)

def sqlQuoteLiteral (s : Bytes) : Bytes := 39 :: (doubled s ++ [39])

section
variable {F : Type} [JsonDoubles F]

def formatNumber (d : F) : Bytes :=
  if Doubles.eq d (Doubles.ofInt (JsonDoubles.toLong d).toInt) then lld (JsonDoubles.toLong d) else JsonDoubles.printG 17 d

def isRaw (name : Bytes) : Bool := 4 < name.length ∧ name.drop (name.length - 4) = ascii "_raw"

/-- The text after `@` to a value, or to a message. -/
abbrev SqlComputedFn := Bytes → Except Bytes Bytes

variable (params : Option (JVal F)) (resolver : Option SqlComputedFn) (errsz : Nat)

/-- `snprintf` into the buffer for the message. -/
def message (text : Bytes) : Bytes := text.take (errsz - 1)

/-- What stands for a placeholder. -/
def valueOf (name : Bytes) : Except Bytes Bytes :=
  if name.head? = some 64 then
    match resolver with
    | none => .error (message errsz (ascii "computed param '\x7b" ++ name ++ ascii "\x7d' has no runtime context"))
    | some resolve => resolve name.tail
  else
    match params.bind fun obj => jsonGet obj name with
    | none => .error (message errsz (ascii "unresolved SQL param '\x7b" ++ name ++ ascii "\x7d'"))
    | some (.number d) => .ok (formatNumber d)
    | some (.bool b) => .ok (if b then ascii "true" else ascii "false")
    | some pv => .ok (if isRaw name then cstr (jsonStr (some pv) []) else sqlQuoteLiteral (cstr (jsonStr (some pv) [])))

/-- The bytes of a placeholder's name, which is cut at 255. -/
def readName (s : Bytes) : Bytes := (s.takeWhile (· ≠ 125)).take 255

/-- The loop over the template; the first bytes belong to a placeholder that is done. -/
def substitute : Nat → Bytes → Except Bytes Bytes
  | _, [] => .ok []
  | k + 1, _ :: s => substitute k s
  | 0, c :: s =>
    if c = 123 ∧ s.head? = some 123 then (123 :: ·) <$> substitute 1 s
    else if c ≠ 123 then (c :: ·) <$> substitute 0 s
    else
      let name := readName s
      let taken := if (s.drop name.length).head? = some 125 then name.length + 1 else name.length
      valueOf params resolver errsz name >>= fun value => (value ++ ·) <$> substitute taken s

/-- `sql_substitute_params`: the text, or the message. -/
def sqlSubstituteParams (sql : Bytes) : Except Bytes Bytes := substitute params resolver errsz 0 sql

end

/-! ### Literals -/

theorem pairedDoubled (s : Bytes) : Paired (doubled s) := by
  induction s with
  | nil => exact .nil
  | cons c s ih =>
    rw [doubled,List.flatMap_cons]
    split
    · exact .quote ih
    · rename_i other
      exact .other other ih

theorem doubledSelf {s : Bytes} (plain : 39 ∉ s) : doubled s = s := by
  induction s with
  | nil => rfl
  | cons c s ih =>
    have other : c ≠ 39 := fun e => plain (e ▸ List.mem_cons_self)
    rw [doubled,List.flatMap_cons,if_neg other]
    exact congrArg (c :: ·) (ih fun e => plain (List.mem_cons_of_mem _ e))

theorem quotedLexes {F : Type} [Doubles F] (s : Bytes) {r : Bytes} (apart : r.head? ≠ some 39) :
    lexAll F (sqlQuoteLiteral s ++ r) = ⟨.string,doubled s,0,Doubles.zero⟩ :: lexAll F r :=
  Sql.lexAllAppend (Lexeme.string (pairedDoubled s)) fun y first => by
    have other : y ≠ 39 := fun e => apart (e ▸ first)
    simpa using other

/-! ### Templates -/

/-- A template as it is meant: text, `\x7b\x7b`, and names that close within their 255 bytes. -/
inductive Piece
  | text (t : Bytes) (plain : 123 ∉ t)
  | brace
  | param (name : Bytes) (closed : 125 ∉ name) (short : name.length ≤ 255) (single : name.head? ≠ some 123)

def Piece.source : Piece → Bytes
  | .text t _ => t
  | .brace => [123,123]
  | .param name _ _ _ => 123 :: (name ++ [125])

def template (ps : List Piece) : Bytes := ps.flatMap Piece.source

section
variable {F : Type} [JsonDoubles F] (params : Option (JVal F)) (resolver : Option SqlComputedFn) (errsz : Nat)

/-- What a piece becomes. -/
def Piece.filled : Piece → Except Bytes Bytes
  | .text t _ => .ok t
  | .brace => .ok [123]
  | .param name _ _ _ => valueOf params resolver errsz name

theorem substituteSkip (u s : Bytes) : substitute params resolver errsz u.length (u ++ s) = substitute params resolver errsz 0 s := by
  induction u with
  | nil => rfl
  | cons c u ih => exact ih

theorem exceptMap {α β γ ε : Type} (f : β → γ) (g : α → β) (x : Except ε α) : f <$> g <$> x = (fun a => f (g a)) <$> x := by
  cases x <;> rfl

theorem substituteText {t : Bytes} (plain : 123 ∉ t) (s : Bytes) :
    substitute params resolver errsz 0 (t ++ s) = (t ++ ·) <$> substitute params resolver errsz 0 s := by
  induction t with
  | nil =>
    rw [List.nil_append]
    cases substitute params resolver errsz 0 s <;> rfl
  | cons c t ih =>
    have other : c ≠ 123 := fun e => plain (e ▸ List.mem_cons_self)
    rw [List.cons_append,substitute,if_neg (fun h => other h.1),if_pos other,ih fun e => plain (List.mem_cons_of_mem _ e),exceptMap]
    rfl

theorem readNameIs {name : Bytes} (closed : 125 ∉ name) (short : name.length ≤ 255) (s : Bytes) : readName (name ++ 125 :: s) = name := by
  have all : ∀ c ∈ name, decide (c ≠ 125) = true := fun c hc => decide_eq_true fun e => closed (e ▸ hc)
  rw [readName,List.takeWhile_append_of_pos all,List.takeWhile_cons_of_neg (by simp),List.append_nil,List.take_of_length_le short]

theorem substituteParam {name : Bytes} (closed : 125 ∉ name) (short : name.length ≤ 255) (single : name.head? ≠ some 123) (s : Bytes) :
    substitute params resolver errsz 0 (123 :: (name ++ 125 :: s)) =
      valueOf params resolver errsz name >>= fun value => (value ++ ·) <$> substitute params resolver errsz 0 s := by
  have open_ : ¬((123 : UInt8) = 123 ∧ (name ++ 125 :: s).head? = some 123) := by
    cases name with
    | nil => simp
    | cons c name => simpa using single
  have behind : (((name ++ 125 :: s).drop name.length).head? = some 125) := by rw [List.drop_left]; rfl
  have skip := substituteSkip params resolver errsz (name ++ [125]) s
  rw [List.append_assoc,List.singleton_append,List.length_append,List.length_singleton] at skip
  rw [substitute,if_neg open_,if_neg (by simp)]
  simp only [readNameIs closed short,behind,if_true,skip]

theorem substitutePiece (p : Piece) (s : Bytes) :
    substitute params resolver errsz 0 (p.source ++ s) =
      p.filled params resolver errsz >>= fun value => (value ++ ·) <$> substitute params resolver errsz 0 s := by
  cases p with
  | text t plain => exact substituteText params resolver errsz plain s
  | brace => rfl
  | param name closed short single =>
    rw [Piece.source,List.cons_append,List.append_assoc]
    exact substituteParam params resolver errsz closed short single s

/-- Every piece is filled on its own, and no value is looked at again. -/
theorem substituteTemplate (ps : List Piece) :
    sqlSubstituteParams params resolver errsz (template ps) = List.flatten <$> ps.mapM (Piece.filled params resolver errsz) := by
  rw [sqlSubstituteParams,template]
  induction ps with
  | nil => rfl
  | cons p ps ih =>
    rw [List.flatMap_cons,substitutePiece,ih,List.mapM_cons]
    cases p.filled params resolver errsz with
    | error e => rfl
    | ok value => cases ps.mapM (Piece.filled params resolver errsz) <;> rfl

end
/-! ### Quoting and filling -/

section
variable {F : Type} [JsonDoubles F] (params : Option (JVal F)) (resolver : Option SqlComputedFn) (errsz : Nat)

theorem stringFilled {name s : Bytes} (stored : name.head? ≠ some 64) (quoted : isRaw name = false)
    (get : (params.bind fun obj => jsonGet obj name) = some (.string s)) (whole : 0 ∉ s) :
    valueOf params resolver errsz name = .ok (sqlQuoteLiteral s) := by
  unfold valueOf
  rw [if_neg stored,get]
  simp [quoted,jsonStr,Store.cstrSelf whole]

end

theorem templateFills (F : Type) [JsonDoubles F] :
    (∀ s r : Bytes, r.head? ≠ some 39 →
      ∃ b, lexAll F (sqlQuoteLiteral s ++ r) = ⟨.string,b,0,Doubles.zero⟩ :: lexAll F r ∧ (39 ∉ s → b = s)) ∧
    (∀ (params : Option (JVal F)) resolver errsz t, 123 ∉ t → sqlSubstituteParams params resolver errsz t = .ok t) ∧
    (∀ (params : Option (JVal F)) resolver errsz ps,
      sqlSubstituteParams params resolver errsz (template ps) = List.flatten <$> ps.mapM (Piece.filled params resolver errsz)) ∧
    ∀ (params : Option (JVal F)) resolver errsz name s, name.head? ≠ some 64 → isRaw name = false →
      (params.bind fun obj => jsonGet obj name) = some (.string s) → 0 ∉ s →
      valueOf params resolver errsz name = .ok (sqlQuoteLiteral s) := by
  refine ⟨fun s r apart => ⟨doubled s,quotedLexes s apart,doubledSelf⟩,fun params resolver errsz t plain => ?_,substituteTemplate,
    fun params resolver errsz name s => stringFilled params resolver errsz⟩
  have read := substituteText params resolver errsz plain []
  rwa [List.append_nil,substitute,show (t ++ ·) <$> (Except.ok [] : Except Bytes Bytes) = .ok (t ++ []) from rfl,List.append_nil] at read

def bob : JVal Int := .object [(some (ascii "n"),.string (ascii "a' OR {n}")),(some (ascii "t_raw"),.string (ascii "users"))]

theorem templateFillsBob :
    (∃ b, lexAll Int (sqlQuoteLiteral (ascii "x y") ++ ascii " z") = ⟨.string,b,0,0⟩ :: lexAll Int (ascii " z") ∧
      (39 ∉ ascii "x y" → b = ascii "x y")) ∧
    sqlSubstituteParams (some bob) none 256 (ascii "SELECT 1") = .ok (ascii "SELECT 1") ∧
    valueOf (some bob) none 256 (ascii "n") = .ok (ascii "'a'' OR {n}'") :=
  ⟨(templateFills Int).1 (ascii "x y") (ascii " z") (by decide),
   (templateFills Int).2.1 (some bob) none 256 (ascii "SELECT 1") (by decide),
   (templateFills Int).2.2.2 (some bob) none 256 (ascii "n") (ascii "a' OR {n}") (by decide) (by decide) (by rfl) (by decide)⟩

/-- A name that ends in `_raw` is filled without quotes. -/
theorem rawUnquoted :
    sqlSubstituteParams (some bob) none 256 (ascii "FROM {t_raw}") = .ok (ascii "FROM users") ∧
    ascii "FROM users" ≠ ascii "FROM " ++ sqlQuoteLiteral (ascii "users") :=
  ⟨rfl,by decide⟩

end Napastak.SqlTemplate
