import Napastak.Binary64
import Napastak.ColBatch

/-! The JSON source: the rows of a batch from the array that the data path leads to. -/
namespace Napastak.JsonHttp
open Query Json Binary64 Rfc8259
open Store (cstr maxCols)
open DecArith (dv)
open Rounding (digitsLong)

/-! ### The code -/

def batchSize : Nat := 8192

section
variable {F : Type}

/-- `jh_navigate`: `strtok` leaves out empty names. -/
def jhNavigate (root : JVal F) (path : Bytes) : Option (JVal F) :=
  ((path.splitOn 46).filter (· ≠ [])).foldlM (fun cur tok =>
    match cur with
    | .object _ => jsonGet cur tok
    | _ => none) root

/-- The names of the columns. In a JSON text every key is a string. -/
def keysOf (fields : List (Option Bytes × JVal F)) : List Bytes := fields.map fun f => cstr (f.1.getD [])

def jhInferSchema (arr : JVal F) : Option (List Bytes) :=
  match arr with
  | .array (.object fields :: _) => some (keysOf fields)
  | _ => none

end

/-- A cell of the batch; the memory of the values is not cleared. -/
inductive Cell
  | unset
  | null
  | text (s : Bytes)
  deriving DecidableEq, Repr

def boolText (b : Bool) : Bytes := if b then ascii "true" else ascii "false"

def fillCell : Option (JVal Double) → Cell
  | none | some .null => .null
  | some (.string s) => .text (cstr s)
  | some (.number d) => .text (numberText d)
  | some (.bool b) => .text (boolText b)
  | some _ => .text []

/-- An item that is no object keeps its row. -/
def fillRow (names : List Bytes) : JVal Double → List Cell
  | .object fields => names.map fun name => fillCell (jsonGet (.object fields) name)
  | _ => names.map fun _ => .unset

def jhFillBatch (items : List (JVal Double)) (names : List Bytes) (startItem nmax : Nat) : List (List Cell) :=
  ((items.drop startItem).take nmax).map (fillRow names)

/-- What `jh_read_batch` gives; `undefined` is a write past the arrays of a batch or a count that is no `int`. -/
inductive Answer
  | undefined
  | noData
  | failed
  | batch (names : List Bytes) (rows : List (List Cell))
  deriving DecidableEq, Repr

/-- `jh_read_batch` on the response. -/
def jhReadBatch (root : JVal Double) (dataPath : Bytes) : Answer :=
  match jhNavigate root dataPath with
  | some (.array (item :: items)) =>
    match jhInferSchema (.array (item :: items)) with
    | none => .failed
    | some names =>
      if 2 ^ 31 ≤ (item :: items).length ∨ maxCols < names.length then .undefined
      else .batch names (jhFillBatch (item :: items) names 0 (min (item :: items).length batchSize))
  | _ => .noData

/-! ### The response -/

mutual
/-- What `json_parse` makes of a tree whose numbers are as they are written. -/
def parsed : JVal Number → JVal Double
  | .null => .null
  | .bool b => .bool b
  | .number n => .number (strtod n)
  | .string s => .string s
  | .array items => .array (parsedItems items)
  | .object fields => .object (parsedFields fields)
  | .error => .error
def parsedItems : List (JVal Number) → List (JVal Double)
  | [] => []
  | v :: vs => parsed v :: parsedItems vs
def parsedField : Option Bytes × JVal Number → Option Bytes × JVal Double
  | (k,v) => (k,parsed v)
def parsedFields : List (Option Bytes × JVal Number) → List (Option Bytes × JVal Double)
  | [] => []
  | f :: fs => parsedField f :: parsedFields fs
end

def isObject {F : Type} : JVal F → Bool
  | .object _ => true
  | _ => false

/-- What a cell should be: nothing is promised for an array or an object but that the cell is set. -/
def CellOf : Option (JVal Number) → Cell → Prop
  | none, c | some .null, c => c = .null
  | some (.string s), c => c = .text s
  | some (.number n), c => ∃ k : Number, c = .text k.text ∧ numberValue k = numberValue n
  | some (.bool b), c => c = .text (boolText b)
  | some _, c => c ≠ .unset

/-- One row for each object among the items of the batch, a cell for each key of the first, all of them set. -/
def Fills (root : JVal Number) (dataPath : Bytes) : Prop :=
  match jhReadBatch (parsed root) dataPath with
  | .undefined => False
  | .noData | .failed => True
  | .batch names rows => ∃ items, jhNavigate root dataPath = some (.array items) ∧ jhInferSchema (.array items) = some names ∧
    List.Forall₂ (fun item row => List.Forall₂ (fun name c => CellOf (jsonGet item name) c) names row)
      ((items.take batchSize).filter isObject) rows

/-- A string without a zero byte, a number that stays what it is. -/
def KeptValue : Option (JVal Number) → Prop
  | some (.string s) => (0 : UInt8) ∉ s
  | some (.number n) => Kept (numberValue n)
  | _ => True

/-- Of an array that begins with an object: the counts fit, the items of the batch are objects, and their values are kept. -/
def Fit (root : JVal Number) (dataPath : Bytes) : Prop :=
  ∀ items names, jhNavigate root dataPath = some (.array items) → jhInferSchema (.array items) = some names →
    items.length < 2 ^ 31 ∧ names.length ≤ maxCols ∧
      ∀ item ∈ items.take batchSize, isObject item = true ∧ ∀ name ∈ names, KeptValue (jsonGet item name)

/-! ### The tree of the parser -/

theorem parsedItemsMap (items : List (JVal Number)) : parsedItems items = items.map parsed := by
  induction items with
  | nil => rfl
  | cons _ _ ih => rw [parsedItems,ih,List.map_cons]

theorem parsedFieldsMap (fields : List (Option Bytes × JVal Number)) : parsedFields fields = fields.map fun f => (f.1,parsed f.2) := by
  induction fields with
  | nil => rfl
  | cons f _ ih =>
    obtain ⟨k,v⟩ := f
    rw [parsedFields,ih,List.map_cons,parsedField]

theorem parsedGet (v : JVal Number) (name : Bytes) : jsonGet (parsed v) name = (jsonGet v name).map parsed := by
  cases v with
  | object fields =>
    rw [parsed,jsonGet,jsonGet,parsedFieldsMap,List.find?_map]
    simp only [Option.map_map]
    rfl
  | null | bool _ | number _ | string _ | array _ | error => rfl

theorem parsedNavigate (root : JVal Number) (path : Bytes) : jhNavigate (parsed root) path = (jhNavigate root path).map parsed := by
  rw [jhNavigate,jhNavigate]
  generalize (path.splitOn 46).filter (· ≠ []) = toks
  induction toks generalizing root with
  | nil => rfl
  | cons tok toks ih =>
    rw [List.foldlM_cons,List.foldlM_cons]
    cases root with
    | object fields =>
      have step := parsedGet (.object fields) tok
      rw [parsed] at step ⊢
      dsimp only
      rw [step]
      cases jsonGet (.object fields) tok with
      | none => rfl
      | some v => exact ih v
    | null | bool _ | number _ | string _ | array _ | error => rfl

theorem parsedSchema (v : JVal Number) : jhInferSchema (parsed v) = jhInferSchema v := by
  cases v with
  | array items =>
    cases items with
    | nil => rfl
    | cons item items =>
      cases item with
      | object fields =>
        rw [parsed,parsedItems,parsed,jhInferSchema,jhInferSchema,parsedFieldsMap,keysOf,keysOf,List.map_map]
        rfl
      | null | bool _ | number _ | string _ | array _ | error => rfl
  | null | bool _ | number _ | string _ | object _ | error => rfl

/-! ### The rows -/

theorem cellKept (v : Option (JVal Number)) : CellOf v (fillCell (v.map parsed)) ↔ KeptValue v := by
  cases v with
  | none => exact iff_of_true rfl trivial
  | some v =>
    cases v with
    | null | bool _ => exact iff_of_true rfl trivial
    | array _ | object _ | error => exact iff_of_true nofun trivial
    | string s =>
      show Cell.text (cstr s) = Cell.text s ↔ (0 : UInt8) ∉ s
      rw [Cell.text.injEq,cstr,List.takeWhile_eq_self_iff]
      exact ⟨fun all zero => absurd (all 0 zero) (by decide),fun none_ c mem => decide_eq_true fun is => none_ (is ▸ mem)⟩
    | number n =>
      show (∃ k : Number, Cell.text (numberText (strtod n)) = Cell.text k.text ∧ numberValue k = numberValue n) ↔ Kept (numberValue n)
      rw [← keptIff]
      exact exists_congr fun k => and_congr_left fun _ => ⟨fun is => (Cell.text.inj is).symm,fun is => congrArg Cell.text is.symm⟩

theorem rowKept {item : JVal Number} (object : isObject item = true) (names : List Bytes) :
    List.Forall₂ (fun name c => CellOf (jsonGet item name) c) names (fillRow names (parsed item)) ↔
      ∀ name ∈ names, KeptValue (jsonGet item name) := by
  have row : fillRow names (parsed item) = names.map fun name => fillCell ((jsonGet item name).map parsed) := by
    cases item with
    | object fields => exact List.map_congr_left fun name _ => congrArg fillCell (parsedGet (.object fields) name)
    | null | bool _ | number _ | string _ | array _ | error => cases object
  rw [row,List.forall₂_map_right_iff,List.forall₂_same]
  exact forall₂_congr fun name _ => cellKept _

theorem rowsKept (items : List (JVal Number)) (names : List Bytes) :
    List.Forall₂ (fun item row => List.Forall₂ (fun name c => CellOf (jsonGet item name) c) names row) (items.filter isObject)
      (items.map fun item => fillRow names (parsed item)) ↔
      ∀ item ∈ items, isObject item = true ∧ ∀ name ∈ names, KeptValue (jsonGet item name) := by
  constructor
  · intro all
    have whole : items.filter isObject = items :=
      List.filter_sublist.eq_of_length (by rw [all.length_eq,List.length_map])
    have objects := List.filter_eq_self.mp whole
    rw [whole,List.forall₂_map_right_iff,List.forall₂_same] at all
    exact fun item mem => ⟨objects item mem,(rowKept (objects item mem) names).mp (all item mem)⟩
  · intro good
    rw [List.filter_eq_self.mpr fun item mem => (good item mem).1,List.forall₂_map_right_iff,List.forall₂_same]
    exact fun item mem => (rowKept (good item mem).1 names).mpr (good item mem).2

/-- A digit and digits behind a point. -/
def plainNumber (w : UInt8) (frac : Option Bytes) (digit : isdigit w = true) (digits : ∀ ds, frac = some ds → Digits ds) : Number :=
  ⟨false,[w],frac,none,⟨⟨List.cons_ne_nil _ _,fun _ mem => List.mem_singleton.mp mem ▸ digit⟩,.inl rfl⟩,digits,nofun⟩

/-- 0.1234567 -/
def sevenDigits : Number := plainNumber 48 (some [49,50,51,52,53,54,55]) rfl fun _ is => Option.some.inj is ▸ ⟨by simp,by decide +kernel⟩

theorem sevenDigitsLost : ¬Kept (numberValue sevenDigits) := by
  have value : numberValue sevenDigits = ((1234567 : ℤ) : ℚ) * ((10 : ℕ) : ℚ) ^ (-7 : ℤ) := by
    have digits : dv (sevenDigits.whole ++ sevenDigits.frac.getD []) = 1234567 := rfl
    rw [numberValue,digits]
    norm_num [sevenDigits,plainNumber,expPower]
  rw [value]
  rintro (⟨⟨i,_,_,is⟩,_⟩ | ⟨_,_,short,_⟩)
  · have : (1234567 : ℚ) = i * 10 ^ 7 := by
      rw [← is]
      norm_num
    have : (1234567 : ℤ) = i * 10 ^ 7 := by exact_mod_cast this
    omega
  · exact digitsLong (by decide) (by decide) (by decide) short

end Napastak.JsonHttp
