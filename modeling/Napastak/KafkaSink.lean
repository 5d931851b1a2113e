import Napastak.QueryJson
import Napastak.Lib.Growth

/-! The Kafka sink: a row as a JSON object in a buffer that is doubled, and what is handed to the producer. -/
namespace Napastak.KafkaSink
open Query Sql Json Rfc8259 Growth Munch
open Store (ColType nullBit)
open Utf8 (WellFormed)
open QueryJson (isNumeric isJsonNumber tidy tidyNumber numberTidy digitByte shown commas more memberText memberTextIs objOf objText
  objValue quotedPieces)
open String (utf8EncodeChar)

/-! ### The code -/

def kafkaIsJsonNum (s : Bytes) : Bool := isJsonNumber s

/-- Each byte, or what stands for it, with room for one byte more behind it. -/
def kafkaJsonEscape (b : Buf) (s : Bytes) : Option Buf :=
  s.foldlM (fun b c => (b.reserve ((escape c).length + 1)).put (escape c)) b

/-- A column of the schema with its cells; a NULL name is empty. -/
structure SinkCol where
  name : Option Bytes
  type : ColType
  nullBitmap : Option Bytes
  values : List (Option Bytes)

def SinkCol.cell (col : SinkCol) (r : Nat) : Option Bytes :=
  if nullBit col.nullBitmap r then none else col.values.getD r none

def putNull (b : Buf) : Option Buf := (b.twice 4).put (ascii "null")

/-- A cell that goes out without quotes. -/
def bare (t : ColType) (v : Bytes) : Bool :=
  isNumeric t && kafkaIsJsonNum v || (t = .bool ∧ (v = ascii "true" ∨ v = ascii "false"))

def putValue (t : ColType) (b : Buf) : Option Bytes → Option Buf
  | none => putNull b
  | some v =>
    if v = nullSentinel then putNull b
    else if bare t v then (b.reserve v.length).put v
    else do
      let b ← (b.twice 1).put [34]
      let b ← kafkaJsonEscape b v
      (b.twice 1).put [34]

/-- The comma and the quote are written without a look at the capacity. -/
def putMember (r c : Nat) (b : Buf) (col : SinkCol) : Option Buf := do
  let b ← if c = 0 then some b else b.put [44]
  let b ← b.put [34]
  let b ← kafkaJsonEscape b (col.name.getD [])
  let b ← (b.twice 2).put [34]
  let b ← b.put [58]
  putValue col.type b (col.cell r)

def putMembers (r : Nat) : Nat → List SinkCol → Buf → Option Buf
  | _, [], b => some b
  | c, col :: cols, b => (putMember r c b col).bind (putMembers r (c + 1) cols)

/-- The message of a row; `none` is a write past the buffer. -/
def rowMessage (cols : List SinkCol) (r : Nat) : Option Bytes := do
  let b ← (⟨256,[]⟩ : Buf).put [123]
  let b ← putMembers r 0 cols b
  let b ← (b.twice 1).put [125]
  some b.text

/-- What librdkafka answers in a call: whether there is a producer for the topic, which messages `rd_kafka_produce`
takes, and how many are left after the flush. -/
structure Producer where
  opens : Bool
  takes : Nat → Bool
  unsent : Nat

/-- The answer of `kafka_write_batch` and the messages taken. -/
def kafkaWriteBatch (topicName brokers entity : Bytes) (p : Producer) (cols : List SinkCol) (nrows : Nat) :
    Option (Int × List Bytes) :=
  let topic := if entity = [] then topicName else entity
  if topic = [] then some (-1,[])
  else if brokers = [] then some (-1,[])
  else if !p.opens then some (-1,[])
  else do
    let msgs ← (List.range nrows).mapM (rowMessage cols)
    let taken := (msgs.zipIdx.filter fun m => p.takes m.2).map (·.1)
    some (if 0 < p.unsent then -1 else taken.length,taken)

/-! ### What the message should be -/

/-- The value a cell stands for in a column of the type. -/
inductive Stands (t : ColType) (cell : Option Bytes) : Value → Prop
  | null (is : shown cell = none) : Stands t cell .null
  | number (n : Number) (typed : isNumeric t = true) (is : shown cell = some n.text) : Stands t cell (.num ⟨n.text,n,rfl⟩)
  | flag (b : Bool) (typed : t = .bool) (is : shown cell = some (if b then ascii "true" else ascii "false")) :
    Stands t cell (.bool b)
  | text (cs : List Char) (is : shown cell = some (cs.flatMap utf8EncodeChar))
    (noNumber : isNumeric t = true → ∀ n : Number, n.text ≠ cs.flatMap utf8EncodeChar)
    (noFlag : t = .bool → cs.flatMap utf8EncodeChar ≠ ascii "true" ∧ cs.flatMap utf8EncodeChar ≠ ascii "false") :
    Stands t cell (.str cs)

/-- The text of one JSON object that maps the name of each column to its cell. -/
def MessageOf (cols : List SinkCol) (r : Nat) (msg : Bytes) : Prop :=
  ∃ ms : List (List Char × Value), Denotes msg (.obj ms) ∧
    List.Forall₂ (fun col m => m.1.flatMap utf8EncodeChar = col.name.getD [] ∧ Stands col.type (col.cell r) m.2) cols ms

def cellText (t : ColType) : Option Bytes → Bytes
  | none => ascii "null"
  | some v =>
    if v = nullSentinel then ascii "null"
    else if bare t v then v
    else 34 :: (v.flatMap escape ++ [34])

def member (r : Nat) (col : SinkCol) : Bytes :=
  34 :: ((col.name.getD []).flatMap escape ++ 34 :: 58 :: cellText col.type (col.cell r))

/-- The message without its last brace. -/
def sofar (cols : List SinkCol) (r : Nat) : Bytes := 123 :: commas (cols.map (member r))

/-- Two bytes for a quote, a backslash and the short escapes, six for another control character. -/
def escapedLength (s : Bytes) : Nat := (s.map fun c => (escape c).length).sum

def cellLength (t : ColType) : Option Bytes → Nat
  | none => 4
  | some v => if bare t v then v.length else escapedLength v + 2

def memberLength (r : Nat) (col : SinkCol) : Nat := escapedLength (col.name.getD []) + 3 + cellLength col.type (shown (col.cell r))

/-- Where the comma before column `c` comes to stand: a brace or comma for each column before it, and their members. -/
def place (cols : List SinkCol) (r c : Nat) : Nat := c + ((cols.take c).map (memberLength r)).sum

/-- No column but the first begins at the end of a capacity that doubling leads to, or one byte before it. -/
def Roomy (cols : List SinkCol) (r : Nat) : Prop :=
  ∀ c, 1 ≤ c → c < cols.length → ∀ k, place cols r c ≠ 256 * 2 ^ k ∧ place cols r c + 1 ≠ 256 * 2 ^ k

/-- No number that goes out has a zero before its whole part or a dot without digits around it. -/
def TidyCell (r : Nat) (col : SinkCol) : Prop :=
  ∀ v, isNumeric col.type = true → shown (col.cell r) = some v → kafkaIsJsonNum v = true → tidy v = true

/-- The name of the column and its cells are UTF-8. -/
def Utf8Cell (r : Nat) (col : SinkCol) : Prop := WellFormed (col.name.getD []) ∧ ∀ v, shown (col.cell r) = some v → WellFormed v

/-! ### The buffer -/

/-- What a check for one byte has left. -/
def Near (b : Buf) : Prop := ∃ need, b.Led 256 need ∧ need ≤ b.text.length + 1

/-- The capacity that the text itself has led to. -/
def Exact (b : Buf) : Prop := b.Led 256 b.text.length

theorem Exact.near {b : Buf} (exact_ : Exact b) : Near b := ⟨_,exact_,Nat.le_succ _⟩

theorem escapePut {b : Buf} (near : Near b) (s : Bytes) :
    ∃ b', kafkaJsonEscape b s = some b' ∧ b'.text = b.text ++ s.flatMap escape ∧ Near b' := by
  induction s generalizing b with
  | nil => exact ⟨b,rfl,(List.append_nil _).symm,near⟩
  | cons c s ih =>
    obtain ⟨need,led,le⟩ := near
    have room := led.reserve (n := (escape c).length + 1) (by decide) (by omega)
    obtain ⟨b₁,put,text,led₁⟩ := Buf.Led.put (b := b.reserve _) (s := escape c) (by decide) room (Nat.le_succ _)
    obtain ⟨b₂,rest,text₂,near₂⟩ := @ih b₁ ⟨_,led₁,by rw [text,List.length_append]; exact Nat.le_refl _⟩
    refine ⟨b₂,?_,?_,near₂⟩
    · rw [kafkaJsonEscape,List.foldlM_cons,put]
      exact rest
    · rw [text₂,text,List.flatMap_cons,List.append_assoc]
      rfl

/-- Bytes after a check for as many. -/
theorem checkedPut {b : Buf} (near : Near b) {s : Bytes} (some_ : s ≠ []) (small : s.length ≤ 256) :
    ∃ b', (b.twice s.length).put s = some b' ∧ b'.text = b.text ++ s ∧ Exact b' := by
  obtain ⟨need,led,le⟩ := near
  have pos := List.length_pos_iff.mpr some_
  have room := led.twice (n := s.length) (by decide) (by omega) small
  obtain ⟨b',put,text,led'⟩ := Buf.Led.put (b := b.twice _) (s := s) (by decide) room (Nat.le_refl _)
  refine ⟨b',put,text,?_⟩
  rw [Exact,text,List.length_append]
  exact led'

theorem putNullIs {b : Buf} (exact_ : Exact b) : ∃ b', putNull b = some b' ∧ b'.text = b.text ++ ascii "null" ∧ Exact b' :=
  checkedPut (s := ascii "null") exact_.near (by decide) (by decide)

theorem putValueIs {b : Buf} (exact_ : Exact b) (t : ColType) (cell : Option Bytes) :
    ∃ b', putValue t b cell = some b' ∧ b'.text = b.text ++ cellText t cell ∧ Exact b' := by
  cases cell with
  | none => exact putNullIs exact_
  | some v =>
    rw [putValue,cellText]
    split
    · exact putNullIs exact_
    split
    · have room := Buf.Led.reserve (n := v.length) (by decide) exact_ (Nat.le_add_right _ _)
      obtain ⟨b',put,text,led⟩ := Buf.Led.put (b := b.reserve _) (s := v) (by decide) room (Nat.le_refl _)
      refine ⟨b',put,text,?_⟩
      rw [Exact,text,List.length_append]
      exact led
    · obtain ⟨b₁,put₁,text₁,exact₁⟩ := checkedPut (s := [34]) exact_.near (by decide) (by decide)
      obtain ⟨b₂,put₂,text₂,near₂⟩ := escapePut exact₁.near v
      obtain ⟨b₃,put₃,text₃,exact₃⟩ := checkedPut (s := [34]) near₂ (by decide) (by decide)
      refine ⟨b₃,?_,?_,exact₃⟩
      · simp only [List.length_singleton] at put₁ put₃
        rw [put₁,Option.bind_eq_bind,Option.bind_some,put₂,Option.bind_some,put₃]
      · rw [text₃,text₂,text₁]
        simp

/-- A column whose comma and quote have room. -/
theorem putMemberIs {b : Buf} (exact_ : Exact b) (r c : Nat) (col : SinkCol) (lead : Bytes) (is : lead = if c = 0 then [] else [44]) :
    (b.text.length + (lead.length + 1) ≤ grown 256 b.text.length →
      ∃ b', putMember r c b col = some b' ∧ b'.text = b.text ++ (lead ++ member r col) ∧ Exact b') ∧
    (grown 256 b.text.length < b.text.length + (lead.length + 1) → putMember r c b col = none) := by
  have opening : (do let b ← (if c = 0 then some b else b.put [44]); b.put [34]) = b.put (lead ++ [34]) := by
    rw [is]
    split
    · rfl
    · exact putAppend b [44] [34]
  have begun : putMember r c b col = (b.put (lead ++ [34])).bind fun b =>
      (kafkaJsonEscape b (col.name.getD [])).bind fun b => ((b.twice 2).put [34,58]).bind fun b =>
        putValue col.type b (col.cell r) := by
    have colon (b : Buf) : (b.put [34]).bind (fun b => (b.put [58]).bind fun b => putValue col.type b (col.cell r)) =
        (b.put [34,58]).bind fun b => putValue col.type b (col.cell r) := by
      rw [← Option.bind_assoc,putAppend]
      rfl
    rw [← opening,putMember]
    simp only [← colon]
    split
    · rfl
    · exact (Option.bind_assoc ..).symm
  constructor
  · intro room
    obtain ⟨b₁,put₁⟩ := Option.isSome_iff_exists.mp ((Buf.Led.putBlind (s := lead ++ [34]) exact_).mpr
      (by rwa [List.length_append]))
    obtain ⟨text₁,exact₁⟩ := Buf.Led.putTight (by decide) exact_ put₁
    obtain ⟨b₂,put₂,text₂,near₂⟩ := escapePut (Exact.near exact₁) (col.name.getD [])
    obtain ⟨b₃,put₃,text₃,exact₃⟩ := checkedPut (s := [34,58]) near₂ (by decide) (by decide)
    obtain ⟨b₄,put₄,text₄,exact₄⟩ := putValueIs exact₃ col.type (col.cell r)
    refine ⟨b₄,?_,?_,exact₄⟩
    · rw [begun,put₁,Option.bind_some,put₂,Option.bind_some]
      simp only [List.length_cons,List.length_nil] at put₃
      rw [put₃,Option.bind_some,put₄]
    · rw [text₄,text₃,text₂,text₁,member]
      simp
  · intro past
    have none_ : b.put (lead ++ [34]) = none := by
      rw [← Option.not_isSome_iff_eq_none,Buf.Led.putBlind exact_,List.length_append]
      exact Nat.not_le.mpr past
    rw [begun,none_,Option.bind_none]

/-! ### A message -/

theorem placeNext (pre : List SinkCol) (col : SinkCol) (rest : List SinkCol) (r : Nat) :
    place (pre ++ col :: rest) r pre.length = pre.length + (pre.map (memberLength r)).sum := by
  rw [place,List.take_left']
  rfl

theorem cellTextLength (t : ColType) (cell : Option Bytes) : (cellText t cell).length = cellLength t (shown cell) := by
  cases cell with
  | none => rfl
  | some v =>
    rw [cellText,shown]
    split
    · rfl
    · rw [cellLength]
      split
      · rfl
      · rw [List.length_cons,List.length_append,List.length_flatMap,escapedLength]
        rfl

theorem memberTextLength (r : Nat) (col : SinkCol) : (member r col).length = memberLength r col := by
  have := cellTextLength col.type (col.cell r)
  rw [member,memberLength,← this,List.length_cons,List.length_append,List.length_cons,List.length_cons,List.length_flatMap,escapedLength]
  omega

theorem sofarNext (pre : List SinkCol) (col : SinkCol) (r : Nat) :
    sofar (pre ++ [col]) r = sofar pre r ++ ((if pre.length = 0 then [] else [44]) ++ member r col) := by
  cases pre with
  | nil => simp [sofar,commas,more]
  | cons first pre => simp [sofar,commas,more]

theorem sofarLength {pre : List SinkCol} (some_ : pre ≠ []) (r : Nat) :
    (sofar pre r).length = pre.length + (pre.map (memberLength r)).sum := by
  obtain ⟨first,pre,rfl⟩ := List.exists_cons_of_ne_nil some_
  have rest : (more (pre.map (member r))).length = pre.length + (pre.map (memberLength r)).sum := by
    induction pre with
    | nil => rfl
    | cons col pre ih =>
      have ih := ih (List.cons_ne_nil _ _)
      rw [more] at ih ⊢
      rw [List.map_cons,List.flatMap_cons,List.length_append,List.length_cons,memberTextLength,ih,List.map_cons,List.sum_cons,
        List.length_cons]
      omega
  rw [sofar,List.map_cons,commas,List.length_cons,List.length_append,rest,memberTextLength,List.map_cons,List.sum_cons,List.length_cons]
  omega

/-- The columns from `pre.length` on have room for what is written without a look. -/
def RoomyFrom (pre cols : List SinkCol) (r : Nat) : Prop :=
  ∀ c, pre.length ≤ c → 1 ≤ c → c < (pre ++ cols).length →
    ∀ k, place (pre ++ cols) r c ≠ 256 * 2 ^ k ∧ place (pre ++ cols) r c + 1 ≠ 256 * 2 ^ k

theorem roomyStep {pre : List SinkCol} {col : SinkCol} {rest : List SinkCol} {r : Nat} : RoomyFrom pre (col :: rest) r ↔
    (1 ≤ pre.length → (sofar pre r).length + 2 ≤ grown 256 (sofar pre r).length) ∧ RoomyFrom (pre ++ [col]) rest r := by
  have same : pre ++ [col] ++ rest = pre ++ col :: rest := by rw [List.append_assoc]; rfl
  have here (pos : 1 ≤ pre.length) : (sofar pre r).length + 2 ≤ grown 256 (sofar pre r).length ↔
      ∀ k, place (pre ++ col :: rest) r pre.length ≠ 256 * 2 ^ k ∧ place (pre ++ col :: rest) r pre.length + 1 ≠ 256 * 2 ^ k := by
    rw [grownTight (by decide),placeNext,sofarLength (List.length_pos_iff.mp pos)]
  have more_ : (pre ++ [col]).length = pre.length + 1 := List.length_append
  rw [RoomyFrom,RoomyFrom,same,more_]
  constructor
  · intro all
    refine ⟨fun pos => (here pos).mpr (all _ (Nat.le_refl _) pos ?_),fun c le => all c (by omega)⟩
    rw [List.length_append,List.length_cons]
    omega
  · rintro ⟨first,rest⟩ c le pos lt
    rcases Nat.eq_or_lt_of_le le with rfl | lt'
    · exact (here pos).mp (first pos)
    · exact rest c lt' pos lt

theorem putMembersIs {r : Nat} {cols : List SinkCol} (pre : List SinkCol) {b : Buf} (exact_ : Exact b) (text : b.text = sofar pre r) :
    (RoomyFrom pre cols r → ∃ b', putMembers r pre.length cols b = some b' ∧ b'.text = sofar (pre ++ cols) r ∧ Exact b') ∧
    (¬RoomyFrom pre cols r → putMembers r pre.length cols b = none) := by
  induction cols generalizing pre b with
  | nil =>
    refine ⟨fun _ => ⟨b,rfl,by rw [text,List.append_nil],exact_⟩,fun no => absurd (fun c le _ lt => ?_) no⟩
    rw [List.append_nil] at lt
    omega
  | cons col rest ih =>
    obtain ⟨fits,past⟩ := putMemberIs exact_ r pre.length col _ rfl
    rw [text] at fits past
    have room : (1 ≤ pre.length → (sofar pre r).length + 2 ≤ grown 256 (sofar pre r).length) ↔
        (sofar pre r).length + ((if pre.length = 0 then [] else [(44 : UInt8)]).length + 1) ≤ grown 256 (sofar pre r).length := by
      cases pre with
      | nil => exact ⟨fun _ => (by decide : 1 + 1 ≤ grown 256 1),fun _ => nofun⟩
      | cons first pre => simp
    rw [roomyStep,room,putMembers]
    constructor
    · rintro ⟨here,later⟩
      obtain ⟨b₁,put₁,text₁,exact₁⟩ := fits here
      have next := @ih (pre ++ [col]) b₁ exact₁ (by rw [text₁,sofarNext])
      rw [List.length_append,List.length_singleton,List.append_assoc] at next
      rw [put₁,Option.bind_some]
      exact next.1 later
    · intro no
      by_cases here : (sofar pre r).length + ((if pre.length = 0 then [] else [(44 : UInt8)]).length + 1) ≤
          grown 256 (sofar pre r).length
      · obtain ⟨b₁,put₁,text₁,exact₁⟩ := fits here
        have next := @ih (pre ++ [col]) b₁ exact₁ (by rw [text₁,sofarNext])
        rw [List.length_append,List.length_singleton] at next
        rw [put₁,Option.bind_some]
        exact next.2 fun later => no ⟨here,later⟩
      · rw [past (Nat.lt_of_not_le here),Option.bind_none]

/-- The message is built inside its buffer exactly where no comma and quote are past a capacity, and then it is the whole text. -/
theorem rowMessageIs (cols : List SinkCol) (r : Nat) :
    (Roomy cols r → rowMessage cols r = some (sofar cols r ++ [125])) ∧ (¬Roomy cols r → rowMessage cols r = none) := by
  have begun : (⟨256,[]⟩ : Buf).put [123] = some ⟨256,[123]⟩ := rfl
  have first : Exact ⟨256,[123]⟩ := ⟨by decide,Nat.le_refl _⟩
  have same : RoomyFrom [] cols r ↔ Roomy cols r := forall_congr' fun c => ⟨fun all => all (Nat.zero_le c),fun all _ => all⟩
  obtain ⟨fits,past⟩ := @putMembersIs r cols [] _ first rfl
  rw [same] at fits past
  rw [rowMessage,begun,Option.bind_eq_bind,Option.bind_some]
  constructor
  · intro roomy
    obtain ⟨b,put,text,exact_⟩ := fits roomy
    obtain ⟨b',last,text',_⟩ := checkedPut (s := [125]) exact_.near (by decide) (by decide)
    rw [List.length_nil] at put
    rw [List.length_singleton] at last
    rw [put,Option.bind_some,last,Option.bind_some,text',text,List.nil_append]
  · intro no
    exact congrArg (Option.bind · _) (past no)

/-! ### The message as JSON -/

theorem beyondDigits {p : Bytes} (rest : ∀ c ∈ p.dropWhile isdigit, numberByte c = true) : ∀ c ∈ p, numberByte c = true := by
  intro c mem
  rw [← List.takeWhile_append_dropWhile (p := isdigit) (l := p)] at mem
  rcases List.mem_append.mp mem with digit | mem
  · simp [numberByte,List.mem_takeWhile_imp digit]
  · exact rest c mem

theorem beyondByte {p : Bytes} {d : UInt8} (first : p.head? = some d) (byte : numberByte d = true)
    (rest : ∀ c ∈ p.tail, numberByte c = true) : ∀ c ∈ p, numberByte c = true := by
  obtain ⟨p,rfl⟩ := List.head?_eq_some_iff.mp first
  intro c mem
  rcases List.mem_cons.mp mem with rfl | mem
  · exact byte
  · exact rest c mem

theorem acceptedBytes {s : Bytes} (ok : isJsonNumber s = true) : ∀ c ∈ s, numberByte c = true := by
  have ended {p : Bytes} (is : p.isEmpty = true) : ∀ c ∈ p, numberByte c = true := by
    rw [List.isEmpty_iff.mp is]
    exact List.forall_mem_nil _
  -- an exponent and the end, or the end
  have exponent {p : Bytes} {dig : Bool} (left : (if p.head? = some 101 ∨ p.head? = some 69 then
      !((if p.tail.head? = some 45 ∨ p.tail.head? = some 43 then p.tail.tail else p.tail).takeWhile isdigit).isEmpty &&
        (dig && ((if p.tail.head? = some 45 ∨ p.tail.head? = some 43 then p.tail.tail else p.tail).dropWhile isdigit).isEmpty)
      else dig && p.isEmpty) = true) : ∀ c ∈ p, numberByte c = true := by
    split at left
    · rename_i mark
      simp only [Bool.and_eq_true] at left
      have digits := beyondDigits (ended left.2.2)
      have signed : ∀ c ∈ p.tail, numberByte c = true := by
        split at digits
        · rename_i sign
          rcases sign with is | is <;> exact beyondByte is (by decide) digits
        · exact digits
      rcases mark with is | is <;> exact beyondByte is (by decide) signed
    · exact ended (Bool.and_eq_true .. |>.mp left).2
  have unsigned : ∀ c ∈ (if s.head? = some 45 then s.tail else s), numberByte c = true := by
    rw [isJsonNumber] at ok
    refine beyondDigits ?_
    generalize (if s.head? = some 45 then s.tail else s).dropWhile isdigit = p at ok ⊢
    by_cases point : p.head? = some 46
    · rw [if_pos point] at ok
      exact beyondByte point (by decide) (beyondDigits (exponent ok))
    · rw [if_neg point] at ok
      exact exponent ok
  split at unsigned
  · rename_i minus
    exact beyondByte minus (by decide) unsigned
  · exact unsigned

theorem numberKind {c : UInt8} (byte : numberByte c = true) : kindByte c = .num ∧ wsByte c = false := by
  simp only [numberByte,decide_eq_true_eq] at byte
  rcases byte with digit | rfl | rfl | rfl | rfl | rfl
  · let n : Number := ⟨false,[c],none,none,⟨⟨List.cons_ne_nil c [],by simpa using digit⟩,.inl rfl⟩,by rintro _ ⟨⟩,by rintro _ _ _ ⟨⟩⟩
    obtain ⟨_,_,eq,_⟩ := numberOpens n
    obtain ⟨d,w,text,kind,black,_⟩ := docOpens (.num n)
    obtain rfl : c = d := (List.cons.inj text).1
    exact ⟨kind,black⟩
  all_goals decide

/-- A bare text that a document stands in the place of is its number. -/
theorem bareNumber {v : Bytes} (ok : isJsonNumber v = true) {d : Doc} {x y : Bytes} (sx : Stop x) (sy : Stop y)
    (same : v ++ x = d.text ++ y) : ∃ n : Number, n.text = v := by
  have some_ : v ≠ [] := by rintro rfl; cases ok
  obtain ⟨c,v,rfl⟩ := List.exists_cons_of_ne_nil some_
  obtain ⟨c',w,eq,kind,_⟩ := docOpens d
  have is := ofKind d
  have bytes := acceptedBytes ok
  have first : c = c' := by
    rw [eq] at same
    exact (List.cons.inj same).1
  rw [← kind,← first,(numberKind (bytes c List.mem_cons_self)).1] at is
  obtain ⟨n,rfl⟩ : ∃ n, d = .num n := is
  have stops {z : Bytes} (s : Stop z) : ∀ c, z.head? = some c → numberByte c = false := by
    intro c is
    by_contra byte
    rw [Bool.not_eq_false] at byte
    rcases s c is with ws | rfl | rfl | rfl
    · rw [(numberKind byte).2] at ws
      cases ws
    all_goals revert byte; decide
  have left := (takeStop bytes (stops sx)).1
  have right := (takeStop (numberBytes n) (stops sy)).1
  refine ⟨n,?_⟩
  rw [← left,same]
  exact right.symm

theorem expAccepted {exp : Option (UInt8 × Option UInt8 × Bytes)}
    (exps : ∀ e s ds, exp = some (e,s,ds) → (e = 101 ∨ e = 69) ∧ (∀ c, s = some c → c = 43 ∨ c = 45) ∧ Digits ds) :
    (if (expText exp).head? = some 101 ∨ (expText exp).head? = some 69 then
      !((if (expText exp).tail.head? = some 45 ∨ (expText exp).tail.head? = some 43 then (expText exp).tail.tail
        else (expText exp).tail).takeWhile isdigit).isEmpty &&
        (true && ((if (expText exp).tail.head? = some 45 ∨ (expText exp).tail.head? = some 43 then (expText exp).tail.tail
          else (expText exp).tail).dropWhile isdigit).isEmpty)
      else true && (expText exp).isEmpty) = true := by
  cases exp with
  | none => rfl
  | some e =>
    obtain ⟨e,sign,ds⟩ := e
    obtain ⟨mark,signs,some_,digits⟩ := exps e sign ds rfl
    rw [expText,List.head?_cons,List.tail_cons,if_pos (mark.imp (congrArg some) (congrArg some))]
    have rest : (if (sign.toList ++ ds).head? = some 45 ∨ (sign.toList ++ ds).head? = some 43 then (sign.toList ++ ds).tail
        else sign.toList ++ ds) = ds := by
      cases sign with
      | some c => exact if_pos ((signs c rfl).symm.imp (congrArg some) (congrArg some))
      | none =>
        obtain ⟨d,w,rfl⟩ := List.exists_cons_of_ne_nil some_
        refine if_neg ?_
        have digit := digits d List.mem_cons_self
        rintro (is | is) <;> cases is <;> cases digit
    have whole := takeStop digits (r := []) fun c (is : none = some c) => by cases is
    rw [List.append_nil] at whole
    rw [rest,whole.1,whole.2]
    simpa using some_

theorem numberAccepted (n : Number) : isJsonNumber n.text = true := by
  obtain ⟨minus,whole,frac,exp,⟨⟨some_,digits⟩,lead⟩,fracs,exps⟩ := n
  have unsigned : (if (Number.text ⟨minus,whole,frac,exp,⟨⟨some_,digits⟩,lead⟩,fracs,exps⟩).head? = some 45 then
      (Number.text ⟨minus,whole,frac,exp,⟨⟨some_,digits⟩,lead⟩,fracs,exps⟩).tail
      else Number.text ⟨minus,whole,frac,exp,⟨⟨some_,digits⟩,lead⟩,fracs,exps⟩) = whole ++ (fracText frac ++ expText exp) := by
    cases minus with
    | true => rfl
    | false =>
      obtain ⟨c,w,rfl⟩ := List.exists_cons_of_ne_nil some_
      exact if_neg fun is => (digitByte (digits c List.mem_cons_self)).1 (Option.some.inj is)
  have mark : ∀ c, (expText exp).head? = some c → c = 101 ∨ c = 69 := by
    intro c is
    cases exp with
    | none => cases is
    | some e =>
      cases is
      exact (exps _ _ _ rfl).1
  have expStop : ∀ c, (expText exp).head? = some c → isdigit c = false := by
    intro c is
    rcases mark c is with rfl | rfl <;> rfl
  have stop : ∀ c, (fracText frac ++ expText exp).head? = some c → isdigit c = false := by
    cases frac with
    | none => exact expStop
    | some ds =>
      rintro c ⟨⟩
      rfl
  obtain ⟨taken,left⟩ := takeStop digits stop
  have dig (f : Bytes) : (!whole.isEmpty || !f.isEmpty) = true := by simp [some_]
  rw [isJsonNumber]
  simp only [unsigned,taken,left]
  cases frac with
  | none =>
    have noDot : (expText exp).head? ≠ some 46 := fun is => by rcases mark 46 is with no | no <;> cases no
    rw [fracText,List.nil_append,if_neg noDot]
    simp only [dig]
    exact expAccepted exps
  | some ds =>
    obtain ⟨fsome,fdigits⟩ := fracs ds rfl
    rw [fracText,List.cons_append,List.head?_cons,if_pos rfl,List.tail_cons,(takeStop fdigits expStop).1,(takeStop fdigits expStop).2]
    simp only [dig]
    exact expAccepted exps

theorem cellDoc {r : Nat} {col : SinkCol} (utf : Utf8Cell r col) (neat : TidyCell r col) :
    ∃ d : Doc, d.text = cellText col.type (col.cell r) ∧ Stands col.type (col.cell r) d.value := by
  have wellFormed := utf.2
  rw [TidyCell] at neat
  generalize col.cell r = cell at neat wellFormed ⊢
  cases cell with
  | none => exact ⟨.null,rfl,.null rfl⟩
  | some v =>
    by_cases sentinel : v = nullSentinel
    · exact ⟨.null,by rw [cellText,if_pos sentinel]; rfl,.null (if_pos sentinel)⟩
    have is : shown (some v) = some v := if_neg sentinel
    rw [cellText,if_neg sentinel]
    by_cases number : isNumeric col.type = true ∧ kafkaIsJsonNum v = true
    · obtain ⟨n,rfl⟩ := tidyNumber number.2 (neat v number.1 is number.2)
      refine ⟨.num n,?_,.number n number.1 is⟩
      rw [if_pos (by simp [bare,number])]
      rfl
    by_cases flag : col.type = .bool ∧ (v = ascii "true" ∨ v = ascii "false")
    · rw [if_pos (by simp [bare,flag])]
      rcases flag.2 with rfl | rfl
      · exact ⟨.bool true,rfl,.flag true flag.1 is⟩
      · exact ⟨.bool false,rfl,.flag false flag.1 is⟩
    have quoted : bare col.type v = false := by
      rw [bare,Bool.or_eq_false_iff,Bool.and_eq_false_iff,decide_eq_false_iff_not]
      exact ⟨by simpa only [Bool.not_eq_true] using not_and_or.mp number,flag⟩
    rw [quoted,if_neg Bool.false_ne_true]
    obtain ⟨cs,rfl⟩ := wellFormed v is
    obtain ⟨ps,text,chars⟩ := quotedPieces cs
    refine ⟨.str ps,by rw [text]; rfl,?_⟩
    rw [Doc.value,chars]
    refine .text cs is (fun numeric n text => number ⟨numeric,?_⟩) fun typed => ?_
    · rw [← text]
      exact numberAccepted n
    · exact ⟨fun is => flag ⟨typed,.inl is⟩,fun is => flag ⟨typed,.inr is⟩⟩

theorem memberDoc {r : Nat} {col : SinkCol} (utf : Utf8Cell r col) (neat : TidyCell r col) : ∃ m : List Piece × Doc,
    memberText m = member r col ∧ (m.1.map Piece.char).flatMap utf8EncodeChar = col.name.getD [] ∧
      Stands col.type (col.cell r) m.2.value := by
  obtain ⟨d,text,stands⟩ := cellDoc utf neat
  obtain ⟨cs,is⟩ := utf.1
  obtain ⟨ps,key,chars⟩ := quotedPieces cs
  refine ⟨(ps,d),?_,by rw [chars,is],stands⟩
  rw [memberText,text,member,is,key,Json.literal]
  simp only [List.cons_append,List.append_assoc,List.nil_append]

/-- Where a message has a member in the place of a column, the cell is tidy and both end together. -/
theorem memberTidy {r : Nat} {col : SinkCol} (utf : Utf8Cell r col) {k : Member} {x y : Bytes} (bx : Behind x) (by_ : Behind y)
    (same : member r col ++ x = k.text ++ y) : TidyCell r col ∧ x = y := by
  have neat : TidyCell r col := by
    intro v numeric is ok
    obtain ⟨before,qs,colon,after,e,behind⟩ := k
    obtain ⟨cs,name⟩ := utf.1
    obtain ⟨ps,key,_⟩ := quotedPieces cs
    have text : member r col = Json.literal ps ++ 58 :: v := by
      have cell : cellText col.type (col.cell r) = v := by
        cases cell : col.cell r with
        | none => rw [cell] at is; cases is
        | some w =>
          rw [cell,shown] at is
          split at is
          · cases is
          · rename_i plain
            cases is
            rw [cellText,if_neg plain,if_pos (by simp [bare,numeric,ok])]
      rw [member,name,key,cell,Json.literal]
      simp only [List.cons_append,List.append_assoc,List.nil_append]
    rw [text] at same
    simp only [Member.text,List.append_assoc,List.cons_append] at same
    have keys := wsUnique (v := Ws.none) (literalBlack ps _) (literalBlack qs _) same
    have colons := wsUnique (v := Ws.none) (closeBlack (by tauto) _) (closeBlack (by tauto) _) (literalUnique keys).2
    obtain ⟨c,w,rfl⟩ := List.exists_cons_of_ne_nil (show v ≠ [] by rintro rfl; cases ok)
    have black : ∀ b, (c :: w ++ x).head? = some b → wsByte b = false := by
      rintro _ ⟨⟩
      exact (numberKind (acceptedBytes ok c List.mem_cons_self)).2
    have docs := wsUnique (v := Ws.none) black (docBlack e _) (List.cons.inj colons).2
    obtain ⟨n,text⟩ := bareNumber ok (behindStop Ws.none bx) (behindStop behind by_) docs
    rw [← text]
    exact numberTidy n
  obtain ⟨m,is,_⟩ := memberDoc utf neat
  rw [← is,← memberTextIs] at same
  exact ⟨neat,(memberUnique _ _ _ _ bx by_ same).2⟩

theorem restBehind (cols : List SinkCol) (r : Nat) (x : Bytes) : Behind (more (cols.map (member r)) ++ 125 :: x) := by
  cases cols with
  | nil => exact ⟨125,x,rfl,.inr (.inr rfl)⟩
  | cons col cols => exact ⟨44,_,rfl,.inl rfl⟩

theorem moreTidy {r : Nat} {cols : List SinkCol} (utf : ∀ col ∈ cols, Utf8Cell r col) {ks : List Member} {x y : Bytes}
    (same : more (cols.map (member r)) ++ 125 :: x = moreMembers ks ++ 125 :: y) : ∀ col ∈ cols, TidyCell r col := by
  induction cols generalizing ks with
  | nil => nofun
  | cons col cols ih =>
    cases ks with
    | nil => exact absurd (List.cons.inj same).1 (by decide)
    | cons k ks =>
      rw [List.map_cons,more,List.flatMap_cons,List.cons_append,moreMembers,List.cons_append,List.append_assoc,List.cons_append,
        List.append_assoc] at same
      obtain ⟨here,rest⟩ := memberTidy (utf col List.mem_cons_self) (restBehind cols r x) (membersBehind ks y) (List.cons.inj same).2
      have later := ih (fun c mem => utf c (List.mem_cons_of_mem _ mem)) rest
      intro c mem
      rcases List.mem_cons.mp mem with rfl | mem
      · exact here
      · exact later c mem

/-- A message that is JSON has tidy numbers only. -/
theorem jsonTidy {r : Nat} {cols : List SinkCol} (utf : ∀ col ∈ cols, Utf8Cell r col) {v : Value}
    (json : Denotes (sofar cols r ++ [125]) v) : ∀ col ∈ cols, TidyCell r col := by
  cases cols with
  | nil => nofun
  | cons col cols =>
    obtain ⟨before,d,behind,same,_⟩ := json
    have inner := wsUnique (v := Ws.none) (x := sofar (col :: cols) r ++ [125]) (by rintro _ ⟨⟩; decide) (docBlack d _) same
    have kind := ofKind d
    obtain ⟨c,w,eq,opens,_⟩ := docOpens d
    have first : 123 = c := by
      rw [eq] at inner
      exact (List.cons.inj inner).1
    rw [← opens,← first] at kind
    have text : sofar (col :: cols) r ++ [125] = 123 :: (member r col ++ (more (cols.map (member r)) ++ [125])) := by
      rw [sofar,List.map_cons,commas,List.cons_append,List.append_assoc]
    rw [text] at inner
    obtain ⟨w,rfl⟩ | ⟨m,ms,rfl⟩ : (∃ w, d = .emptyObj w) ∨ ∃ m ms, d = .obj m ms := kind
    · simp only [Doc.text,List.cons_append,List.append_assoc,List.cons.injEq,true_and,member] at inner
      have rest := wsUnique (v := Ws.none) (by rintro _ ⟨⟩; decide) (closeBlack (by tauto) behind.bytes) inner
      exact absurd (List.cons.inj rest).1 (by decide)
    · simp only [Doc.text,List.cons_append,List.append_assoc,List.cons.injEq,true_and] at inner
      obtain ⟨here,rest⟩ := memberTidy (utf col List.mem_cons_self) (restBehind cols r []) (membersBehind ms behind.bytes) inner
      have later := moreTidy (fun c mem => utf c (List.mem_cons_of_mem _ mem)) rest
      intro c mem
      rcases List.mem_cons.mp mem with rfl | mem
      · exact here
      · exact later c mem

theorem tidyJson {r : Nat} {cols : List SinkCol} (utf : ∀ col ∈ cols, Utf8Cell r col) (neat : ∀ col ∈ cols, TidyCell r col) :
    MessageOf cols r (sofar cols r ++ [125]) := by
  obtain ⟨ms,all⟩ : ∃ ms : List (List Piece × Doc), List.Forall₂ (fun col m => memberText m = member r col ∧
      (m.1.map Piece.char).flatMap utf8EncodeChar = col.name.getD [] ∧ Stands col.type (col.cell r) m.2.value) cols ms := by
    induction cols with
    | nil => exact ⟨[],.nil⟩
    | cons col cols ih =>
      obtain ⟨m,is⟩ := memberDoc (utf col List.mem_cons_self) (neat col List.mem_cons_self)
      obtain ⟨ms,rest⟩ := ih (fun c mem => utf c (List.mem_cons_of_mem _ mem)) fun c mem => neat c (List.mem_cons_of_mem _ mem)
      exact ⟨m :: ms,.cons is rest⟩
  have texts : cols.map (member r) = ms.map memberText := by
    clear utf neat
    induction all with
    | nil => rfl
    | cons one _ ih => rw [List.map_cons,List.map_cons,one.1,ih]
  refine ⟨_,⟨Ws.none,objOf ms,Ws.none,?_,objValue ms⟩,List.forall₂_map_right_iff.mpr (all.imp fun _ _ h => h.2)⟩
  rw [objText,sofar,texts]
  exact (List.append_nil _).symm

/-! ### The sink -/

/-- Every message is written inside its buffer and is the object of its row, and an answer with the full count has handed over all
of them. -/
def Sinks (cols : List SinkCol) (nrows : Nat) : Prop :=
  (∀ r < nrows, ∃ msg, rowMessage cols r = some msg ∧ MessageOf cols r msg) ∧
    ∀ (topicName brokers entity : Bytes) (p : Producer) (taken : List Bytes),
      kafkaWriteBatch topicName brokers entity p cols nrows = some ((nrows : Int),taken) → taken.map some = (List.range nrows).map (rowMessage cols)

theorem fullTaken {cols : List SinkCol} {nrows : Nat} {topicName brokers entity : Bytes} {p : Producer} {taken : List Bytes}
    (full : kafkaWriteBatch topicName brokers entity p cols nrows = some ((nrows : Int),taken)) :
    taken.map some = (List.range nrows).map (rowMessage cols) := by
  have failed {t : List Bytes} : (some (-1,t) : Option (Int × List Bytes)) ≠ some ((nrows : Int),taken) := fun is => by
    have := congrArg Prod.fst (Option.some.inj is)
    dsimp only at this
    omega
  simp only [kafkaWriteBatch] at full
  generalize (if entity = [] then topicName else entity) = topic at full
  split at full
  · exact absurd full failed
  split at full
  · exact absurd full failed
  split at full
  · exact absurd full failed
  rw [Option.bind_eq_bind,Option.bind_eq_some_iff] at full
  obtain ⟨msgs,all,full⟩ := full
  split at full
  · exact absurd full failed
  simp only [Option.some.injEq,Prod.mk.injEq,Nat.cast_inj] at full
  obtain ⟨count,rfl⟩ := full
  have each := Codec.mapMSome.mp all
  have many : msgs.length = nrows := by rw [← each.length_eq,List.length_range]
  have whole : msgs.zipIdx.filter (fun m => p.takes m.2) = msgs.zipIdx := by
    refine List.filter_sublist.eq_of_length ?_
    rw [List.length_zipIdx,many,← count,List.length_map]
  rw [whole,List.zipIdx_map_fst]
  generalize List.range nrows = rows at each
  clear whole count many all failed
  induction each with
  | nil => rfl
  | cons one _ ih => rw [List.map_cons,List.map_cons,one,ih]

variable {cols : List SinkCol} {nrows : Nat}

theorem sinksNeed (utf : ∀ r < nrows, ∀ col ∈ cols, Utf8Cell r col) (sinks : Sinks cols nrows) :
    ∀ r < nrows, Roomy cols r ∧ ∀ col ∈ cols, TidyCell r col := by
  intro r lt
  obtain ⟨msg,is,_,json,_⟩ := sinks.1 r lt
  have roomy : Roomy cols r := by
    by_contra no
    rw [(rowMessageIs cols r).2 no] at is
    cases is
  rw [(rowMessageIs cols r).1 roomy] at is
  cases is
  exact ⟨roomy,jsonTidy (utf r lt) json⟩

/-- The sink does what it should exactly for rows whose commas have room and whose bare numbers are tidy. -/
theorem sinksIff (utf : ∀ r < nrows, ∀ col ∈ cols, Utf8Cell r col) :
    Sinks cols nrows ↔ ∀ r < nrows, Roomy cols r ∧ ∀ col ∈ cols, TidyCell r col := by
  refine ⟨sinksNeed utf,fun good => ⟨fun r lt => ?_,fun _ _ _ _ _ => fullTaken⟩⟩
  obtain ⟨roomy,neat⟩ := good r lt
  exact ⟨_,(rowMessageIs cols r).1 roomy,tidyJson (utf r lt) neat⟩

/-- A number, a name with a quote and a NULL. -/
def order : List SinkCol := [⟨some (ascii "n"),.int64,none,[some (ascii "-7")]⟩,⟨some (ascii "a\"b"),.text,none,[some (ascii "x")]⟩,
  ⟨none,.bool,some [1],[none]⟩]

theorem sinksOrder : Sinks order 1 := by
  refine (sinksIff fun r lt => ?_).mpr fun r lt => ?_
  · obtain rfl : r = 0 := by omega
    have wellFormed (v : Bytes) (low : ∀ c ∈ v, c.toNat < 128) : WellFormed v := QueryJson.asciiWell low
    intro col mem
    simp only [order,List.mem_cons,List.not_mem_nil,or_false] at mem
    rcases mem with rfl | rfl | rfl
    · exact ⟨wellFormed _ (by decide +kernel),fun v is => wellFormed v (by cases is; decide +kernel)⟩
    · exact ⟨wellFormed _ (by decide +kernel),fun v is => wellFormed v (by cases is; decide +kernel)⟩
    · exact ⟨wellFormed _ (by decide +kernel),fun v is => by cases is⟩
  · obtain rfl : r = 0 := by omega
    refine ⟨fun c pos lt k => ?_,fun col mem v numeric is ok => ?_⟩
    · have small : place order 0 c < 255 := by
        have all : ∀ c < order.length, place order 0 c < 255 := by decide
        exact all c lt
      have := Nat.two_pow_pos k
      omega
    · simp only [order,List.mem_cons,List.not_mem_nil,or_false] at mem
      rcases mem with rfl | rfl | rfl
      · cases is
        decide
      · cases numeric
      · cases numeric

/-- A first member that ends one byte before the buffer does. -/
def crowded : List SinkCol := [⟨some (ascii "a"),.text,none,[some (List.replicate 248 120)]⟩,⟨some (ascii "b"),.text,none,[none]⟩]

theorem sinksPast : ¬Sinks crowded 1 ∧
    ¬Sinks [⟨some (ascii "n"),.int64,none,[some (ascii "01")]⟩] 1 := by
  constructor
  · intro sinks
    obtain ⟨msg,is,_⟩ := sinks.1 0 (by decide)
    have long : escapedLength (List.replicate 248 120) = 248 := by
      rw [escapedLength,List.map_replicate,List.sum_replicate_nat]
      rfl
    have other : List.replicate 248 120 ≠ nullSentinel := fun is => by
      have := congrArg List.length is
      rw [List.length_replicate] at this
      cases this
    have cell : cellLength .text (shown (some (List.replicate 248 120))) = 250 := by
      rw [shown,if_neg other,cellLength,long,show bare .text (List.replicate 248 120) = false from rfl,if_neg Bool.false_ne_true]
    have first : memberLength 0 ⟨some (ascii "a"),.text,none,[some (List.replicate 248 120)]⟩ = 254 := by
      simp only [memberLength,SinkCol.cell,nullBit,Bool.false_eq_true,if_false,List.getD_cons_zero,cell]
      rfl
    have tight : place crowded 0 1 + 1 = 256 * 2 ^ 0 := by
      rw [crowded,place,List.take_succ_cons,List.take_zero,List.map_singleton,first]
      rfl
    have second : 1 < crowded.length := by rw [crowded]; exact Nat.lt_succ_self 1
    rw [(rowMessageIs _ 0).2 fun roomy => (roomy 1 (Nat.le_refl 1) second 0).2 tight] at is
    cases is
  · intro sinks
    have needed := sinksNeed (fun r lt col mem => ?_) sinks 0 (by decide)
    · exact absurd (needed.2 _ List.mem_cons_self (ascii "01") rfl (by decide) (by decide)) (by decide)
    · obtain rfl : r = 0 := by omega
      obtain rfl := List.mem_singleton.mp mem
      exact ⟨QueryJson.asciiWell (by decide +kernel),fun v is => by cases is; exact QueryJson.asciiWell (by decide +kernel)⟩

end Napastak.KafkaSink
