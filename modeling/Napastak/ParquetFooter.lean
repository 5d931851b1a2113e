import Napastak.ThriftSkip

/-! `parquet_connector.c`: the metadata at the end of a file, from the bytes of the footer. -/
namespace Napastak.ParquetFooter
open Thrift Fuel

def pqMaxCols : Nat := 256

def pqMaxRg : Nat := 4096

/-- `pq_type` is -1 for a group. -/
structure PqRawSchema where
  name : Bytes := []
  pqType : Int := -1
  repetition : Int := 0
  numChildren : Int := 0
  deriving DecidableEq

structure PqColDef where
  name : Bytes
  pqType : Int
  optional : Bool
  deriving DecidableEq

structure PqColMeta where
  dataPageOffset : Int := 0
  dictPageOffset : Int := 0
  numValues : Int := 0
  totalCompressed : Int := 0
  pqType : Int := 0
  codec : Int := 0
  deriving DecidableEq

structure PqRowGroup where
  numRows : Int := 0
  cols : List PqColMeta := []
  deriving DecidableEq

structure PqFile where
  cols : List PqColDef
  rgs : List PqRowGroup
  deriving DecidableEq

section
variable (move : Move) {α : Type}

def intField (set : Int → α) (b : TBuf) : Except Halt (α × TBuf) := .ok (set (tcI b).1,(tcI b).2)

def skipField (n ft : Nat) (a : α) (b : TBuf) : Except Halt (α × TBuf) := tcSkip move n b ft >>= fun b => .ok (a,b)

/-- `for (i<cnt) tc_skip(b,et)`, which does not look whether the buffer is at its end. -/
def skipCount : Nat → Nat → TBuf → Nat → Except Halt TBuf
  | 0, _, _, _ => .error .fuel
  | _ + 1, 0, b, _ => .ok b
  | n + 1, k + 1, b, et => tcSkip move n b et >>= fun b => skipCount n k b et

def pqElems (elem : Nat → TBuf → Except Halt (α × TBuf)) : Nat → Nat → TBuf → Except Halt (List α × TBuf)
  | 0, _, _ => .error .fuel
  | _ + 1, 0, b => .ok ([],b)
  | n + 1, k + 1, b =>
    if b.pos < b.len then elem n b >>= fun e => pqElems elem n k e.2 >>= fun es => .ok (e.1 :: es.1,es.2) else .ok ([],b)

/-- A list of no more than `max` structs; the elements of another list are skipped. -/
def pqList (max : Nat) (elem : Nat → TBuf → Except Halt (α × TBuf)) (n : Nat) (b : TBuf) : Except Halt (List α × TBuf) :=
  match b.d[b.pos]? with
  | none => .ok ([],b)
  | some h =>
    let r := listHeader b h
    if r.1 ≠ tctStruct then skipCount move n r.2.1.toNat r.2.2 r.1 >>= fun b => .ok ([],b)
    else pqElems elem n (min r.2.1.toNat max) r.2.2

/-- The bytes of the name, no more than 127 of them, are copied from where the buffer stands. -/
def nameField (s : PqRawSchema) (b : TBuf) : Except Halt (PqRawSchema × TBuf) :=
  let r := tcUv b
  let cp := min r.1 127
  if cp = 0 ∨ r.2.pos + cp ≤ r.2.len then move r.2 r.1 >>= fun e => .ok ({s with name := (b.d.drop r.2.pos).take cp},e)
  else .error .outside

def schemaField (n : Nat) (fid : Int) (ft : Nat) (s : PqRawSchema) (b : TBuf) : Except Halt (PqRawSchema × TBuf) :=
  if fid = 1 then intField (fun v => {s with pqType := asInt v}) b
  else if fid = 3 then intField (fun v => {s with repetition := asInt v}) b
  else if fid = 4 then nameField move s b
  else if fid = 5 then intField (fun v => {s with numChildren := asInt v}) b
  else skipField move n ft s b

def pqParseSchemaList : Nat → TBuf → Except Halt (List PqRawSchema × TBuf) :=
  pqList move (pqMaxCols * 2) fun n => tcFields (schemaField move) n 0 {}

/-- The leaves, without the root. -/
def pqCollectLeaves (raw : List PqRawSchema) : List PqColDef :=
  ((raw.tail.filter fun s => s.numChildren = 0).take pqMaxCols).map fun s => ⟨s.name,s.pqType,s.repetition = 1⟩

/-- A field of `ColumnMetaData`. -/
def colMetaField (n : Nat) (fid : Int) (ft : Nat) (cm : PqColMeta) (b : TBuf) : Except Halt (PqColMeta × TBuf) :=
  if fid = 1 then intField (fun v => {cm with pqType := asInt v}) b
  else if fid = 4 then intField (fun v => {cm with codec := asInt v}) b
  else if fid = 5 then intField (fun v => {cm with numValues := v}) b
  else if fid = 6 then intField (fun _ => cm) b
  else if fid = 7 then intField (fun v => {cm with totalCompressed := v}) b
  else if fid = 9 then intField (fun v => {cm with dataPageOffset := v}) b
  else if fid = 11 then intField (fun v => {cm with dictPageOffset := v}) b
  else skipField move n ft cm b

/-- A field of `ColumnChunk`. -/
def colChunkField (n : Nat) (fid : Int) (ft : Nat) (cm : PqColMeta) (b : TBuf) : Except Halt (PqColMeta × TBuf) :=
  if fid = 2 then intField (fun _ => cm) b
  else if fid = 3 then tcFields (colMetaField move) n 0 cm b
  else skipField move n ft cm b

def pqParseColList : Nat → TBuf → Except Halt (List PqColMeta × TBuf) :=
  pqList move pqMaxCols fun n => tcFields (colChunkField move) n 0 {}

def rowGroupField (n : Nat) (fid : Int) (ft : Nat) (rg : PqRowGroup) (b : TBuf) : Except Halt (PqRowGroup × TBuf) :=
  if fid = 1 then pqParseColList move n b >>= fun e => .ok ({rg with cols := e.1},e.2)
  else if fid = 2 then intField (fun _ => rg) b
  else if fid = 3 then intField (fun v => {rg with numRows := v}) b
  else skipField move n ft rg b

def pqParseRgList : Nat → TBuf → Except Halt (List PqRowGroup × TBuf) :=
  pqList move pqMaxRg fun n => tcFields (rowGroupField move) n 0 {}

/-- A field of `FileMetaData`; what is read so far are the schema and the row groups. -/
def footerField (n : Nat) (fid : Int) (ft : Nat) (f : List PqRawSchema × List PqRowGroup) (b : TBuf) :
    Except Halt ((List PqRawSchema × List PqRowGroup) × TBuf) :=
  if fid = 1 then intField (fun _ => f) b
  else if fid = 2 then pqParseSchemaList move n b >>= fun e => .ok ((e.1,f.2),e.2)
  else if fid = 3 then intField (fun _ => f) b
  else if fid = 4 then pqParseRgList move n b >>= fun e => .ok ((f.1,e.1),e.2)
  else skipField move n ft f b

/-- `pq_parse_footer`: none where it returns -1. -/
def pqParseFooter (n : Nat) (data : Bytes) : Except Halt (Option PqFile) :=
  tcFields (footerField move) n 0 ([],[]) ⟨data,0⟩ >>= fun e =>
    .ok (if pqCollectLeaves e.1.1 = [] then none else some ⟨pqCollectLeaves e.1.1,e.1.2⟩)

end

/-! ### Every step goes on -/

def left (b : TBuf) : Nat := b.len - b.pos

/-- The same buffer, no earlier. -/
def Later (b e : TBuf) : Prop := e.d = b.d ∧ b.pos ≤ e.pos

theorem laterSelf (b : TBuf) : Later b b := ⟨rfl,Nat.le_refl _⟩

theorem laterTrans {b e g : TBuf} (first : Later b e) (next : Later e g) : Later b g := ⟨next.1.trans first.1,first.2.trans next.2⟩

theorem leftLater {b e : TBuf} (later : Later b e) : left e ≤ left b := by
  have := later.2
  simp only [left,TBuf.len,later.1]
  omega

theorem leftPast {b e : TBuf} (same : e.d = b.d) (inside : b.pos < b.len) (past : b.pos < e.pos) : left e < left b := by
  simp only [left,TBuf.len,same] at inside ⊢
  omega

theorem uvLater (b : TBuf) : Later b (tcUv b).2 := ⟨rfl,Nat.le_add_right ..⟩

theorem tcILater (b : TBuf) : Later b (tcI b).2 := uvLater b

theorem stepPast {b : TBuf} {c : UInt8} (at_ : b.d[b.pos]? = some c) {e : TBuf} (later : Later ⟨b.d,b.pos + 1⟩ e) : Later b e ∧ left e < left b := by
  obtain ⟨inside,-⟩ := List.getElem?_eq_some_iff.mp at_
  have past : b.pos + 1 ≤ e.pos := later.2
  exact ⟨⟨later.1,by omega⟩,leftPast later.1 inside (by omega)⟩

theorem headerLater (b : TBuf) (h : UInt8) : Later ⟨b.d,b.pos + 1⟩ (listHeader b h).2.2 := by
  rw [listHeader]
  split
  · exact uvLater _
  · exact laterSelf _

theorem nextLater (b : TBuf) (last : Int) : Later b (tcNext b last).2 ∧ ∀ f, (tcNext b last).1 = some f → left (tcNext b last).2 < left b := by
  rw [tcNext]
  cases at_ : b.d[b.pos]? with
  | none => exact ⟨laterSelf b,fun f is => by cases is⟩
  | some c =>
    dsimp only
    split
    · exact ⟨(stepPast at_ (laterSelf _)).1,fun f is => by cases is⟩
    · split
      · exact ⟨(stepPast at_ (laterSelf _)).1,fun _ _ => (stepPast at_ (laterSelf _)).2⟩
      · exact ⟨(stepPast at_ (tcILater _)).1,fun _ _ => (stepPast at_ (tcILater _)).2⟩

theorem aheadEnds (b : TBuf) (l : Nat) : Ends .fuel (Later b) (fun _ => ahead b l) := by
  simp only [ahead]
  split
  · exact endsOk ⟨rfl,Nat.le_add_right ..⟩
  · exact endsError (by decide)

/-- A result behind a position, seen from an earlier one. -/
theorem endsFrom {b e : TBuf} {f : Nat → Except Halt TBuf} (ends : Ends .fuel (Later e) f) (later : Later b e) : Ends .fuel (Later b) f :=
  endsMono ends fun _ next => laterTrans later next

theorem elemsEnd {m : Nat} (each : ∀ b t, left b ≤ m → Ends .fuel (Later b) (fun n => tcSkip ahead n b t)) (k et : Nat) (b : TBuf)
    (short : left b ≤ m) : Ends .fuel (Later b) (fun n => tcSkipElems ahead n k b et) := by
  induction k generalizing b with
  | zero => exact endsSucc (endsOk (laterSelf b))
  | succ k ih =>
    refine endsSucc ?_
    simp only [tcSkipElems]
    split
    · exact endsBind (each b et short) fun e later => endsFrom (ih e ((leftLater later).trans short)) later
    · exact endsOk (laterSelf b)

theorem pairsEnd {m : Nat} (each : ∀ b t, left b ≤ m → Ends .fuel (Later b) (fun n => tcSkip ahead n b t)) (k kt vt : Nat) (b : TBuf)
    (short : left b ≤ m) : Ends .fuel (Later b) (fun n => tcSkipPairs ahead n k b kt vt) := by
  induction k generalizing b with
  | zero => exact endsSucc (endsOk (laterSelf b))
  | succ k ih =>
    refine endsSucc ?_
    simp only [tcSkipPairs]
    split
    · refine endsBind (each b kt short) fun e later => ?_
      refine endsFrom (endsBind (each e vt ((leftLater later).trans short)) fun g next => ?_) later
      exact endsFrom (ih g ((leftLater (laterTrans later next)).trans short)) next
    · exact endsOk (laterSelf b)

/-- Where no step goes over 2^64 a value is skipped or a byte outside is read. -/
theorem skipEnds (b : TBuf) : (∀ t, Ends .fuel (Later b) (fun n => tcSkip ahead n b t)) ∧ Ends .fuel (Later b) (fun n => tcSkipStruct ahead n b) := by
  induction size : left b using Nat.strong_induction_on generalizing b with
  | _ m ih =>
    subst size
    have smaller {e : TBuf} (less : left e < left b) (c : TBuf) (t : Nat) (short : left c ≤ left e) :
        Ends .fuel (Later c) (fun n => tcSkip ahead n c t) := (ih _ (by omega) c rfl).1 t
    have fields : Ends .fuel (Later b) (fun n => tcSkipStruct ahead n b) := by
      obtain ⟨later,less⟩ := nextLater b 0
      refine endsSucc ?_
      simp only [tcSkipStruct]
      cases field : (tcNext b 0).1 with
      | none => exact endsOk later
      | some f =>
        have short := less f field
        refine endsFrom (endsBind (smaller short _ f.2 (Nat.le_refl _)) fun e next => ?_) later
        exact endsFrom (ih _ (Nat.lt_of_le_of_lt (leftLater next) short) e rfl).2 next
    refine ⟨fun t => ?_,fields⟩
    refine endsSucc ?_
    simp only [tcSkip]
    repeat' split
    · exact aheadEnds b 1
    · exact endsOk (uvLater b)
    · refine endsBind (aheadEnds b 8) fun e later => endsOk ?_
      split
      · exact later
      · exact laterSelf b
    · exact endsFrom (aheadEnds _ _) (uvLater b)
    · refine endsSucc ?_
      simp only [tcSkipList]
      cases at_ : b.d[b.pos]? with
      | none => exact endsOk (laterSelf b)
      | some h =>
        obtain ⟨later,less⟩ := stepPast at_ (headerLater b h)
        exact endsFrom (elemsEnd (smaller less) _ _ _ (Nat.le_refl _)) later
    · exact endsOk (uvLater b)
    · exact endsError (by decide)
    · rename_i types at_
      obtain ⟨later,less⟩ := stepPast at_ (laterSelf _)
      have whole := laterTrans (uvLater b) later
      exact endsFrom (pairsEnd (smaller (Nat.lt_of_lt_of_le less (leftLater (uvLater b)))) _ _ _ _ (Nat.le_refl _)) whole
    · exact fields
    · exact endsOk (laterSelf b)

section
variable {α : Type}

def After (b : TBuf) (r : α × TBuf) : Prop := Later b r.2

theorem intEnds (set : Int → α) (b : TBuf) : Ends .fuel (After b) (fun _ => intField set b) := endsOk (tcILater b)

theorem skipFieldEnds (ft : Nat) (a : α) (b : TBuf) : Ends .fuel (After b) (fun n => skipField ahead n ft a b) :=
  endsBind ((skipEnds b).1 ft) fun _ later => endsOk later

theorem fieldsEnd {field : Nat → Int → Nat → α → TBuf → Except Halt (α × TBuf)}
    (each : ∀ fid ft a b, Ends .fuel (After b) (fun n => field n fid ft a b)) (last : Int) (a : α) (b : TBuf) :
    Ends .fuel (After b) (fun n => tcFields field n last a b) := by
  induction size : left b using Nat.strong_induction_on generalizing last a b with
  | _ m ih =>
    subst size
    obtain ⟨later,less⟩ := nextLater b last
    refine endsSucc ?_
    simp only [tcFields]
    cases is : (tcNext b last).1 with
    | none => exact endsOk later
    | some f =>
      refine endsBind (each f.1 f.2 a _) fun e next => ?_
      have short : left e.2 < left b := Nat.lt_of_le_of_lt (leftLater next) (less f is)
      exact endsMono (ih _ short f.1 e.1 e.2 rfl) fun g last => laterTrans (laterTrans later next) last

theorem countEnds (k et : Nat) (b : TBuf) : Ends .fuel (Later b) (fun n => skipCount ahead n k b et) := by
  induction k generalizing b with
  | zero => exact endsSucc (endsOk (laterSelf b))
  | succ k ih =>
    refine endsSucc ?_
    simp only [skipCount]
    exact endsBind ((skipEnds b).1 et) fun e later => endsFrom (ih e) later

theorem pqElemsEnd {elem : Nat → TBuf → Except Halt (α × TBuf)} (each : ∀ b, Ends .fuel (After b) (fun n => elem n b)) (k : Nat) (b : TBuf) :
    Ends .fuel (After b) (fun n => pqElems elem n k b) := by
  induction k generalizing b with
  | zero => exact endsSucc (endsOk (laterSelf b))
  | succ k ih =>
    refine endsSucc ?_
    simp only [pqElems]
    split
    · refine endsBind (each b) fun e later => endsBind (ih e.2) fun es next => endsOk ?_
      exact laterTrans later next
    · exact endsOk (laterSelf b)

theorem listEnds {elem : Nat → TBuf → Except Halt (α × TBuf)} (each : ∀ b, Ends .fuel (After b) (fun n => elem n b)) (max : Nat) (b : TBuf) :
    Ends .fuel (After b) (fun n => pqList ahead max elem n b) := by
  simp only [pqList]
  cases at_ : b.d[b.pos]? with
  | none => exact endsOk (laterSelf b)
  | some h =>
    have later := (stepPast at_ (headerLater b h)).1
    dsimp only
    split
    · exact endsBind (countEnds _ _ _) fun e next => endsOk (laterTrans later next)
    · exact endsMono (pqElemsEnd each _ _) fun e next => laterTrans later next

end

theorem nameEnds (s : PqRawSchema) (b : TBuf) : Ends .fuel (After b) (fun _ => nameField ahead s b) := by
  simp only [nameField]
  split
  · exact endsBind (aheadEnds _ _) fun e later => endsOk (laterTrans (uvLater b) later)
  · exact endsError (by decide)

theorem schemaEnds (fid : Int) (ft : Nat) (s : PqRawSchema) (b : TBuf) : Ends .fuel (After b) (fun n => schemaField ahead n fid ft s b) := by
  simp only [schemaField]
  repeat' split
  · exact intEnds _ b
  · exact intEnds _ b
  · exact nameEnds s b
  · exact intEnds _ b
  · exact skipFieldEnds ft s b

theorem colMetaEnds (fid : Int) (ft : Nat) (cm : PqColMeta) (b : TBuf) : Ends .fuel (After b) (fun n => colMetaField ahead n fid ft cm b) := by
  simp only [colMetaField]
  repeat' split
  all_goals first | exact intEnds _ b | exact skipFieldEnds ft cm b

theorem colChunkEnds (fid : Int) (ft : Nat) (cm : PqColMeta) (b : TBuf) : Ends .fuel (After b) (fun n => colChunkField ahead n fid ft cm b) := by
  simp only [colChunkField]
  repeat' split
  · exact intEnds _ b
  · exact fieldsEnd colMetaEnds 0 cm b
  · exact skipFieldEnds ft cm b

theorem rowGroupEnds (fid : Int) (ft : Nat) (rg : PqRowGroup) (b : TBuf) : Ends .fuel (After b) (fun n => rowGroupField ahead n fid ft rg b) := by
  simp only [rowGroupField]
  repeat' split
  · exact endsBind (listEnds (fieldsEnd colChunkEnds 0 {}) _ b) fun e later => endsOk later
  · exact intEnds _ b
  · exact intEnds _ b
  · exact skipFieldEnds ft rg b

theorem footerFieldEnds (fid : Int) (ft : Nat) (f : List PqRawSchema × List PqRowGroup) (b : TBuf) :
    Ends .fuel (After b) (fun n => footerField ahead n fid ft f b) := by
  simp only [footerField]
  repeat' split
  · exact intEnds _ b
  · exact endsBind (listEnds (fieldsEnd schemaEnds 0 {}) _ b) fun e later => endsOk later
  · exact intEnds _ b
  · exact endsBind (listEnds (fieldsEnd rowGroupEnds 0 {}) _ b) fun e later => endsOk later
  · exact skipFieldEnds ft f b

theorem footerEnds (data : Bytes) : Ends .fuel (fun _ => True) (fun n => pqParseFooter ahead n data) :=
  endsBind (fieldsEnd footerFieldEnds 0 ([],[]) ⟨data,0⟩) fun _ _ => endsOk trivial

/-! ### The code's own steps -/

theorem moveAgrees (b : TBuf) (l : Nat) : Agrees .wraps (ahead b l) (wrap b l) := by
  intro other
  rw [ahead] at other ⊢
  split at other
  · rename_i below
    rw [if_pos below,wrap,Nat.mod_eq_of_lt below]
  · exact absurd rfl other

/-- Where no step goes over 2^64 the code does as if none could. -/
theorem skipAgrees (n : Nat) :
    (∀ b t, Agrees .wraps (tcSkip ahead n b t) (tcSkip wrap n b t)) ∧
    (∀ b, Agrees .wraps (tcSkipList ahead n b) (tcSkipList wrap n b)) ∧
    (∀ k b et, Agrees .wraps (tcSkipElems ahead n k b et) (tcSkipElems wrap n k b et)) ∧
    (∀ k b kt vt, Agrees .wraps (tcSkipPairs ahead n k b kt vt) (tcSkipPairs wrap n k b kt vt)) ∧
    ∀ b, Agrees .wraps (tcSkipStruct ahead n b) (tcSkipStruct wrap n b) := by
  induction n with
  | zero => exact ⟨fun _ _ => agreesSelf _,fun _ => agreesSelf _,fun _ _ _ => agreesSelf _,fun _ _ _ _ => agreesSelf _,fun _ => agreesSelf _⟩
  | succ n ih =>
    obtain ⟨value,list,elems,pairs,fields⟩ := ih
    refine ⟨fun b t => ?_,fun b => ?_,fun k b et => ?_,fun k b kt vt => ?_,fun b => ?_⟩
    · simp only [tcSkip]
      repeat' split
      · exact moveAgrees b 1
      · exact agreesSelf _
      · exact agreesBind (moveAgrees b 8) fun _ => agreesSelf _
      · exact moveAgrees _ _
      · exact list b
      · exact agreesSelf _
      · exact agreesSelf _
      · exact pairs _ _ _ _
      · exact fields b
      · exact agreesSelf _
    · rw [tcSkipList,tcSkipList]
      split
      · exact agreesSelf _
      · exact elems _ _ _
    · cases k with
      | zero => exact agreesSelf _
      | succ k =>
        rw [tcSkipElems,tcSkipElems]
        split
        · exact agreesBind (value b et) fun e => elems k e et
        · exact agreesSelf _
    · cases k with
      | zero => exact agreesSelf _
      | succ k =>
        rw [tcSkipPairs,tcSkipPairs]
        split
        · exact agreesBind (value b kt) fun e => agreesBind (value e vt) fun g => pairs k g kt vt
        · exact agreesSelf _
    · rw [tcSkipStruct,tcSkipStruct]
      split
      · exact agreesSelf _
      · exact agreesBind (value _ _) fun e => fields e

section
variable {α : Type} (n : Nat)

theorem skipFieldAgrees (ft : Nat) (a : α) (b : TBuf) : Agrees .wraps (skipField ahead n ft a b) (skipField wrap n ft a b) :=
  agreesBind ((skipAgrees n).1 b ft) fun _ => agreesSelf _

theorem fieldsAgree {field field' : Nat → Int → Nat → α → TBuf → Except Halt (α × TBuf)}
    (each : ∀ n fid ft a b, Agrees .wraps (field n fid ft a b) (field' n fid ft a b)) (last : Int) (a : α) (b : TBuf) :
    Agrees .wraps (tcFields field n last a b) (tcFields field' n last a b) := by
  induction n generalizing last a b with
  | zero => exact agreesSelf _
  | succ n ih =>
    rw [tcFields,tcFields]
    split
    · exact agreesSelf _
    · exact agreesBind (each n _ _ _ _) fun e => ih _ _ _

theorem countAgrees (k et : Nat) (b : TBuf) : Agrees .wraps (skipCount ahead n k b et) (skipCount wrap n k b et) := by
  induction n generalizing k b with
  | zero => exact agreesSelf _
  | succ n ih =>
    cases k with
    | zero => exact agreesSelf _
    | succ k => exact agreesBind ((skipAgrees n).1 b et) fun e => ih k e

theorem pqElemsAgree {elem elem' : Nat → TBuf → Except Halt (α × TBuf)} (each : ∀ n b, Agrees .wraps (elem n b) (elem' n b)) (k : Nat) (b : TBuf) :
    Agrees .wraps (pqElems elem n k b) (pqElems elem' n k b) := by
  induction n generalizing k b with
  | zero => exact agreesSelf _
  | succ n ih =>
    cases k with
    | zero => exact agreesSelf _
    | succ k =>
      rw [pqElems,pqElems]
      split
      · exact agreesBind (each n b) fun e => agreesBind (ih k e.2) fun _ => agreesSelf _
      · exact agreesSelf _

theorem listAgrees {elem elem' : Nat → TBuf → Except Halt (α × TBuf)} (each : ∀ n b, Agrees .wraps (elem n b) (elem' n b)) (max : Nat) (b : TBuf) :
    Agrees .wraps (pqList ahead max elem n b) (pqList wrap max elem' n b) := by
  simp only [pqList]
  split
  · exact agreesSelf _
  · split
    · exact agreesBind (countAgrees n _ _ _) fun _ => agreesSelf _
    · exact pqElemsAgree n each _ _

end

theorem nameAgrees (s : PqRawSchema) (b : TBuf) : Agrees .wraps (nameField ahead s b) (nameField wrap s b) := by
  simp only [nameField]
  split
  · exact agreesBind (moveAgrees _ _) fun _ => agreesSelf _
  · exact agreesSelf _

theorem schemaAgrees (n : Nat) (fid : Int) (ft : Nat) (s : PqRawSchema) (b : TBuf) :
    Agrees .wraps (schemaField ahead n fid ft s b) (schemaField wrap n fid ft s b) := by
  simp only [schemaField]
  repeat' split
  · exact agreesSelf _
  · exact agreesSelf _
  · exact nameAgrees s b
  · exact agreesSelf _
  · exact skipFieldAgrees n ft s b

theorem colMetaAgrees (n : Nat) (fid : Int) (ft : Nat) (cm : PqColMeta) (b : TBuf) :
    Agrees .wraps (colMetaField ahead n fid ft cm b) (colMetaField wrap n fid ft cm b) := by
  simp only [colMetaField]
  repeat' split
  all_goals first | exact agreesSelf _ | exact skipFieldAgrees n ft cm b

theorem colChunkAgrees (n : Nat) (fid : Int) (ft : Nat) (cm : PqColMeta) (b : TBuf) :
    Agrees .wraps (colChunkField ahead n fid ft cm b) (colChunkField wrap n fid ft cm b) := by
  simp only [colChunkField]
  repeat' split
  · exact agreesSelf _
  · exact fieldsAgree n colMetaAgrees 0 cm b
  · exact skipFieldAgrees n ft cm b

theorem rowGroupAgrees (n : Nat) (fid : Int) (ft : Nat) (rg : PqRowGroup) (b : TBuf) :
    Agrees .wraps (rowGroupField ahead n fid ft rg b) (rowGroupField wrap n fid ft rg b) := by
  simp only [rowGroupField]
  repeat' split
  · exact agreesBind (listAgrees n (fun n => fieldsAgree n colChunkAgrees 0 {}) _ b) fun _ => agreesSelf _
  · exact agreesSelf _
  · exact agreesSelf _
  · exact skipFieldAgrees n ft rg b

theorem footerFieldAgrees (n : Nat) (fid : Int) (ft : Nat) (f : List PqRawSchema × List PqRowGroup) (b : TBuf) :
    Agrees .wraps (footerField ahead n fid ft f b) (footerField wrap n fid ft f b) := by
  simp only [footerField]
  repeat' split
  · exact agreesSelf _
  · exact agreesBind (listAgrees n (fun n => fieldsAgree n schemaAgrees 0 {}) _ b) fun _ => agreesSelf _
  · exact agreesSelf _
  · exact agreesBind (listAgrees n (fun n => fieldsAgree n rowGroupAgrees 0 {}) _ b) fun _ => agreesSelf _
  · exact skipFieldAgrees n ft f b

theorem footerAgrees (n : Nat) (data : Bytes) : Agrees .wraps (pqParseFooter ahead n data) (pqParseFooter wrap n data) :=
  agreesBind (fieldsAgree n footerFieldAgrees 0 ([],[]) ⟨data,0⟩) fun _ => agreesSelf _

/-! ### All footers -/

/-- The parse comes to its end, and every byte it reads is one of the footer. -/
def Parsed (data : Bytes) : Prop := ∃ f, Runs (fun n => pqParseFooter wrap n data) (.ok f)

/-- The run meets a length that takes the position over 2^64. -/
def Wraps (data : Bytes) : Prop := Runs (fun n => pqParseFooter ahead n data) (.error .wraps)

/-- The run comes to the types of a map, or to a name, that are not all in the footer. -/
def ReadsOut (data : Bytes) : Prop := Runs (fun n => pqParseFooter ahead n data) (.error .outside)

theorem parsedIff {data : Bytes} (straight : ¬Wraps data) : Parsed data ↔ ¬ReadsOut data := by
  obtain ⟨r,runs,ends,-⟩ := footerEnds data
  have other : r ≠ .error .wraps := by
    rintro rfl
    exact straight runs
  have code := runsAgree (fun n => footerAgrees n data) runs other
  constructor
  · rintro ⟨f,parsed⟩ out
    cases runsUnique parsed code
    cases runsUnique runs out
  · intro inside
    cases r with
    | ok f => exact ⟨f,code⟩
    | error e =>
      cases e with
      | fuel => exact absurd rfl ends
      | wraps => exact absurd rfl other
      | outside => exact absurd runs inside

/-- A struct with a flag and a list of numbers. -/
def sample : TVal := .struct [(1,.bool true),(20,.list false .i32 [.number .i32 5,.number .i32 (-7)])]

/-- Version 1 and a schema with one column `a`. -/
def oneColumn : Bytes := [0x15,2,0x19,0x2C,0x48,1,114,0x15,2,0,0x15,4,0x38,1,97,0,0x16,0,0]

theorem oneColumnRuns : Runs (fun n => pqParseFooter ahead n oneColumn) (.ok (some ⟨[⟨[97],2,false⟩],[]⟩)) :=
  runsSucc (runsSucc (runsSucc (runsSucc (runsSucc (runsSucc (runsSucc (runsSucc (runsSucc (runsSucc (runsConst _))))))))))

/-- A binary of 2^64 - 12 bytes, behind which the position is 0 again. -/
def backwards : Bytes := [0x08,0x12,0xF4,0xFF,0xFF,0xFF,0xFF,0xFF,0xFF,0xFF,0xFF,0x01]

theorem backwardsLoops (n : Nat) (last : Int) (f : List PqRawSchema × List PqRowGroup) :
    tcFields (footerField wrap) n last f ⟨backwards,0⟩ = .error .fuel := by
  induction n generalizing last f with
  | zero => rfl
  | succ n ih =>
    have header : tcNext ⟨backwards,0⟩ last = (some (9,8),⟨backwards,2⟩) := rfl
    rw [tcFields,header]
    cases n with
    | zero => rfl
    | succ n =>
      have back : tcSkip wrap (n + 1) ⟨backwards,2⟩ 8 = .ok ⟨backwards,0⟩ := by
        rw [skipBinary]
        decide
      change (tcSkip wrap (n + 1) ⟨backwards,2⟩ 8 >>= fun b => Except.ok (f,b)) >>= _ = _
      rw [back]
      exact ih 9 f

end Napastak.ParquetFooter
