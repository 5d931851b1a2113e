import Napastak.Yaml
import Mathlib.Data.List.DropRight

/-! What the indentation of the lines says, and when the walk over them writes just that. -/
namespace Napastak.Yaml
open Query Sql

/-! ### The reading of the lines -/

/-- A blank line, a comment or a document marker. -/
def Quiet (l : YamlLine) : Prop := l.kind = .docMarker ∨ l.kind = .blank ∧ isBlank (stripComment l.raw) = true

/-- The first line that is to be read, behind quiet ones. -/
def Next (ls : List YamlLine) (l : YamlLine) (rest : List YamlLine) : Prop :=
  ∃ qs, ls = qs ++ l :: rest ∧ (∀ q ∈ qs, Quiet q) ∧ l.kind.isSkipped = false

/-- The column of the key behind a dash. -/
def keyColumn (l : YamlLine) : Nat := l.indent + 1 + countIndent (l.raw.drop (l.indent + 1))

/-- The text behind the colon of a line. -/
def lineValue (l : YamlLine) : Bytes :=
  ((findColon none ((stripComment l.raw).drop l.indent)).map fun p => skipSpaces p.2).getD []

section
variable (F : Type) [Doubles F]

/-- What stands behind the closing quote or bracket of a value. -/
def behind (text : Bytes) (lineno : Nat) : Bytes :=
  match text with
  | [] => []
  | c :: s =>
    if c = 91 then
      match flowSeq (F := F) text lineno with
      | .ok (_,rest) => rest
      | .error _ => []
    else if c = 34 ∨ c = 39 then ((parseQuoted c s).map (·.2)).getD []
    else []

variable {F}

/-- The value on a line, all of it. -/
def InlineValue (l : YamlLine) (t : YTree F) : Prop := emitInline l = .ok t ∧ behind F (l.value.getD []) l.lineno = []

/-- A block scalar: nothing stands behind its head, and its lines stand to the right of its key. -/
def BlockValue (column : Nat) (kind : UInt8) (head : Bytes) (ls : List YamlLine) (text : Bytes) (ls' : List YamlLine) : Prop :=
  isBlank (head.drop 1) = true ∧ emitBlockScalar kind ls = (text,ls') ∧
    ∃ body, ls = body ++ ls' ∧ ∀ b ∈ body, Quiet b ∨ column < countIndent b.raw

/-- The value on the line of a dash and a key, and below it for a block scalar. -/
def HeadValue (l : YamlLine) (rest : List YamlLine) (t : YTree F) (ls' : List YamlLine) : Prop :=
  l.value.getD [] ≠ [] ∧
    (blockHead (l.value.getD []) = false ∧ InlineValue l t ∧ ls' = rest ∨
      blockHead (l.value.getD []) = true ∧ ∃ text, t = .str text ∧ 
        BlockValue (keyColumn l) ((l.value.getD []).headD 0) (l.value.getD []) rest text ls')

mutual
/-- The keys of a mapping stand in one column, the items of a sequence in one column, and what belongs to a key or a
dash stands to the right of it; a sequence may stand level with its key. The lines from the first list on give the
value and leave the second. With `strict` a sequence level with its key is only read behind a dash, further keys behind
a dash stand two columns from it, and none follow a first key without a value. -/
inductive Fields (strict : Prop) : Nat → List YamlLine → List (Bytes × YTree F) → List YamlLine → Prop
  | stop {c : Nat} {ls : List YamlLine} : Fields strict c ls [] ls
  | inline {c : Nat} {ls rest ls' : List YamlLine} {l : YamlLine} {t : YTree F} {fs : List (Bytes × YTree F)} :
      Next ls l rest → l.indent = c → l.kind = .mapKv → InlineValue l t → Fields strict c rest fs ls' →
      Fields strict c ls ((l.key,t) :: fs) ls'
  | block {c : Nat} {ls rest ls₁ ls' : List YamlLine} {l : YamlLine} {text : Bytes} {fs : List (Bytes × YTree F)} :
      Next ls l rest → l.indent = c → l.kind = .mapBlockScalar → BlockValue c l.bsKind (lineValue l) rest text ls₁ →
      Fields strict c ls₁ fs ls' → Fields strict c ls ((l.key,.str text) :: fs) ls'
  | nested {c : Nat} {level : Bool} {ls rest ls₁ ls' : List YamlLine} {l : YamlLine} {t : YTree F} {fs : List (Bytes × YTree F)} :
      Next ls l rest → l.indent = c → l.kind = .mapKeyOnly → (strict → level = false) → Value strict level c rest t ls₁ →
      Fields strict c ls₁ fs ls' → Fields strict c ls ((l.key,t) :: fs) ls'
inductive Items (strict : Prop) : Nat → List YamlLine → List (YTree F) → List YamlLine → Prop
  | stop {c : Nat} {ls : List YamlLine} : Items strict c ls [] ls
  | inline {c : Nat} {ls rest ls' : List YamlLine} {l : YamlLine} {t : YTree F} {ts : List (YTree F)} :
      Next ls l rest → l.indent = c → l.kind = .seqInline → InlineValue l t → Items strict c rest ts ls' →
      Items strict c ls (t :: ts) ls'
  | nested {c : Nat} {ls rest ls₁ ls' : List YamlLine} {l : YamlLine} {t : YTree F} {ts : List (YTree F)} :
      Next ls l rest → l.indent = c → l.kind = .seqBlock → Value strict false c rest t ls₁ → Items strict c ls₁ ts ls' →
      Items strict c ls (t :: ts) ls'
  | fields {c : Nat} {ls rest ls₁ ls₂ ls' : List YamlLine} {l : YamlLine} {t : YTree F} {fs : List (Bytes × YTree F)}
      {ts : List (YTree F)} :
      Next ls l rest → l.indent = c → l.kind = .seqKv → HeadValue l rest t ls₁ → Fields strict (keyColumn l) ls₁ fs ls₂ →
      (strict → fs ≠ [] → keyColumn l = c + 2) → Items strict c ls₂ ts ls' → Items strict c ls (.obj ((l.key,t) :: fs) :: ts) ls'
  | openFields {c : Nat} {ls rest ls₁ ls₂ ls' : List YamlLine} {l : YamlLine} {t : YTree F} {fs : List (Bytes × YTree F)}
      {ts : List (YTree F)} :
      Next ls l rest → l.indent = c → l.kind = .seqKv → l.value.getD [] = [] → Value strict true (keyColumn l) rest t ls₁ →
      Fields strict (keyColumn l) ls₁ fs ls₂ → (strict → fs ≠ [] → keyColumn l = c + 2 ∧ t ≠ .null) → Items strict c ls₂ ts ls' →
      Items strict c ls (.obj ((l.key,t) :: fs) :: ts) ls'
/-- The value of a key or dash of the column with nothing on its line. -/
inductive Value (strict : Prop) : Bool → Nat → List YamlLine → YTree F → List YamlLine → Prop
  | null {level : Bool} {c : Nat} {ls : List YamlLine} : Value strict level c ls .null ls
  | fields {level : Bool} {c : Nat} {ls rest ls' : List YamlLine} {l : YamlLine} {fs : List (Bytes × YTree F)} :
      Next ls l rest → c < l.indent → fs ≠ [] → Fields strict l.indent ls fs ls' → Value strict level c ls (.obj fs) ls'
  | items {level : Bool} {c : Nat} {ls rest ls' : List YamlLine} {l : YamlLine} {ts : List (YTree F)} :
      Next ls l rest → c < l.indent ∨ level = true ∧ l.indent = c → ts ≠ [] → Items strict l.indent ls ts ls' →
      Value strict level c ls (.arr ts) ls'
end

/-- All lines of a document are read. -/
def Document (strict : Prop) (ls : List YamlLine) (t : YTree F) : Prop :=
  (t = .null ∧ ∀ l ∈ ls, Quiet l) ∨ ∃ l rest ls', Next ls l rest ∧ (∀ q ∈ ls', Quiet q) ∧
    ((∃ fs, t = .obj fs ∧ fs ≠ [] ∧ Fields strict l.indent ls fs ls') ∨ ∃ ts, t = .arr ts ∧ ts ≠ [] ∧ Items strict l.indent ls ts ls')

/-- Every line that is not quiet is in the JSON, where its indentation puts it. -/
def Contributes (src : Bytes) (t : YTree F) : Prop :=
  ∃ ls, preprocess 1 none (sourceLines src) = .ok ls ∧ Document False ls t

variable (F) in
/-- The lines are laid out as the walk reads them. -/
def Handled (src : Bytes) : Prop :=
  ∃ ls, preprocess 1 none (sourceLines src) = .ok ls ∧ ∃ t : YTree F, Document True ls t


/-! ### The walk, line by line -/

theorem bindDone {ε α β : Type} {x : Except ε α} {f : α → Except ε β} {b : β} (h : x.bind f = .ok b) :
    ∃ a, x = .ok a ∧ f a = .ok b := by
  cases x with
  | error e => cases h
  | ok a => exact ⟨a,rfl,h⟩

theorem mapDone {ε α β : Type} {x : Except ε α} {f : α → β} {b : β} (h : x.map f = .ok b) : ∃ a, x = .ok a ∧ f a = b := by
  cases x with
  | error e => cases h
  | ok a => exact ⟨a,rfl,Except.ok.inj h⟩

theorem raiseDone {α : Type} {x : Except YamlError α} {a : α} (h : raise x = .ok a) : x = .ok a := by
  cases x with
  | error e => cases h
  | ok b => exact congrArg Except.ok (Except.ok.inj h)

theorem quietSkipped {l : YamlLine} (quiet : Quiet l) : l.kind.isSkipped = true := by
  rcases quiet with is | ⟨is,_⟩ <;> rw [is] <;> rfl

theorem nextSkip {ls rest : List YamlLine} {l : YamlLine} (next : Next ls l rest) : skipBlank ls = l :: rest := by
  obtain ⟨qs,rfl,quiet,here⟩ := next
  rw [skipBlank,List.dropWhile_append_of_pos fun q mem => quietSkipped (quiet q mem)]
  exact List.dropWhile_cons_of_neg (by rw [here]; exact Bool.false_ne_true)

theorem quietSkip {ls : List YamlLine} (quiet : ∀ l ∈ ls, Quiet l) : skipBlank ls = [] :=
  List.dropWhile_eq_nil_iff.mpr fun l mem => quietSkipped (quiet l mem)

theorem skipTwice (ls : List YamlLine) : skipBlank (skipBlank ls) = skipBlank ls := List.dropWhile_idempotent _ ls

theorem skipLine {ls rest : List YamlLine} {l : YamlLine} (next : skipBlank ls = l :: rest) : skipBlank (l :: rest) = l :: rest := by
  rw [← next,skipTwice]

theorem nextShorter {ls rest : List YamlLine} {l : YamlLine} (next : skipBlank ls = l :: rest) : rest.length < ls.length := by
  have := (List.dropWhile_sublist (fun l => l.kind.isSkipped) (l := ls)).length_le
  rw [skipBlank] at next
  rw [next,List.length_cons] at this
  exact this

section
variable {c n : Nat} {ls ls' rest : List YamlLine} {l : YamlLine}

example : emitFields (F := F) 0 c ls = .error .spent ∧ emitItems (F := F) 0 c ls = .error .spent ∧
    emitValue (F := F) 0 c ls = .error .spent := by
  rw [emitFields,emitItems,emitValue]
  exact ⟨rfl,rfl,rfl⟩

theorem fieldsSkip (same : skipBlank ls = skipBlank ls') : emitFields (F := F) n c ls = emitFields n c ls' := by
  cases n with
  | zero => rfl
  | succ n => rw [emitFields,emitFields,same]

theorem itemsSkip (same : skipBlank ls = skipBlank ls') : emitItems (F := F) n c ls = emitItems n c ls' := by
  cases n with
  | zero => rfl
  | succ n => rw [emitItems,emitItems,same]

/-- The column is left. -/
theorem fieldsOther (next : skipBlank ls = l :: rest) (other : l.indent ≠ c ∨ l.kind.isSeq = true) :
    emitFields (F := F) (n + 1) c ls = .ok ([],l :: rest) := by
  rw [emitFields,next]
  rcases other with column | seq
  · exact if_pos column
  · by_cases column : l.indent = c
    · simp only [ne_eq,column,not_true_eq_false,if_false]
      cases kind : l.kind <;> rw [kind] at seq <;> first | rfl | cases seq
    · exact if_pos column

theorem itemsOther (next : skipBlank ls = l :: rest) (other : l.indent ≠ c ∨ l.kind.isSeq = false) :
    emitItems (F := F) (n + 1) c ls = .ok ([],l :: rest) := by
  rw [emitItems,next]
  rcases other with column | map
  · exact if_pos column
  · by_cases column : l.indent = c
    · simp only [ne_eq,column,not_true_eq_false,if_false]
      cases kind : l.kind <;> rw [kind] at map <;> first | rfl | cases map
    · exact if_pos column

theorem fieldsInline (next : skipBlank ls = l :: rest) (column : l.indent = c) (kind : l.kind = .mapKv) :
    emitFields (F := F) (n + 1) c ls = (raise (emitInline l)).bind fun t =>
      (emitFields n c rest).map fun (fs,rest) => ((l.key,t) :: fs,rest) := by
  rw [emitFields,next]
  simp only [ne_eq,column,not_true_eq_false,if_false,kind]

theorem fieldsBlock (next : skipBlank ls = l :: rest) (column : l.indent = c) (kind : l.kind = .mapBlockScalar) :
    emitFields (F := F) (n + 1) c ls = (emitFields n c (emitBlockScalar l.bsKind rest).2).map fun (fs,rest') =>
      ((l.key,.str (emitBlockScalar l.bsKind rest).1) :: fs,rest') := by
  rw [emitFields,next]
  simp only [ne_eq,column,not_true_eq_false,if_false,kind]

theorem fieldsNested (next : skipBlank ls = l :: rest) (column : l.indent = c) (kind : l.kind = .mapKeyOnly) :
    emitFields (F := F) (n + 1) c ls = (emitValue n c rest).bind fun (t,rest) =>
      (emitFields n c rest).map fun (fs,rest) => ((l.key,t) :: fs,rest) := by
  rw [emitFields,next]
  simp only [ne_eq,column,not_true_eq_false,if_false,kind]

theorem itemsInline (next : skipBlank ls = l :: rest) (column : l.indent = c) (kind : l.kind = .seqInline) :
    emitItems (F := F) (n + 1) c ls = (raise (emitInline l)).bind fun t =>
      (emitItems n c rest).map fun (ts,rest) => (t :: ts,rest) := by
  rw [emitItems,next]
  simp only [ne_eq,column,not_true_eq_false,if_false,kind]

theorem itemsNested (next : skipBlank ls = l :: rest) (column : l.indent = c) (kind : l.kind = .seqBlock) :
    emitItems (F := F) (n + 1) c ls = (emitValue n c rest).bind fun (t,rest) =>
      (emitItems n c rest).map fun (ts,rest) => (t :: ts,rest) := by
  rw [emitItems,next]
  simp only [ne_eq,column,not_true_eq_false,if_false,kind]

theorem itemsFields (next : skipBlank ls = l :: rest) (column : l.indent = c) (kind : l.kind = .seqKv) :
    emitItems (F := F) (n + 1) c ls = (emitInlineSeqKv n c l rest).bind fun (t,rest) =>
      (emitItems n c rest).map fun (ts,rest) => (t :: ts,rest) := by
  rw [emitItems,next]
  simp only [ne_eq,column,not_true_eq_false,if_false,kind]

theorem valueNull {parent : Nat} (above : ∀ l rest, skipBlank ls = l :: rest → l.indent ≤ parent) :
    ∃ r, emitValue (F := F) (n + 1) parent ls = .ok (.null,r) ∧ skipBlank r = skipBlank ls := by
  rw [emitValue]
  cases next : skipBlank ls with
  | nil => exact ⟨ls,rfl,next⟩
  | cons l rest => exact ⟨l :: rest,if_pos (above l rest next),skipLine next⟩

theorem valueBlock {parent : Nat} (next : skipBlank ls = l :: rest) (deeper : parent < l.indent) :
    emitValue (F := F) (n + 1) parent ls = emitBlock n l rest := by
  rw [emitValue,next]
  exact if_neg (Nat.not_le.mpr deeper)

theorem blockFields (map : l.kind.isSeq = false) (next : skipBlank ls = l :: rest) :
    emitBlock (F := F) (n + 1) l rest = (emitFields n l.indent ls).map fun (fs,rest) => (.obj fs,rest) := by
  rw [emitBlock,if_neg (by rw [map]; exact Bool.false_ne_true),fieldsSkip ((skipLine next).trans next.symm)]

theorem blockItems (seq : l.kind.isSeq = true) (next : skipBlank ls = l :: rest) :
    emitBlock (F := F) (n + 1) l rest = (emitItems n l.indent ls).map fun (ts,rest) => (.arr ts,rest) := by
  rw [emitBlock,if_pos seq,itemsSkip ((skipLine next).trans next.symm)]

/-- A key behind a dash with a value on its line. -/
theorem firstWritten {t : YTree F} {nested : Except Stop (YTree F × List YamlLine)} (value : HeadValue l rest t ls') :
    firstValue l rest nested = .ok (t,ls') := by
  obtain ⟨some_,⟨flat,⟨written,_⟩,rfl⟩ | ⟨head,text,rfl,_,block,_⟩⟩ := value
  · rw [emitInline] at written
    rw [firstValue]
    simp only [if_neg some_]
    split at written
    · rename_i flow
      rw [if_pos flow,written]
      rfl
    · rename_i flow
      rw [if_neg flow,if_neg (by rw [flat]; exact Bool.false_ne_true),Except.ok.inj written]
  · have flow : (l.value.getD []).head? ≠ some 91 := fun e => by
      cases text : l.value.getD [] with
      | nil => exact some_ text
      | cons d s =>
        rw [text] at e head
        cases e
        exact absurd head (by simp [blockHead])
    rw [firstValue]
    simp only [if_neg some_,if_neg flow,if_pos head,block]

theorem headWritten {t : YTree F} (value : HeadValue l rest t ls') : emitInlineSeqKv (n + 1) c l rest =
    (emitFields n (c + 2) ls').map fun (fs,rest) => (.obj ((l.key,t) :: fs),rest) := by
  rw [emitInlineSeqKv,firstWritten value]
  rfl

theorem headOpen (none_ : l.value.getD [] = []) : emitInlineSeqKv (F := F) (n + 1) c l rest =
    (emitValue n c rest).bind fun (t,rest) => (emitFields n (c + 2) rest).map fun (fs,rest) => (.obj ((l.key,t) :: fs),rest) := by
  rw [emitInlineSeqKv,firstValue,if_pos none_]

end

/-! ### Every walk ends -/

theorem blockScalarShorter (kind : UInt8) (child : Option Nat) (first : Bool) (buf : Bytes) (ls : List YamlLine) :
    (blockScalar kind child first buf ls).2.length ≤ ls.length := by
  induction ls generalizing child first buf with
  | nil => exact Nat.le_refl _
  | cons l ls ih =>
    rw [blockScalar]
    split
    · exact Nat.le_refl _
    · split
      · exact Nat.le_refl _
      · exact Nat.le_succ_of_le (ih ..)

/-- What a walk leaves is no longer than what it was given. -/
def Shorter {α : Type} (ls : List YamlLine) (x : Except Stop (α × List YamlLine)) : Prop := ∀ a r, x = .ok (a,r) → r.length ≤ ls.length

theorem Shorter.map {α β : Type} {ls rest : List YamlLine} {x : Except Stop (α × List YamlLine)} {f : α → β}
    (short : Shorter rest x) (le : rest.length ≤ ls.length) : Shorter ls (x.map fun p => (f p.1,p.2)) := fun b r done => by
  obtain ⟨p,is,last⟩ := mapDone done
  cases last
  exact Nat.le_trans (short _ _ is) le

theorem Shorter.bind {α β : Type} {ls rest : List YamlLine} {x : Except Stop (α × List YamlLine)}
    {f : α × List YamlLine → Except Stop (β × List YamlLine)} (short : Shorter rest x) (le : rest.length ≤ ls.length)
    (later : ∀ a r, Shorter r (f (a,r))) : Shorter ls (x.bind f) := fun b r done => by
  obtain ⟨⟨a,r'⟩,is,last⟩ := bindDone done
  exact Nat.le_trans (later a r' _ _ last) (Nat.le_trans (short _ _ is) le)

theorem skipShorter (ls : List YamlLine) : (skipBlank ls).length ≤ ls.length := (List.dropWhile_sublist _).length_le

theorem firstShorter {l : YamlLine} {rest : List YamlLine} {nested : Except Stop (YTree F × List YamlLine)}
    (short : Shorter rest nested) : Shorter rest (firstValue l rest nested) := fun t r is => by
  rw [firstValue] at is
  split at is
  · exact short t r is
  · split at is
    · obtain ⟨_,_,last⟩ := mapDone is
      cases last
      exact Nat.le_refl _
    · split at is
      · cases is
        exact blockScalarShorter ..
      · cases is
        exact Nat.le_refl _

/-- The five calls with `n`. -/
theorem walkShorter (n : Nat) :
    (∀ parent ls, Shorter ls (emitValue (F := F) n parent ls)) ∧ (∀ l rest, Shorter (l :: rest) (emitBlock (F := F) n l rest)) ∧
      (∀ c ls, Shorter ls (emitFields (F := F) n c ls)) ∧ (∀ c ls, Shorter ls (emitItems (F := F) n c ls)) ∧
      ∀ c l rest, Shorter rest (emitInlineSeqKv (F := F) n c l rest) := by
  have done : ∀ {α : Type} {a : α} {ls rest : List YamlLine}, rest.length ≤ ls.length → Shorter ls (.ok (a,rest)) :=
    fun le b r is => by cases is; exact le
  induction n with
  | zero => exact ⟨fun _ _ _ _ e => (nomatch e),fun _ _ _ _ e => (nomatch e),fun _ _ _ _ e => (nomatch e),
      fun _ _ _ _ e => (nomatch e),fun _ _ _ _ _ e => (nomatch e)⟩
  | succ n ih =>
    obtain ⟨value,block,fields,items,head⟩ := ih
    refine ⟨fun parent ls => ?_,fun l rest => ?_,fun c ls => ?_,fun c ls => ?_,fun c l rest => ?_⟩
    · rw [emitValue]
      have le := skipShorter ls
      cases next : skipBlank ls with
      | nil => exact done (Nat.le_refl _)
      | cons l rest =>
        rw [next] at le
        simp only
        split
        · exact done le
        · exact fun a r is => Nat.le_trans (block l rest a r is) le
    · rw [emitBlock]
      split
      · exact (items _ _).map (Nat.le_refl _)
      · exact (fields _ _).map (Nat.le_refl _)
    · rw [emitFields]
      cases next : skipBlank ls with
      | nil => exact done (Nat.zero_le _)
      | cons l rest =>
        have less := Nat.le_of_lt (nextShorter next)
        have le := skipShorter ls
        rw [next] at le
        simp only
        split
        · exact done le
        · split
          · intro b r is
            obtain ⟨t,_,last⟩ := bindDone is
            exact (fields c rest).map less b r last
          · exact (fields c _).map (Nat.le_trans (blockScalarShorter ..) less)
          · exact (value c rest).bind less fun t r => (fields c r).map (Nat.le_refl _)
          · exact done le
    · rw [emitItems]
      cases next : skipBlank ls with
      | nil => exact done (Nat.zero_le _)
      | cons l rest =>
        have less := Nat.le_of_lt (nextShorter next)
        have le := skipShorter ls
        rw [next] at le
        simp only
        split
        · exact done le
        · split
          · intro b r is
            obtain ⟨t,_,last⟩ := bindDone is
            exact (items c rest).map less b r last
          · exact (value c rest).bind less fun t r => (items c r).map (Nat.le_refl _)
          · exact (head c l rest).bind less fun t r => (items c r).map (Nat.le_refl _)
          · exact done le
    · rw [emitInlineSeqKv]
      exact (firstShorter (value c rest)).bind (Nat.le_refl _) fun t r =>
        @Shorter.map _ _ _ _ _ (fun fs => YTree.obj ((l.key,t) :: fs)) (fields (c + 2) r) (Nat.le_refl _)

/-- A walk that had calls enough. -/
def Ends {α : Type} (x : Except Stop α) : Prop := x ≠ .error .spent

theorem Ends.ok {α : Type} (a : α) : Ends (.ok a) := fun e => nomatch e

theorem Ends.map {α β : Type} {x : Except Stop α} (ends : Ends x) (f : α → β) : Ends (x.map f) := by
  cases x with
  | error e => exact fun is => ends (by cases is; rfl)
  | ok a => exact .ok _

theorem Ends.bind {α β : Type} {x : Except Stop α} (ends : Ends x) {f : α → Except Stop β} (later : ∀ a, x = .ok a → Ends (f a)) :
    Ends (x.bind f) := by
  cases x with
  | error e => exact fun is => ends (by cases is; rfl)
  | ok a => exact later a rfl

theorem Ends.raise {α : Type} (x : Except YamlError α) : Ends (raise x) := by
  cases x <;> exact fun is => nomatch is

theorem firstEnds {l : YamlLine} {rest : List YamlLine} {nested : Except Stop (YTree F × List YamlLine)} (ends : Ends nested) :
    Ends (firstValue l rest nested) := by
  rw [firstValue]
  split
  · exact ends
  · split
    · exact (Ends.raise _).map _
    · split <;> exact .ok _

theorem walkEnds (n : Nat) :
    (∀ parent ls, 4 * ls.length + 3 ≤ n → Ends (emitValue (F := F) n parent ls)) ∧
      (∀ l rest, 4 * rest.length + 6 ≤ n → Ends (emitBlock (F := F) n l rest)) ∧
      (∀ c ls, 4 * ls.length + 1 ≤ n → Ends (emitFields (F := F) n c ls)) ∧
      (∀ c ls, 4 * ls.length + 1 ≤ n → Ends (emitItems (F := F) n c ls)) ∧
      ∀ c l rest, 4 * rest.length + 4 ≤ n → Ends (emitInlineSeqKv (F := F) n c l rest) := by
  induction n with
  | zero => exact ⟨fun _ _ h => by omega,fun _ _ h => by omega,fun _ _ h => by omega,fun _ _ h => by omega,fun _ _ _ h => by omega⟩
  | succ n ih =>
    obtain ⟨value,block,fields,items,head⟩ := ih
    obtain ⟨value',_,_,_,head'⟩ := walkShorter (F := F) n
    refine ⟨fun parent ls h => ?_,fun l rest h => ?_,fun c ls h => ?_,fun c ls h => ?_,fun c l rest h => ?_⟩
    · rw [emitValue]
      cases next : skipBlank ls with
      | nil => exact .ok _
      | cons l rest =>
        have less := nextShorter next
        simp only
        split
        · exact .ok _
        · exact block l rest (by omega)
    · rw [emitBlock]
      split
      · exact (items _ _ (by rw [List.length_cons]; omega)).map _
      · exact (fields _ _ (by rw [List.length_cons]; omega)).map _
    · rw [emitFields]
      cases next : skipBlank ls with
      | nil => exact .ok _
      | cons l rest =>
        have less := nextShorter next
        simp only
        split
        · exact .ok _
        · split
          · exact (Ends.raise _).bind fun t _ => (fields c rest (by omega)).map _
          · have := blockScalarShorter l.bsKind none true [] rest
            exact (fields c _ (by rw [emitBlockScalar]; omega)).map _
          · refine (value c rest (by omega)).bind fun p is => ?_
            have := value' c rest _ _ is
            exact (fields c _ (by omega)).map _
          · exact .ok _
    · rw [emitItems]
      cases next : skipBlank ls with
      | nil => exact .ok _
      | cons l rest =>
        have less := nextShorter next
        simp only
        split
        · exact .ok _
        · split
          · exact (Ends.raise _).bind fun t _ => (items c rest (by omega)).map _
          · refine (value c rest (by omega)).bind fun p is => ?_
            have := value' c rest _ _ is
            exact (items c _ (by omega)).map _
          · refine (head c l rest (by omega)).bind fun p is => ?_
            have := head' c l rest _ _ is
            exact (items c _ (by omega)).map _
          · exact .ok _
    · rw [emitInlineSeqKv]
      refine (firstEnds (value c rest (by omega))).bind fun p is => ?_
      have := firstShorter (value' c rest) _ _ is
      exact (fields (c + 2) p.2 (by omega)).map _

/-- The next line stands to the left of the column. -/
def Below (c : Nat) (ls : List YamlLine) : Prop := ∀ l rest, skipBlank ls = l :: rest → l.indent < c

/-- The next line is no item of the column. -/
def ItemsEnd (c : Nat) (ls : List YamlLine) : Prop :=
  ∀ l rest, skipBlank ls = l :: rest → l.indent < c ∨ l.indent = c ∧ l.kind.isSeq = false

section
variable {c n : Nat} {ls ls' rest : List YamlLine} {l : YamlLine} {strict : Prop}

theorem Below.weaken {d : Nat} (le : c ≤ d) (below : Below c ls) : Below d ls := fun l rest next =>
  Nat.lt_of_lt_of_le (below l rest next) le

theorem Below.items (below : Below c ls) : ItemsEnd c ls := fun l rest next => Or.inl (below l rest next)

theorem ItemsEnd.below (ends : ItemsEnd c ls) : Below (c + 1) ls := fun l rest next => by
  rcases ends l rest next with less | ⟨same,_⟩ <;> omega

theorem belowNext (next : skipBlank ls = l :: rest) (column : l.indent = c) : Below (c + 1) ls := fun l' rest' other => by
  rw [next] at other
  cases other
  omega

theorem fieldsFirst {fs : List (Bytes × YTree F)} (fields : Fields strict c ls fs ls') (below : Below c ls') : ItemsEnd c ls := by
  have first : ∀ {rest l}, Next ls l rest → l.indent = c → l.kind.isSeq = false → ItemsEnd c ls := fun next column map l' rest' other => by
    rw [nextSkip next] at other
    cases other
    exact Or.inr ⟨column,map⟩
  cases fields with
  | stop => exact below.items
  | inline next column kind _ _ => exact first next column (by rw [kind]; rfl)
  | block next column kind _ _ => exact first next column (by rw [kind]; rfl)
  | nested next column kind _ _ _ => exact first next column (by rw [kind]; rfl)

theorem itemsFirst {ts : List (YTree F)} (items : Items strict c ls ts ls') (ends : ItemsEnd c ls') : Below (c + 1) ls := by
  cases items with
  | stop => exact ends.below
  | inline next column _ _ _ => exact belowNext (nextSkip next) column
  | nested next column _ _ _ => exact belowNext (nextSkip next) column
  | fields next column _ _ _ _ _ => exact belowNext (nextSkip next) column
  | openFields next column _ _ _ _ _ _ => exact belowNext (nextSkip next) column

theorem fieldsSome {fs : List (Bytes × YTree F)} (fields : Fields strict c ls fs ls') (some_ : fs ≠ []) :
    ∃ l rest, skipBlank ls = l :: rest ∧ l.indent = c ∧ l.kind.isSeq = false := by
  cases fields with
  | stop => exact absurd rfl some_
  | inline next column kind _ _ => exact ⟨_,_,nextSkip next,column,by rw [kind]; rfl⟩
  | block next column kind _ _ => exact ⟨_,_,nextSkip next,column,by rw [kind]; rfl⟩
  | nested next column kind _ _ _ => exact ⟨_,_,nextSkip next,column,by rw [kind]; rfl⟩

theorem itemsSome {ts : List (YTree F)} (items : Items strict c ls ts ls') (some_ : ts ≠ []) :
    ∃ l rest, skipBlank ls = l :: rest ∧ l.indent = c ∧ l.kind.isSeq = true := by
  cases items with
  | stop => exact absurd rfl some_
  | inline next column kind _ _ => exact ⟨_,_,nextSkip next,column,by rw [kind]; rfl⟩
  | nested next column kind _ _ => exact ⟨_,_,nextSkip next,column,by rw [kind]; rfl⟩
  | fields next column kind _ _ _ _ => exact ⟨_,_,nextSkip next,column,by rw [kind]; rfl⟩
  | openFields next column kind _ _ _ _ _ => exact ⟨_,_,nextSkip next,column,by rw [kind]; rfl⟩

theorem fieldsStop (below : ∀ l rest, skipBlank ls = l :: rest → l.indent ≠ c ∨ l.kind.isSeq = true) :
    ∃ r, emitFields (F := F) (n + 1) c ls = .ok ([],r) ∧ skipBlank r = skipBlank ls := by
  cases next : skipBlank ls with
  | nil =>
    refine ⟨[],?_,rfl⟩
    rw [emitFields,next]
  | cons l rest => exact ⟨l :: rest,fieldsOther next (below l rest next),skipLine next⟩

theorem itemsStop (ends : ∀ l rest, skipBlank ls = l :: rest → l.indent ≠ c ∨ l.kind.isSeq = false) :
    ∃ r, emitItems (F := F) (n + 1) c ls = .ok ([],r) ∧ skipBlank r = skipBlank ls := by
  cases next : skipBlank ls with
  | nil =>
    refine ⟨[],?_,rfl⟩
    rw [emitItems,next]
  | cons l rest => exact ⟨l :: rest,itemsOther next (ends l rest next),skipLine next⟩

theorem blockShorter {column : Nat} {kind : UInt8} {head text : Bytes} (block : BlockValue column kind head ls text ls') :
    ls'.length ≤ ls.length := by
  obtain ⟨_,_,body,rfl,_⟩ := block
  rw [List.length_append]
  omega

theorem headShorter {t : YTree F} (value : HeadValue l rest t ls') : ls'.length ≤ rest.length := by
  obtain ⟨_,⟨_,_,rfl⟩ | ⟨_,text,_,block⟩⟩ := value
  · exact Nat.le_refl _
  · exact blockShorter block

end


theorem keyBehind (l : YamlLine) : l.indent + 1 ≤ keyColumn l := Nat.le_add_right _ _

theorem succOf {k n : Nat} (enough : k + 1 ≤ n) : ∃ m, n = m + 1 ∧ k ≤ m := ⟨n - 1,by omega,by omega⟩

/-- The keys behind the first one of a dash. -/
theorem keysDone {c : Nat} {ls ls' : List YamlLine} {l : YamlLine} {fs : List (Bytes × YTree F)}
    (keys : Fields True (keyColumn l) ls fs ls') (apart : fs ≠ [] → keyColumn l = c + 2)
    (done : ∀ n, 4 * ls.length + 1 ≤ n → Below (keyColumn l) ls' →
      ∃ r, emitFields n (keyColumn l) ls = .ok (fs,r) ∧ skipBlank r = skipBlank ls')
    (n : Nat) (enough : 4 * ls.length + 1 ≤ n) (below : Below (c + 1) ls') (column : l.indent = c) :
    ∃ r, emitFields n (c + 2) ls = .ok (fs,r) ∧ skipBlank r = skipBlank ls' := by
  by_cases none_ : fs = []
  · subst none_
    cases keys
    obtain ⟨m,rfl,_⟩ := succOf enough
    exact fieldsStop fun l rest next => Or.inl (by have := below l rest next; omega)
  · rw [← apart none_]
    exact done n enough (below.weaken (column ▸ keyBehind l))

mutual
theorem fieldsDone {c : Nat} {ls ls' : List YamlLine} {fs : List (Bytes × YTree F)} : Fields True c ls fs ls' →
    ls'.length ≤ ls.length ∧ ∀ n, 4 * ls.length + 1 ≤ n → Below c ls' →
      ∃ r, emitFields n c ls = .ok (fs,r) ∧ skipBlank r = skipBlank ls'
  | .stop => by
    refine ⟨Nat.le_refl _,fun n enough below => ?_⟩
    obtain ⟨m,rfl,_⟩ := succOf enough
    exact fieldsStop fun l rest next => Or.inl (Nat.ne_of_lt (below l rest next))
  | .inline next column kind value more => by
    obtain ⟨short,done⟩ := fieldsDone more
    have shorter := nextShorter (nextSkip next)
    refine ⟨by omega,fun n enough below => ?_⟩
    obtain ⟨m,rfl,le⟩ := succOf enough
    obtain ⟨r,walked,same⟩ := done m (by omega) below
    refine ⟨r,?_,same⟩
    rw [fieldsInline (nextSkip next) column kind,value.1]
    simp only [raise,Except.bind,walked]
    rfl
  | .block next column kind block more => by
    obtain ⟨short,done⟩ := fieldsDone more
    have shorter := nextShorter (nextSkip next)
    have shorter' := blockShorter block
    refine ⟨by omega,fun n enough below => ?_⟩
    obtain ⟨m,rfl,le⟩ := succOf enough
    obtain ⟨r,walked,same⟩ := done m (by omega) below
    refine ⟨r,?_,same⟩
    rw [fieldsBlock (nextSkip next) column kind,block.2.1]
    simp only [walked]
    rfl
  | @Fields.nested _ _ _ _ level _ _ _ _ _ _ _ next column kind level_ value more => by
    obtain ⟨short,done⟩ := fieldsDone more
    obtain ⟨short',done'⟩ := valueDone value
    have shorter := nextShorter (nextSkip next)
    refine ⟨by omega,fun n enough below => ?_⟩
    obtain ⟨m,rfl,le⟩ := succOf enough
    have first := fieldsFirst more below
    have flat : level = false := level_ trivial
    obtain ⟨r₁,written,left⟩ := done' m _ (by omega) (Nat.le_refl _) (fun e => absurd (flat.symm.trans e) Bool.false_ne_true)
      first.below (fun e => absurd (flat.symm.trans e) Bool.false_ne_true) fun _ => first.below
    obtain ⟨r,walked,same⟩ := done m (by omega) below
    refine ⟨r,?_,same⟩
    rw [fieldsNested (nextSkip next) column kind,written]
    simp only [Except.bind,fieldsSkip left,walked]
    rfl
theorem itemsDone {c : Nat} {ls ls' : List YamlLine} {ts : List (YTree F)} : Items True c ls ts ls' →
    ls'.length ≤ ls.length ∧ ∀ n, 4 * ls.length + 1 ≤ n → ItemsEnd c ls' →
      ∃ r, emitItems n c ls = .ok (ts,r) ∧ skipBlank r = skipBlank ls'
  | .stop => by
    refine ⟨Nat.le_refl _,fun n enough ends => ?_⟩
    obtain ⟨m,rfl,_⟩ := succOf enough
    exact itemsStop fun l rest next => (ends l rest next).imp Nat.ne_of_lt And.right
  | .inline next column kind value more => by
    obtain ⟨short,done⟩ := itemsDone more
    have shorter := nextShorter (nextSkip next)
    refine ⟨by omega,fun n enough ends => ?_⟩
    obtain ⟨m,rfl,le⟩ := succOf enough
    obtain ⟨r,walked,same⟩ := done m (by omega) ends
    refine ⟨r,?_,same⟩
    rw [itemsInline (nextSkip next) column kind,value.1]
    simp only [raise,Except.bind,walked]
    rfl
  | .nested next column kind value more => by
    obtain ⟨short,done⟩ := itemsDone more
    obtain ⟨short',done'⟩ := valueDone value
    have shorter := nextShorter (nextSkip next)
    refine ⟨by omega,fun n enough ends => ?_⟩
    obtain ⟨m,rfl,le⟩ := succOf enough
    have first := itemsFirst more ends
    obtain ⟨r₁,written,left⟩ := done' m _ (by omega) (Nat.le_refl _) (fun e => nomatch e) first (fun e => nomatch e) fun _ => first
    obtain ⟨r,walked,same⟩ := done m (by omega) ends
    refine ⟨r,?_,same⟩
    rw [itemsNested (nextSkip next) column kind,written]
    simp only [Except.bind,itemsSkip left,walked]
    rfl
  | @Items.fields _ _ _ c _ _ ls₁ ls₂ _ l _ fs _ next column kind value keys apart more => by
    obtain ⟨short,done⟩ := itemsDone more
    obtain ⟨short',done'⟩ := fieldsDone keys
    have shorter := nextShorter (nextSkip next)
    have shorter' := headShorter value
    refine ⟨by omega,fun n enough ends => ?_⟩
    obtain ⟨m,rfl,le⟩ := succOf enough
    obtain ⟨k,rfl,le'⟩ := succOf (show 4 * ls₂.length + 1 + 1 ≤ m by omega)
    have first := itemsFirst more ends
    have left := first.weaken (column ▸ keyBehind l)
    obtain ⟨r₁,walked₁,same₁⟩ := keysDone keys (fun some_ => apart trivial some_) done' k (by omega) first column
    obtain ⟨r,walked,same⟩ := done (k + 1) (by omega) ends
    refine ⟨r,?_,same⟩
    rw [itemsFields (nextSkip next) column kind,headWritten value,walked₁]
    simp only [Except.map,Except.bind,itemsSkip same₁,walked]
  | @Items.openFields _ _ _ c _ rest ls₁ ls₂ _ l t fs _ next column kind none_ value keys apart more => by
    obtain ⟨short,done⟩ := itemsDone more
    obtain ⟨short',done'⟩ := fieldsDone keys
    obtain ⟨short₁,done₁⟩ := valueDone value
    have shorter := nextShorter (nextSkip next)
    refine ⟨by omega,fun n enough ends => ?_⟩
    obtain ⟨m,rfl,le⟩ := succOf enough
    obtain ⟨k,rfl,le'⟩ := succOf (show 4 * rest.length + 3 + 1 ≤ m by omega)
    have first := itemsFirst more ends
    have left : Below (keyColumn l) ls₂ := first.weaken (column ▸ keyBehind l)
    have begins := fieldsFirst keys left
    have column' : c < keyColumn l := column ▸ keyBehind l
    have alone : t = .null → Below (c + 1) ls₁ := fun is => by
      have none' : fs = [] := by
        by_contra some_
        exact (apart trivial some_).2 is
      subst none'
      cases keys
      exact first
    obtain ⟨r₀,written,same₀⟩ := done₁ k c (by omega) (Nat.le_of_lt column') (fun _ => column') begins.below (fun _ => begins) alone
    obtain ⟨r₁,walked₁,same₁⟩ := keysDone keys (fun some_ => (apart trivial some_).1) done' k (by omega) first column
    obtain ⟨r,walked,same⟩ := done (k + 1) (by omega) ends
    refine ⟨r,?_,same⟩
    rw [itemsFields (nextSkip next) column kind,headOpen none_,written]
    simp only [Except.bind,fieldsSkip same₀,walked₁,Except.map,itemsSkip same₁,walked]
theorem valueDone {level : Bool} {c : Nat} {ls ls' : List YamlLine} {t : YTree F} : Value True level c ls t ls' →
    ls'.length ≤ ls.length ∧ ∀ n parent, 4 * ls.length + 3 ≤ n → parent ≤ c → (level = true → parent < c) → Below (c + 1) ls' →
      (level = true → ItemsEnd c ls') → (t = .null → Below (parent + 1) ls') →
      ∃ r, emitValue n parent ls = .ok (t,r) ∧ skipBlank r = skipBlank ls'
  | .null => by
    refine ⟨Nat.le_refl _,fun n parent enough _ _ _ _ above => ?_⟩
    obtain ⟨m,rfl,_⟩ := succOf enough
    exact valueNull fun l rest next => Nat.le_of_lt_succ (above rfl l rest next)
  | @Value.fields _ _ _ _ _ ls _ _ l _ next deeper some_ fields => by
    obtain ⟨short,done⟩ := fieldsDone fields
    refine ⟨short,fun n parent enough le _ below _ _ => ?_⟩
    obtain ⟨m,rfl,_⟩ := succOf enough
    obtain ⟨k,rfl,_⟩ := succOf (show 4 * ls.length + 1 + 1 ≤ m by omega)
    obtain ⟨r,walked,same⟩ := done k (by omega) (below.weaken deeper)
    obtain ⟨l',rest',next',column,map⟩ := fieldsSome fields some_
    rw [nextSkip next] at next'
    cases next'
    refine ⟨r,?_,same⟩
    rw [valueBlock (nextSkip next) (by omega),blockFields map (nextSkip next),walked]
    rfl
  | @Value.items _ _ _ _ _ ls _ ls' l _ next deeper some_ items => by
    obtain ⟨short,done⟩ := itemsDone items
    refine ⟨short,fun n parent enough le level_ below ends _ => ?_⟩
    obtain ⟨m,rfl,_⟩ := succOf enough
    obtain ⟨k,rfl,_⟩ := succOf (show 4 * ls.length + 1 + 1 ≤ m by omega)
    have above : parent < l.indent := by
      rcases deeper with less | ⟨is,same⟩
      · omega
      · rw [same]
        exact level_ is
    have stop : ItemsEnd l.indent ls' := by
      rcases deeper with less | ⟨is,same⟩
      · exact (below.weaken less).items
      · rw [same]
        exact ends is
    obtain ⟨r,walked,same⟩ := done k (by omega) stop
    obtain ⟨l',rest',next',column,seq⟩ := itemsSome items some_
    rw [nextSkip next] at next'
    cases next'
    refine ⟨r,?_,same⟩
    rw [valueBlock (nextSkip next) above,blockItems seq (nextSkip next),walked]
    rfl
end


/-! ### Only strict layouts are read as the indentation says -/

theorem fieldsNone {c n : Nat} {ls r : List YamlLine} {fs : List (Bytes × YTree F)} (walked : emitFields n c ls = .ok (fs,r)) :
    (fs = [] → skipBlank r = skipBlank ls) ∧ (fs ≠ [] → ∃ l rest, skipBlank ls = l :: rest ∧ l.indent = c) := by
  cases n with
  | zero => cases walked
  | succ n =>
    cases next : skipBlank ls with
    | nil =>
      rw [emitFields,next] at walked
      cases walked
      exact ⟨fun _ => rfl,fun some_ => absurd rfl some_⟩
    | cons l rest =>
      by_cases column : l.indent = c
      · refine ⟨fun none_ => ?_,fun _ => ⟨l,rest,rfl,column⟩⟩
        subst none_
        rw [emitFields,next] at walked
        simp only [ne_eq,column,not_true_eq_false,if_false] at walked
        split at walked
        · obtain ⟨_,_,last⟩ := bindDone walked
          obtain ⟨_,_,is⟩ := mapDone last
          cases is
        · obtain ⟨_,_,is⟩ := mapDone walked
          cases is
        · obtain ⟨_,_,last⟩ := bindDone walked
          obtain ⟨_,_,is⟩ := mapDone last
          cases is
        · cases walked
          exact skipLine next
      · rw [fieldsOther next (Or.inl column)] at walked
        cases walked
        exact ⟨fun _ => skipLine next,fun some_ => absurd rfl some_⟩

theorem itemsNone {c n : Nat} {ls r : List YamlLine} (walked : emitItems (F := F) n c ls = .ok ([],r)) :
    skipBlank r = skipBlank ls := by
  cases n with
  | zero => cases walked
  | succ n =>
    cases next : skipBlank ls with
    | nil =>
      rw [emitItems,next] at walked
      cases walked
      rfl
    | cons l rest =>
      by_cases column : l.indent = c
      · rw [emitItems,next] at walked
        simp only [ne_eq,column,not_true_eq_false,if_false] at walked
        split at walked
        · obtain ⟨_,_,last⟩ := bindDone walked
          obtain ⟨_,_,is⟩ := mapDone last
          cases is
        · obtain ⟨_,_,last⟩ := bindDone walked
          obtain ⟨_,_,is⟩ := mapDone last
          cases is
        · obtain ⟨_,_,last⟩ := bindDone walked
          obtain ⟨_,_,is⟩ := mapDone last
          cases is
        · cases walked
          exact skipLine next
      · rw [itemsOther next (Or.inl column)] at walked
        cases walked
        exact skipLine next

theorem blockNotNull {n : Nat} {l : YamlLine} {rest r : List YamlLine} : emitBlock (F := F) n l rest ≠ .ok (.null,r) := fun walked => by
  cases n with
  | zero => cases walked
  | succ n =>
    rw [emitBlock] at walked
    split at walked <;>
    · obtain ⟨_,_,is⟩ := mapDone walked
      cases is

theorem valueNone {parent n : Nat} {ls r : List YamlLine} (walked : emitValue (F := F) n parent ls = .ok (.null,r)) :
    skipBlank r = skipBlank ls ∧ Below (parent + 1) ls := by
  cases n with
  | zero => cases walked
  | succ n =>
    rw [emitValue] at walked
    cases next : skipBlank ls with
    | nil =>
      rw [next] at walked
      cases walked
      exact ⟨next,fun l rest e => by rw [next] at e; cases e⟩
    | cons l rest =>
      rw [next] at walked
      by_cases above : l.indent ≤ parent
      · simp only [if_pos above] at walked
        cases walked
        refine ⟨skipLine next,fun l' rest' e => ?_⟩
        rw [next] at e
        cases e
        exact Nat.lt_succ_of_le above
      · simp only [if_neg above] at walked
        exact absurd walked blockNotNull

/-- Keys that are read two columns behind a dash stand there. -/
theorem keysExact {c n : Nat} {ls ls' r : List YamlLine} {l : YamlLine} {fs : List (Bytes × YTree F)}
    (keys : Fields False (keyColumn l) ls fs ls') (walked : emitFields n (c + 2) ls = .ok (fs,r))
    (exact_ : ∀ n r, emitFields n (keyColumn l) ls = .ok (fs,r) → Fields True (keyColumn l) ls fs ls' ∧ skipBlank r = skipBlank ls') :
    Fields True (keyColumn l) ls fs ls' ∧ (fs ≠ [] → keyColumn l = c + 2) ∧ skipBlank r = skipBlank ls' := by
  by_cases none_ : fs = []
  · subst none_
    cases keys
    exact ⟨.stop,fun some_ => absurd rfl some_,(fieldsNone walked).1 rfl⟩
  · obtain ⟨l₁,_,next₁,column₁⟩ := (fieldsNone walked).2 none_
    obtain ⟨l₂,_,next₂,column₂,_⟩ := fieldsSome keys none_
    rw [next₁] at next₂
    cases next₂
    have same : keyColumn l = c + 2 := column₂.symm.trans column₁
    obtain ⟨strict_,left⟩ := exact_ n r (same ▸ walked)
    exact ⟨strict_,fun _ => same,left⟩

mutual
theorem fieldsExact {c : Nat} {ls ls' : List YamlLine} {fs : List (Bytes × YTree F)} : Fields False c ls fs ls' →
    ∀ n r, emitFields n c ls = .ok (fs,r) → Fields True c ls fs ls' ∧ skipBlank r = skipBlank ls'
  | .stop => fun n r walked => ⟨.stop,(fieldsNone walked).1 rfl⟩
  | .inline next column kind value more => by
    have later := fieldsExact more
    intro n r walked
    cases n with
    | zero => cases walked
    | succ n =>
      rw [fieldsInline (nextSkip next) column kind,value.1] at walked
      obtain ⟨p,inner,is⟩ := mapDone walked
      cases is
      obtain ⟨strict_,same⟩ := later n _ inner
      exact ⟨.inline next column kind value strict_,same⟩
  | .block next column kind block more => by
    have later := fieldsExact more
    intro n r walked
    cases n with
    | zero => cases walked
    | succ n =>
      rw [fieldsBlock (nextSkip next) column kind,block.2.1] at walked
      obtain ⟨p,inner,is⟩ := mapDone walked
      cases is
      obtain ⟨strict_,same⟩ := later n _ inner
      exact ⟨.block next column kind block strict_,same⟩
  | .nested next column kind _ value more => by
    have later := fieldsExact more
    have here := valueExact value
    intro n r walked
    cases n with
    | zero => cases walked
    | succ n =>
      rw [fieldsNested (nextSkip next) column kind] at walked
      obtain ⟨⟨t,r₁⟩,written,last⟩ := bindDone walked
      obtain ⟨p,inner,is⟩ := mapDone last
      cases is
      obtain ⟨value',left,_⟩ := here n _ _ (Nat.le_refl _) written
      rw [fieldsSkip left] at inner
      obtain ⟨strict_,same⟩ := later n _ inner
      exact ⟨.nested next column kind (fun _ => by simp) value' strict_,same⟩
theorem itemsExact {c : Nat} {ls ls' : List YamlLine} {ts : List (YTree F)} : Items False c ls ts ls' →
    ∀ n r, emitItems n c ls = .ok (ts,r) → Items True c ls ts ls' ∧ skipBlank r = skipBlank ls'
  | .stop => fun n r walked => ⟨.stop,itemsNone walked⟩
  | .inline next column kind value more => by
    have later := itemsExact more
    intro n r walked
    cases n with
    | zero => cases walked
    | succ n =>
      rw [itemsInline (nextSkip next) column kind,value.1] at walked
      obtain ⟨p,inner,is⟩ := mapDone walked
      cases is
      obtain ⟨strict_,same⟩ := later n _ inner
      exact ⟨.inline next column kind value strict_,same⟩
  | .nested next column kind value more => by
    have later := itemsExact more
    have here := valueExact value
    intro n r walked
    cases n with
    | zero => cases walked
    | succ n =>
      rw [itemsNested (nextSkip next) column kind] at walked
      obtain ⟨⟨t,r₁⟩,written,last⟩ := bindDone walked
      obtain ⟨p,inner,is⟩ := mapDone last
      cases is
      obtain ⟨value',left,_⟩ := here n _ _ (Nat.le_refl _) written
      rw [itemsSkip left] at inner
      obtain ⟨strict_,same⟩ := later n _ inner
      exact ⟨.nested next column kind value' strict_,same⟩
  | @Items.fields _ _ _ c _ _ ls₁ ls₂ _ l _ fs _ next column kind value keys _ more => by
    have later := itemsExact more
    have keys_ := fieldsExact keys
    intro n r walked
    cases n with
    | zero => cases walked
    | succ n =>
      rw [itemsFields (nextSkip next) column kind] at walked
      obtain ⟨⟨t,r₁⟩,written,last⟩ := bindDone walked
      obtain ⟨p,inner,is⟩ := mapDone last
      cases is
      cases n with
      | zero => cases written
      | succ n =>
        rw [headWritten value] at written
        obtain ⟨p₁,walked₁,is⟩ := mapDone written
        cases is
        obtain ⟨keys',apart,left⟩ := keysExact keys walked₁ keys_
        rw [itemsSkip left] at inner
        obtain ⟨strict_,same⟩ := later _ _ inner
        exact ⟨.fields next column kind value keys' (fun _ => apart) strict_,same⟩
  | @Items.openFields _ _ _ c _ rest ls₁ ls₂ _ l t fs _ next column kind none_ value keys _ more => by
    have later := itemsExact more
    have keys_ := fieldsExact keys
    have here := valueExact value
    intro n r walked
    cases n with
    | zero => cases walked
    | succ n =>
      rw [itemsFields (nextSkip next) column kind] at walked
      obtain ⟨⟨t',r₁⟩,written,last⟩ := bindDone walked
      obtain ⟨p,inner,is⟩ := mapDone last
      cases is
      cases n with
      | zero => cases written
      | succ n =>
        rw [headOpen none_] at written
        obtain ⟨⟨t'',r₀⟩,first,last⟩ := bindDone written
        obtain ⟨p₁,walked₁,is⟩ := mapDone last
        cases is
        have column' : c < keyColumn l := column ▸ keyBehind l
        obtain ⟨value',left₀,alone⟩ := here n c _ (Nat.le_of_lt column') first
        rw [fieldsSkip left₀] at walked₁
        obtain ⟨keys',apart,left⟩ := keysExact keys walked₁ keys_
        rw [itemsSkip left] at inner
        obtain ⟨strict_,same⟩ := later _ _ inner
        have level : (true && decide (c < keyColumn l)) = true := by simp [column']
        rw [level] at value'
        refine ⟨.openFields next column kind none_ value' keys' (fun _ some_ => ⟨apart some_,fun is => ?_⟩) strict_,same⟩
        obtain ⟨l',rest',next',column'',_⟩ := fieldsSome keys some_
        have := alone is l' rest' next'
        omega
theorem valueExact {level : Bool} {c : Nat} {ls ls' : List YamlLine} {t : YTree F} : Value False level c ls t ls' →
    ∀ n parent r, parent ≤ c → emitValue n parent ls = .ok (t,r) →
      Value True (level && decide (parent < c)) c ls t ls' ∧ skipBlank r = skipBlank ls' ∧ (t = .null → Below (parent + 1) ls')
  | .null => fun n parent r _ walked => by
    obtain ⟨same,below⟩ := valueNone walked
    exact ⟨.null,same,fun _ => below⟩
  | @Value.fields _ _ _ _ _ ls _ _ l fs next deeper some_ fields => by
    have inside := fieldsExact fields
    intro n parent r le walked
    cases n with
    | zero => cases walked
    | succ n =>
      rw [valueBlock (nextSkip next) (by omega)] at walked
      cases n with
      | zero => cases walked
      | succ n =>
        obtain ⟨l',rest',next',_,map⟩ := fieldsSome fields some_
        rw [nextSkip next] at next'
        cases next'
        rw [blockFields map (nextSkip next)] at walked
        obtain ⟨p,inner,is⟩ := mapDone walked
        cases is
        obtain ⟨strict_,same⟩ := inside n _ inner
        exact ⟨.fields next deeper some_ strict_,same,fun e => nomatch e⟩
  | @Value.items _ _ _ level c ls _ ls' l ts next deeper some_ items => by
    have inside := itemsExact items
    intro n parent r le walked
    cases n with
    | zero => cases walked
    | succ n =>
      by_cases above : l.indent ≤ parent
      · obtain ⟨r',null,_⟩ := @valueNull F _ n ls parent fun l' rest' e => by
          rw [nextSkip next] at e
          cases e
          exact above
        rw [null] at walked
        cases walked
      · have deeper' : c < l.indent ∨ (level && decide (parent < c)) = true ∧ l.indent = c := deeper.imp id fun e =>
          ⟨by simp [e.1]; omega,e.2⟩
        rw [valueBlock (nextSkip next) (Nat.not_le.mp above)] at walked
        cases n with
        | zero => cases walked
        | succ n =>
          obtain ⟨l',rest',next',_,seq⟩ := itemsSome items some_
          rw [nextSkip next] at next'
          cases next'
          rw [blockItems seq (nextSkip next)] at walked
          obtain ⟨p,inner,is⟩ := mapDone walked
          cases is
          obtain ⟨strict_,same⟩ := inside n _ inner
          exact ⟨.items next deeper' some_ strict_,same,fun e => nomatch e⟩
end


mutual
theorem Fields.loosen {c : Nat} {ls ls' : List YamlLine} {fs : List (Bytes × YTree F)} : Fields True c ls fs ls' → Fields False c ls fs ls'
  | .stop => .stop
  | .inline next column kind value more => .inline next column kind value more.loosen
  | .block next column kind block more => .block next column kind block more.loosen
  | .nested next column kind _ value more => .nested next column kind False.elim value.loosen more.loosen
theorem Items.loosen {c : Nat} {ls ls' : List YamlLine} {ts : List (YTree F)} : Items True c ls ts ls' → Items False c ls ts ls'
  | .stop => .stop
  | .inline next column kind value more => .inline next column kind value more.loosen
  | .nested next column kind value more => .nested next column kind value.loosen more.loosen
  | .fields next column kind value keys _ more => .fields next column kind value keys.loosen False.elim more.loosen
  | .openFields next column kind none_ value keys _ more =>
    .openFields next column kind none_ value.loosen keys.loosen False.elim more.loosen
theorem Value.loosen {level : Bool} {c : Nat} {ls ls' : List YamlLine} {t : YTree F} : Value True level c ls t ls' →
    Value False level c ls t ls'
  | .null => .null
  | .fields next deeper some_ fields => .fields next deeper some_ fields.loosen
  | .items next deeper some_ items => .items next deeper some_ items.loosen
end

/-! ### Documents -/

theorem Document.loosen {ls : List YamlLine} {t : YTree F} : Document True ls t → Document False ls t
  | .inl empty => .inl empty
  | .inr ⟨l,rest,ls',next,quiet,.inl ⟨fs,is,some_,fields⟩⟩ => .inr ⟨l,rest,ls',next,quiet,.inl ⟨fs,is,some_,fields.loosen⟩⟩
  | .inr ⟨l,rest,ls',next,quiet,.inr ⟨ts,is,some_,items⟩⟩ => .inr ⟨l,rest,ls',next,quiet,.inr ⟨ts,is,some_,items.loosen⟩⟩

theorem quietBelow {c : Nat} {ls : List YamlLine} (quiet : ∀ l ∈ ls, Quiet l) : Below c ls := fun l rest next => by
  rw [quietSkip quiet] at next
  cases next

theorem rootBlock {n : Nat} {ls rest : List YamlLine} {l : YamlLine} (next : skipBlank ls = l :: rest) :
    emitRoot (F := F) n ls = emitBlock n l rest := by
  rw [emitRoot,next]

/-- A strict layout is read to its end. -/
theorem documentDone {ls : List YamlLine} {t : YTree F} (doc : Document True ls t) :
    ∃ r, emitRoot (walkFuel ls) ls = .ok (t,r) ∧ skipBlank r = [] := by
  rcases doc with ⟨rfl,quiet⟩ | ⟨l,rest,ls',next,quiet,⟨fs,rfl,some_,fields⟩ | ⟨ts,rfl,some_,items⟩⟩
  · have none_ := quietSkip quiet
    exact ⟨ls,by rw [emitRoot,none_],none_⟩
  · obtain ⟨_,done⟩ := fieldsDone fields
    obtain ⟨r,walked,same⟩ := done (4 * ls.length + 3) (by omega) (quietBelow quiet)
    obtain ⟨l',rest',next',_,map⟩ := fieldsSome fields some_
    rw [nextSkip next] at next'
    cases next'
    refine ⟨r,?_,same.trans (quietSkip quiet)⟩
    rw [rootBlock (nextSkip next),walkFuel,blockFields map (nextSkip next),walked]
    rfl
  · obtain ⟨_,done⟩ := itemsDone items
    obtain ⟨r,walked,same⟩ := done (4 * ls.length + 3) (by omega) (quietBelow quiet).items
    obtain ⟨l',rest',next',_,seq⟩ := itemsSome items some_
    rw [nextSkip next] at next'
    cases next'
    refine ⟨r,?_,same.trans (quietSkip quiet)⟩
    rw [rootBlock (nextSkip next),walkFuel,blockItems seq (nextSkip next),walked]
    rfl

/-- What is read as the indentation says is laid out strictly, and read to its end. -/
theorem documentExact {n : Nat} {ls r : List YamlLine} {t : YTree F} (doc : Document False ls t)
    (walked : emitRoot n ls = .ok (t,r)) : Document True ls t ∧ skipBlank r = [] := by
  rcases doc with ⟨rfl,quiet⟩ | ⟨l,rest,ls',next,quiet,⟨fs,rfl,some_,fields⟩ | ⟨ts,rfl,some_,items⟩⟩
  · have none_ := quietSkip quiet
    rw [emitRoot,none_] at walked
    cases walked
    exact ⟨.inl ⟨rfl,quiet⟩,none_⟩
  · obtain ⟨l',rest',next',_,map⟩ := fieldsSome fields some_
    rw [nextSkip next] at next'
    cases next'
    have deep := fieldsExact fields
    rw [rootBlock (nextSkip next)] at walked
    cases n with
    | zero => cases walked
    | succ n =>
      rw [blockFields map (nextSkip next)] at walked
      obtain ⟨p,inner,is⟩ := mapDone walked
      cases is
      obtain ⟨strict_,same⟩ := deep n _ inner
      exact ⟨.inr ⟨l,rest,ls',next,quiet,.inl ⟨_,rfl,some_,strict_⟩⟩,same.trans (quietSkip quiet)⟩
  · obtain ⟨l',rest',next',_,seq⟩ := itemsSome items some_
    rw [nextSkip next] at next'
    cases next'
    have deep := itemsExact items
    rw [rootBlock (nextSkip next)] at walked
    cases n with
    | zero => cases walked
    | succ n =>
      rw [blockItems seq (nextSkip next)] at walked
      obtain ⟨p,inner,is⟩ := mapDone walked
      cases is
      obtain ⟨strict_,same⟩ := deep n _ inner
      exact ⟨.inr ⟨l,rest,ls',next,quiet,.inr ⟨_,rfl,some_,strict_⟩⟩,same.trans (quietSkip quiet)⟩

theorem treeWalked {src : Bytes} {t : YTree F} (loaded : yamlTree src = .ok t) :
    ∃ ls r, preprocess 1 none (sourceLines src) = .ok ls ∧ emitRoot (walkFuel ls) ls = .ok (t,r) := by
  obtain ⟨ls,cut,last⟩ := bindDone loaded
  obtain ⟨⟨_,r⟩,walked,rfl⟩ := mapDone last
  exact ⟨ls,r,raiseDone cut,walked⟩

theorem walkedTree {src : Bytes} {ls r : List YamlLine} {t : YTree F} (cut : preprocess 1 none (sourceLines src) = .ok ls)
    (walked : emitRoot (walkFuel ls) ls = .ok (t,r)) : yamlTree src = .ok t := by
  rw [yamlTree,cut]
  exact congrArg (Except.map Prod.fst) walked

/-- A source whose JSON holds every line is walked to its end. -/
theorem contributesEnd {src : Bytes} {ls r : List YamlLine} {t : YTree F} (cut : preprocess 1 none (sourceLines src) = .ok ls)
    (walked : emitRoot (walkFuel ls) ls = .ok (t,r)) (contributes : Contributes src t) : skipBlank r = [] := by
  obtain ⟨ls',cut',doc⟩ := contributes
  rw [cut] at cut'
  cases cut'
  exact (documentExact doc walked).2

theorem nextHere {l : YamlLine} (here : l.kind.isSkipped = false) (rest : List YamlLine) : Next (l :: rest) l rest :=
  ⟨[],rfl,fun _ mem => (nomatch mem),here⟩

end

/-- The shape of a pipeline file. -/
def pipelineShape : Bytes := ascii "steps:\n  - id: a\n    depends_on: [b]\n"

end Napastak.Yaml
