import Napastak.Json

/-! `yaml_loader.c`: the source is cut into lines that are classified one by one, and the JSON is written by a walk over
the lines that compares indentations. -/
namespace Napastak.Yaml
open Query Sql Json

/-- The JSON that is written; `jb_double` takes it beyond the trees without fractions. -/
inductive YTree (F : Type)
  | null
  | bool (b : Bool)
  | int (v : Int64)
  | double (d : F)
  | str (s : Bytes)
  | arr (items : List (YTree F))
  | obj (fields : List (Bytes × YTree F))

section
variable {F : Type} [JsonDoubles F]

mutual
def YTree.write (j : Bytes) : YTree F → Bytes
  | .null => jbNull j
  | .bool b => jbBool j b
  | .int v => jbInt j v
  | .double d => jbDouble j d
  | .str s => jbStrn j s
  | .arr ts => jbArrEnd (writeItems (jbArrBegin j) ts)
  | .obj fs => jbObjEnd (writeFields (jbObjBegin j) fs)
def writeItems (j : Bytes) : List (YTree F) → Bytes
  | [] => j
  | t :: ts => writeItems (t.write j) ts
def writeField (j : Bytes) : Bytes × YTree F → Bytes
  | (k,t) => t.write (jbKey j k)
def writeFields (j : Bytes) : List (Bytes × YTree F) → Bytes
  | [] => j
  | f :: fs => writeFields (writeField j f) fs
end

end

inductive YamlKind
  | blank | mapKv | mapBlockScalar | mapKeyOnly | seqInline | seqKv | seqBlock | docMarker
  deriving DecidableEq, Repr

structure YamlLine where
  indent : Nat
  kind : YamlKind
  key : Bytes
  value : Option Bytes
  bsKind : UInt8
  lineno : Nat
  raw : Bytes
  deriving DecidableEq, Repr

structure YamlError where
  line : Nat
  col : Nat
  buf : Bytes
  deriving DecidableEq, Repr

def setErr (line : Nat) (text : String) : YamlError := ⟨line,1,ascii text⟩

/-! ### Strings -/

def isBlank (s : Bytes) : Bool := s.all isspace

def rstrip (s : Bytes) : Bytes := (s.reverse.dropWhile isspace).reverse

/-- The text before a comment: inside quotes `#` is text, and a backslash keeps the byte behind it. -/
def beforeComment : Option UInt8 → Option UInt8 → Bytes → Bytes
  | _, _, [] => []
  | some _, _, [c] => [c]
  | some q, _, c :: d :: s =>
    if c = 92 then c :: d :: beforeComment (some q) (some d) s
    else c :: beforeComment (if c = q then none else some q) (some c) (d :: s)
  | none, prev, c :: s =>
    if c = 34 ∨ c = 39 then c :: beforeComment (some c) (some c) s
    else if c = 35 ∧ prev.all isspace then []
    else c :: beforeComment none (some c) s

def stripComment (s : Bytes) : Bytes := rstrip (beforeComment none none s)

def countIndent (s : Bytes) : Nat := (s.takeWhile (· = 32)).length

/-- What stands before and behind the first `:` outside quotes that ends the text or has a blank behind it. -/
def findColon : Option UInt8 → Bytes → Option (Bytes × Bytes)
  | _, [] => none
  | some _, [_] => none
  | some q, c :: d :: s =>
    if c = 92 then (findColon (some q) s).map fun p => (c :: d :: p.1,p.2)
    else (findColon (if c = q then none else some q) (d :: s)).map fun p => (c :: p.1,p.2)
  | none, c :: s =>
    if c = 34 ∨ c = 39 then (findColon (some c) s).map fun p => (c :: p.1,p.2)
    else if c = 58 ∧ (s = [] ∨ s.head? = some 32) then some ([],s)
    else (findColon none s).map fun p => (c :: p.1,p.2)

def yamlUnescape (c : UInt8) : UInt8 := if c = 110 then 10 else if c = 116 then 9 else if c = 114 then 13 else c

/-- A quoted scalar behind its opening quote, and what follows the closing one. -/
def parseQuoted (qc : UInt8) : Bytes → Option (Bytes × Bytes)
  | [] => none
  | [c] => if c = qc then some ([],[]) else none
  | c :: d :: s =>
    if c = 92 ∧ qc = 34 then (parseQuoted qc s).map fun p => (yamlUnescape d :: p.1,p.2)
    else if c = qc then some ([],d :: s)
    else (parseQuoted qc (d :: s)).map fun p => (c :: p.1,p.2)

/-! ### Lines -/

/-- The head of a block scalar. -/
def blockHead (val : Bytes) : Bool :=
  match val with
  | [] => false
  | c :: rest => (c = 124 ∨ c = 62) ∧ (rest = [] ∨ rest.head?.any isspace)

def skipSpaces (s : Bytes) : Bytes := s.dropWhile (· = 32)

/-- A line outside block scalars, and the indentation below which a block scalar it opens takes lines in. -/
def classify (lineno : Nat) (line : Bytes) : Except YamlError (YamlLine × Option Nat) :=
  let raw := rstrip line
  let text := stripComment line
  let base : YamlLine := ⟨countIndent text,.blank,[],none,0,lineno,raw⟩
  if isBlank text then .ok ({ base with indent := countIndent raw },none)
  else
    let content := text.drop (countIndent text)
    if content = ascii "---" ∨ content = ascii "..." then .ok ({ base with kind := .docMarker },none)
    else if content.head? = some 45 ∧ (content.drop 1 = [] ∨ (content.drop 1).head? = some 32) then
      let afterDash := skipSpaces (content.drop 1)
      if afterDash = [] then .ok ({ base with kind := .seqBlock },none)
      else match findColon none afterDash with
        | some (key,rest) =>
          let val := skipSpaces rest
          .ok ({ base with kind := .seqKv, key := rstrip key, value := some val },
            if blockHead val then some base.indent else none)
        | none => .ok ({ base with kind := .seqInline, value := some afterDash },none)
    else match findColon none content with
      | none => .error (setErr lineno "expected mapping or sequence")
      | some (key,rest) =>
        let val := skipSpaces rest
        if val = [] then .ok ({ base with kind := .mapKeyOnly, key := rstrip key },none)
        else if blockHead val then
          .ok ({ base with kind := .mapBlockScalar, key := rstrip key, bsKind := val.headD 0 },some base.indent)
        else .ok ({ base with kind := .mapKv, key := rstrip key, value := some val },none)

/-- The lines of a source, classified; those below the head of a block scalar are taken in unread. -/
def preprocess : Nat → Option Nat → List Bytes → Except YamlError (List YamlLine)
  | _, _, [] => .ok []
  | lineno, absorbing, line :: lines =>
    let raw := rstrip line
    if absorbing.any fun indent => raw = [] ∨ indent < countIndent raw then
      (preprocess (lineno + 1) absorbing lines).map (⟨countIndent raw,.blank,[],none,0,lineno,raw⟩ :: ·)
    else (classify lineno line).bind fun p => (preprocess (lineno + 1) p.2 lines).map (p.1 :: ·)

def cutLine (s : Bytes) : Bytes × Bytes := (s.takeWhile (· ≠ 10),(s.dropWhile (· ≠ 10)).drop 1)

def sourceLines (src : Bytes) : List Bytes := Munch.scan cutLine src

/-! ### Scalars -/

/-- `strtoll` takes the whole text. -/
def wholeInt (text : Bytes) : Bool :=
  let s := text.dropWhile isspace
  let ds := if s.head? = some 45 ∨ s.head? = some 43 then s.drop 1 else s
  ds ≠ [] ∧ ds.all isdigit

section
variable {F : Type} [Doubles F]

/-- A scalar outside quotes. -/
def plainScalar (text : Bytes) : YTree F :=
  if text ∈ [ascii "null",ascii "~",ascii "Null",ascii "NULL"] then .null
  else if text ∈ [ascii "true",ascii "True",ascii "TRUE"] then .bool true
  else if text ∈ [ascii "false",ascii "False",ascii "FALSE"] then .bool false
  else if wholeInt text then .int (strtoll text)
  else match Doubles.strtod text with
    | some (d,[]) => .double d
    | _ => .str text

def emitScalar (text : Bytes) : YTree F :=
  match text with
  | [] => .str []
  | c :: s =>
    if c = 34 ∨ c = 39 then
      match parseQuoted c s with
      | some (u,_) => .str u
      | none => plainScalar text
    else plainScalar text

def skipBlanks (s : Bytes) : Bytes := s.dropWhile fun c => c = 32 ∨ c = 9

/-- The items of a flow sequence and what stands behind its bracket; every round takes at least one byte. -/
def flowItems (lineno : Nat) : Nat → Bytes → Except YamlError (List (YTree F) × Bytes)
  | 0, p => .ok ([],p)
  | _ + 1, [] => .ok ([],[])
  | n + 1, c :: s =>
    let item : Except YamlError (YTree F × Bytes) :=
      if c = 34 ∨ c = 39 then
        match parseQuoted c s with
        | none => .error (setErr lineno "unterminated quoted scalar in flow sequence")
        | some (u,rest) => .ok (.str u,rest)
      else .ok (emitScalar (rstrip ((c :: s).takeWhile fun d => d ≠ 44 ∧ d ≠ 93)),(c :: s).dropWhile fun d => d ≠ 44 ∧ d ≠ 93)
    item.bind fun (t,p) =>
      match skipBlanks p with
      | [] => .error (setErr lineno "missing ']' in flow sequence")
      | d :: q =>
        if d = 44 then (flowItems lineno n (skipBlanks q)).map fun (ts,rest) => (t :: ts,rest)
        else if d = 93 then .ok ([t],q)
        else (flowItems lineno n (d :: q)).map fun (ts,rest) => (t :: ts,rest)

/-- A flow sequence and what stands behind it. -/
def flowSeq (text : Bytes) (lineno : Nat) : Except YamlError (YTree F × Bytes) :=
  let p := skipBlanks (text.drop 1)
  if p.head? = some 93 then .ok (.arr [],p.drop 1)
  else (flowItems lineno p.length p).map fun (ts,rest) => (.arr ts,rest)

def emitFlowSeq (text : Bytes) (lineno : Nat) : Except YamlError (YTree F) :=
  if text.head? ≠ some 91 then .error (setErr lineno "expected '[' for flow sequence")
  else (flowSeq text lineno).map (·.1)

/-- A value on the line of its key or dash. -/
def emitInline (l : YamlLine) : Except YamlError (YTree F) :=
  if (l.value.getD []).head? = some 91 then emitFlowSeq (l.value.getD []) l.lineno
  else .ok (emitScalar (l.value.getD []))

end

/-- The lines of a block scalar, `buf` collected so far; the first that is not blank sets the indentation. -/
def blockScalar (kind : UInt8) (child : Option Nat) (first : Bool) (buf : Bytes) : List YamlLine → Bytes × List YamlLine
  | [] => (buf,[])
  | l :: ls =>
    let blank := isBlank l.raw
    let ind := countIndent l.raw
    if l.kind ≠ .blank then (buf,l :: ls)
    else if !blank ∧ child.any (ind < ·) then (buf,l :: ls)
    else
      let child := if blank then child else some (child.getD ind)
      let content := if blank then [] else l.raw.drop (child.getD 0)
      let sep := if first then [] else if kind = 62 then if content = [] then [10] else [32] else [10]
      blockScalar kind child false (buf ++ (sep ++ content)) ls

def emitBlockScalar (kind : UInt8) (ls : List YamlLine) : Bytes × List YamlLine := blockScalar kind none true [] ls

/-! ### The walk -/

def YamlKind.isSkipped (k : YamlKind) : Bool := k = .blank ∨ k = .docMarker

def YamlKind.isSeq (k : YamlKind) : Bool := k = .seqInline ∨ k = .seqKv ∨ k = .seqBlock

def skipBlank (ls : List YamlLine) : List YamlLine := ls.dropWhile fun l => l.kind.isSkipped

/-- Why a walk gives no JSON: an error, or calls that were not enough. -/
inductive Stop
  | spent
  | error (e : YamlError)

def raise {α : Type} : Except YamlError α → Except Stop α
  | .ok a => .ok a
  | .error e => .error (.error e)

section
variable {F : Type} [Doubles F]

/-- The value of the first key behind a dash, given the block below it. -/
def firstValue (first : YamlLine) (rest : List YamlLine) (nested : Except Stop (YTree F × List YamlLine)) :
    Except Stop (YTree F × List YamlLine) :=
  let value := first.value.getD []
  if value = [] then nested
  else if value.head? = some 91 then (raise (emitFlowSeq value first.lineno)).map fun t => (t,rest)
  else if blockHead value then .ok (.str (emitBlockScalar (value.headD 0) rest).1,(emitBlockScalar (value.headD 0) rest).2)
  else .ok (emitScalar value,rest)

mutual
/-- Every call and every round of a loop takes one from `n`. -/
def emitValue : Nat → Nat → List YamlLine → Except Stop (YTree F × List YamlLine)
  | 0, _, _ => .error .spent
  | n + 1, parent, ls =>
    match skipBlank ls with
    | [] => .ok (.null,ls)
    | l :: rest => if l.indent ≤ parent then .ok (.null,l :: rest) else emitBlock n l rest
termination_by structural n => n
/-- `emit_block_map` or `emit_block_seq`, as the first line has it. -/
def emitBlock : Nat → YamlLine → List YamlLine → Except Stop (YTree F × List YamlLine)
  | 0, _, _ => .error .spent
  | n + 1, l, rest =>
    if l.kind.isSeq then (emitItems n l.indent (l :: rest)).map fun (ts,rest) => (.arr ts,rest)
    else (emitFields n l.indent (l :: rest)).map fun (fs,rest) => (.obj fs,rest)
termination_by structural n => n
/-- The loop of `emit_block_map`, and of `emit_inline_seq_kv` behind its first key. -/
def emitFields : Nat → Nat → List YamlLine → Except Stop (List (Bytes × YTree F) × List YamlLine)
  | 0, _, _ => .error .spent
  | n + 1, indent, ls =>
    match skipBlank ls with
    | [] => .ok ([],[])
    | l :: rest =>
      if l.indent ≠ indent then .ok ([],l :: rest)
      else
        match l.kind with
        | .mapKv => (raise (emitInline l)).bind fun t =>
          (emitFields n indent rest).map fun (fs,rest) => ((l.key,t) :: fs,rest)
        | .mapBlockScalar =>
          let (text,rest) := emitBlockScalar l.bsKind rest
          (emitFields n indent rest).map fun (fs,rest) => ((l.key,.str text) :: fs,rest)
        | .mapKeyOnly => (emitValue n indent rest).bind fun (t,rest) =>
          (emitFields n indent rest).map fun (fs,rest) => ((l.key,t) :: fs,rest)
        | _ => .ok ([],l :: rest)
termination_by structural n => n
def emitItems : Nat → Nat → List YamlLine → Except Stop (List (YTree F) × List YamlLine)
  | 0, _, _ => .error .spent
  | n + 1, indent, ls =>
    match skipBlank ls with
    | [] => .ok ([],[])
    | l :: rest =>
      if l.indent ≠ indent then .ok ([],l :: rest)
      else
        match l.kind with
        | .seqInline => (raise (emitInline l)).bind fun t => (emitItems n indent rest).map fun (ts,rest) => (t :: ts,rest)
        | .seqBlock => (emitValue n indent rest).bind fun (t,rest) =>
          (emitItems n indent rest).map fun (ts,rest) => (t :: ts,rest)
        | .seqKv => (emitInlineSeqKv n indent l rest).bind fun (t,rest) =>
          (emitItems n indent rest).map fun (ts,rest) => (t :: ts,rest)
        | _ => .ok ([],l :: rest)
termination_by structural n => n
def emitInlineSeqKv : Nat → Nat → YamlLine → List YamlLine → Except Stop (YTree F × List YamlLine)
  | 0, _, _, _ => .error .spent
  | n + 1, indent, first, rest => (firstValue first rest (emitValue n indent rest)).bind fun (t,rest) =>
    (emitFields n (indent + 2) rest).map fun (fs,rest) => (.obj ((first.key,t) :: fs),rest)
termination_by structural n => n
end

/-- The value of the first block; the lines behind it are returned and looked at by nobody. -/
def emitRoot (n : Nat) (ls : List YamlLine) : Except Stop (YTree F × List YamlLine) :=
  match skipBlank ls with
  | [] => .ok (.null,ls)
  | l :: rest => emitBlock n l rest

/-- Enough for every walk over so many lines. -/
def walkFuel (ls : List YamlLine) : Nat := 4 * ls.length + 4

/-- The JSON of a source without NUL. -/
def yamlTree (src : Bytes) : Except Stop (YTree F) :=
  (raise (preprocess 1 none (sourceLines src))).bind fun ls => (emitRoot (walkFuel ls) ls).map (·.1)

end

variable (F : Type) [JsonDoubles F] in
def yamlToJson (src : Bytes) : Except Stop Bytes := (yamlTree (F := F) src).map (YTree.write [])

end Napastak.Yaml
